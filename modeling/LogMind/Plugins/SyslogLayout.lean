import LogMind.Plugins.SyslogLevel

/-!
# The ISO layout

A line of the layout is a date, a time, a level, a module in brackets and a message, and
`parse_one` reads it stage by stage. The timestamp stage stops at the first blank behind
the date, so the time belongs to the timestamp only when a `T` joins the two.
-/

namespace LogMind

namespace SyslogCollector

/-- A field of a date or a time. -/
structure Digits (width : Nat) where
  text : Bytes
  length_eq : text.length = width
  digits : ∀ c ∈ text, isDigit c = true

/-- What stands between the date and the time. -/
inductive Separator where
  | t
  | blank
  deriving DecidableEq

def Separator.byte : Separator → UInt8
  | t => 84
  | blank => 32

/-- The parts of a line of the layout. -/
structure IsoLine where
  year : Digits 4
  month : Digits 2
  day : Digits 2
  separator : Separator
  hour : Digits 2
  minute : Digits 2
  second : Digits 2
  level : LogLevel
  bracketed : Bool
  module : Bytes
  module_ne : module ≠ []
  module_le : module.length ≤ 63
  module_open : 93 ∉ module
  message : Bytes
  first : UInt8
  message_first : message.head? = some first
  first_text : isBlank first = false

namespace IsoLine

def date (l : IsoLine) : Bytes := l.year.text ++ 45 :: l.month.text ++ 45 :: l.day.text

def time (l : IsoLine) : Bytes := l.hour.text ++ 58 :: l.minute.text ++ 58 :: l.second.text

def stamp (l : IsoLine) : Bytes := l.date ++ l.separator.byte :: l.time

def levelText (l : IsoLine) : Bytes :=
  if l.bracketed then 91 :: l.level.name ++ [93] else l.level.name

/-- What stands behind the level and its blank. -/
def body (l : IsoLine) : Bytes := 91 :: l.module ++ 93 :: 32 :: l.message

def render (l : IsoLine) : Bytes := l.stamp ++ 32 :: (l.levelText ++ 32 :: l.body)

/-- The line parses to one entry with the parts that it was rendered from. -/
def ParsesBack (now : Int) (l : IsoLine) : Prop :=
  ∃ entry, parseLine now l.render = some { entries := [entry], linesRead := 1, linesParsed := 1 } ∧
    entry.fields.find (ascii "timestamp_text") = some (.string l.stamp) ∧
    entry.module = l.module ∧ entry.message = l.message

end IsoLine

/-! ## The timestamp -/

theorem isBlank_of_isDigit {c : UInt8} (h : isDigit c = true) : isBlank c = false := by
  rw [isDigit, Bool.and_eq_true, decide_eq_true_eq, decide_eq_true_eq] at h
  rw [isBlank, Bool.or_eq_false_iff, beq_eq_false_iff_ne, beq_eq_false_iff_ne]
  constructor
  · rintro rfl
    exact absurd h.1 (by decide)
  · rintro rfl
    exact absurd h.1 (by decide)

theorem Digits.not_blank {width : Nat} (d : Digits width) : ∀ c ∈ d.text, isBlank c = false :=
  fun c hc => isBlank_of_isDigit (d.digits c hc)

namespace IsoLine

variable (l : IsoLine)

theorem date_length : l.date.length = 10 := by
  simp [date, l.year.length_eq, l.month.length_eq, l.day.length_eq]

theorem time_length : l.time.length = 8 := by
  simp [time, l.hour.length_eq, l.minute.length_eq, l.second.length_eq]

theorem stamp_length : l.stamp.length = 19 := by
  simp [stamp, date_length, time_length]

theorem time_not_blank : ∀ c ∈ l.time, isBlank c = false := by
  intro c hc
  simp only [time, List.mem_append, List.mem_cons] at hc
  rcases hc with (hc | rfl | hc) | rfl | hc
  · exact l.hour.not_blank c hc
  · rfl
  · exact l.minute.not_blank c hc
  · rfl
  · exact l.second.not_blank c hc

/-- What stands behind the date. -/
theorem render_drop_date :
    l.render.drop 10 =
      l.separator.byte :: l.time ++ 32 :: (l.levelText ++ 32 :: l.body) := by
  have htext : l.render.drop 0 =
      l.date ++ (l.separator.byte :: l.time ++ 32 :: (l.levelText ++ 32 :: l.body)) := by
    simp [render, stamp]
  have hdrop := drop_of_append htext
  rwa [date_length, Nat.zero_add] at hdrop

/-- What stands behind the time. -/
theorem render_drop_stamp : l.render.drop 19 = 32 :: (l.levelText ++ 32 :: l.body) := by
  have htext : l.render.drop 0 = l.stamp ++ 32 :: (l.levelText ++ 32 :: l.body) := rfl
  have hdrop := drop_of_append htext
  rwa [stamp_length, Nat.zero_add] at hdrop

theorem render_take_stamp : l.render.take 19 = l.stamp := by
  rw [render, ← stamp_length l, List.take_left]

theorem timestampEnd_render : timestampEnd l.render = findBlank l.render 10 := by
  have hyear : l.render.take 4 = l.year.text := by
    simp [render, stamp, date, l.year.length_eq]
  have hlt : 10 < l.render.length := le_length_of_drop l.render_drop_date
  have hdash : l.render[4]? = some 45 := by
    simp [render, stamp, date, l.year.length_eq]
  have hdigits : startsWithDigits l.render 0 4 = true := by
    unfold startsWithDigits
    rw [if_neg (by omega), List.drop_zero, hyear, List.all_eq_true]
    exact l.year.digits
  exact if_pos ⟨hdigits, hlt, hdash⟩

/-- With a `T` the timestamp goes up to the blank behind the time. -/
theorem timestampEnd_of_t (hsep : l.separator = .t) : timestampEnd l.render = some 19 := by
  have htext := l.render_drop_date
  rw [hsep] at htext
  have hfound : findBlank l.render 10 = some (10 + (84 :: l.time).length) := by
    apply findFrom_of_append htext
    · intro c hc
      rcases List.mem_cons.mp hc with rfl | hmem
      · rfl
      · exact l.time_not_blank c hmem
    · rfl
  rw [timestampEnd_render, hfound, List.length_cons, time_length]

/-- With a blank it ends in front of the time. -/
theorem timestampEnd_of_blank (hsep : l.separator = .blank) :
    timestampEnd l.render = some 10 := by
  have htext := l.render_drop_date
  rw [hsep] at htext
  rw [timestampEnd_render]
  exact findFrom_of_append (a := []) htext (by simp) rfl

end IsoLine

/-! ## The stages behind the timestamp -/

/-- Blanks in front of a text are skipped. -/
theorem skipSpaces_of_append {line blanks rest : Bytes} {pos : Nat} {c : UInt8}
    (text : line.drop pos = blanks ++ c :: rest) (hblanks : ∀ b ∈ blanks, isBlank b = true)
    (hc : isBlank c = false) : skipSpaces line pos = pos + blanks.length := by
  rw [skipSpaces, text, List.takeWhile_append_of_pos hblanks, List.takeWhile_cons, hc]
  simp

/-- A module in brackets that is short enough and has no bracket in it is read as it is. -/
theorem parseModule_of_text {line name rest : Bytes} {pos : Nat}
    (text : line.drop pos = 91 :: name ++ 93 :: rest) (hname : 93 ∉ name)
    (hlength : name.length ≤ 63) :
    parseModule line pos = some (name, skipSpaces line (pos + name.length + 2)) := by
  have hopen : (line)[pos]? = some 91 := getElem?_of_drop text
  have hclose : findByte line 93 pos = some (pos + (91 :: name).length) := by
    apply findFrom_of_append text
    · intro c hc
      rw [beq_eq_false_iff_ne]
      rintro rfl
      rcases List.mem_cons.mp hc with hmem | hmem
      · cases hmem
      · exact hname hmem
    · rfl
  have hinner : line.drop (pos + 1) = name ++ 93 :: rest := drop_of_append (a := [91]) text
  have hwidth : diff (pos + (91 :: name).length) pos = some (name.length + 1) := by
    rw [diff_of_le (Nat.le_add_right _ _), Nat.add_sub_cancel_left, List.length_cons]
  have hone : diff (name.length + 1) 1 = some name.length := by
    rw [diff_of_le (by omega), Nat.add_sub_cancel]
  unfold parseModule
  rw [if_neg (not_not_intro hopen), hclose]
  simp only [hwidth, hone, substr_of_append (le_length_of_drop text) hinner,
    Option.bind_eq_bind, Option.bind_some]
  rw [if_neg (by omega)]
  rfl

theorem levelNames_name (level : LogLevel) :
    toUpper level.name ∈ bareNames ∧ (toUpper level.name, level) ∈ levelNames := by
  cases level <;> decide

namespace IsoLine

variable (l : IsoLine)

/-- The level stage ends behind the level text. -/
theorem recognises_level :
    Recognises l.render 20 l.level (20 + l.levelText.length) := by
  obtain ⟨hbare, hnamed⟩ := levelNames_name l.level
  have htext : l.render.drop 20 = l.levelText ++ 32 :: l.body :=
    drop_of_append (a := [32]) l.render_drop_stamp
  unfold levelText at htext ⊢
  by_cases hbracketed : l.bracketed = true
  · rw [if_pos hbracketed] at htext ⊢
    have hinner : l.render.drop 20 = 91 :: l.level.name ++ 93 :: (32 :: l.body) := by
      rw [htext]
      simp
    left
    rw [parseBracketedLevel_of_text hinner hnamed]
    simp [Nat.add_assoc]
  · rw [if_neg hbracketed] at htext ⊢
    right
    exact parseBareLevel_of_text htext rfl hbare hnamed

/-- The text of a level begins with no blank. -/
theorem levelText_first : ∃ c rest, l.levelText = c :: rest ∧ isBlank c = false := by
  unfold levelText
  by_cases hbracketed : l.bracketed = true
  · rw [if_pos hbracketed]
    exact ⟨91, _, rfl, rfl⟩
  · rw [if_neg hbracketed]
    cases l.level <;> exact ⟨_, _, rfl, rfl⟩

theorem afterTimestamp_of_t (hsep : l.separator = .t) : afterTimestamp l.render = 20 := by
  obtain ⟨c, rest, hlevel, hc⟩ := l.levelText_first
  have htext : l.render.drop 19 = [32] ++ c :: (rest ++ 32 :: l.body) := by
    rw [render_drop_stamp, hlevel]
    rfl
  rw [afterTimestamp, timestampEnd_of_t l hsep]
  exact skipSpaces_of_append htext (by simp [isBlank]) hc

/-- With a `T` the line parses back. -/
theorem parsesBack_of_t (now : Int) (hsep : l.separator = .t) : l.ParsesBack now := by
  have hlevel : parseLevel l.render (afterTimestamp l.render) =
      some (l.level, 20 + l.levelText.length) := by
    rw [afterTimestamp_of_t l hsep]
    exact l.recognises_level.parseLevel_eq
  have hbehind : l.render.drop (20 + l.levelText.length) = [32] ++ l.body :=
    drop_of_append (drop_of_append (a := [32]) l.render_drop_stamp)
  have hskip : skipSpaces l.render (20 + l.levelText.length) = 20 + l.levelText.length + 1 :=
    skipSpaces_of_append hbehind (by simp [isBlank]) rfl
  have hbody : l.render.drop (20 + l.levelText.length + 1) =
      91 :: l.module ++ 93 :: 32 :: l.message := drop_of_append hbehind
  obtain ⟨rest, hmessage⟩ := List.head?_eq_some_iff.mp l.message_first
  have hmodule := parseModule_of_text hbody l.module_open l.module_le
  have hend : l.render.drop (20 + l.levelText.length + 1 + l.module.length + 2) =
      [32] ++ l.message := by
    have htext : l.render.drop (20 + l.levelText.length + 1) =
        (91 :: l.module ++ [93]) ++ 32 :: l.message := by
      simpa using hbody
    simpa [Nat.add_assoc] using drop_of_append htext
  have hafter : skipSpaces l.render (20 + l.levelText.length + 1 + l.module.length + 2) =
      20 + l.levelText.length + 1 + l.module.length + 3 :=
    skipSpaces_of_append (hmessage ▸ hend) (by simp [isBlank]) l.first_text
  have hrest : l.render.drop (20 + l.levelText.length + 1 + l.module.length + 3) = l.message :=
    drop_of_append hend
  have hlt := le_length_of_drop (hrest.trans hmessage)
  have hmodule_ne : l.module.isEmpty = false := by simpa using l.module_ne
  have hline : l.render.isEmpty = false := by simpa using List.ne_nil_of_length_pos (by omega)
  have htext : substr l.render (20 + l.levelText.length + 1 + l.module.length + 3)
      l.render.length = some l.message := by
    rw [substr_of_le (Nat.le_of_lt hlt), hrest, List.take_of_length_le]
    rw [← hrest, List.length_drop]
    exact Nat.sub_le _ _
  have hfields : timestampFields l.render =
      .object [(ascii "timestamp_text", .string l.stamp)] := by
    rw [timestampFields, timestampEnd_of_t l hsep, ← render_take_stamp]
  refine ⟨{
    raw := l.render
    timestamp := now
    level := if l.level = .info then guessLevel l.render else l.level
    message := l.message
    module := l.module
    fields := timestampFields l.render }, ?_, ?_, rfl, rfl⟩
  · rw [parseLine, hline, parseOne]
    simp only [parseTimestamp_eq, hlevel, hskip, hmodule, hafter, hmodule_ne, htext, if_pos hlt,
      Bool.false_eq_true, if_false, Option.bind_eq_bind, Option.bind_some]
    rfl
  · rw [hfields]
    rfl

/-- With a blank the timestamp text ends with the date. -/
theorem not_parsesBack_of_blank (now : Int) (hsep : l.separator = .blank) :
    ¬ l.ParsesBack now := by
  rintro ⟨entry, hparse, hstamp, _⟩
  obtain ⟨found, hfound, _, hfields, _⟩ := parseOne_total now l.render
  have hlt : 19 < l.render.length := le_length_of_drop l.render_drop_stamp
  have hline : l.render.isEmpty = false := by
    simpa using List.ne_nil_of_length_pos (Nat.zero_lt_of_lt hlt)
  have hentry : found = entry := by
    simpa [parseLine, hline, hfound] using hparse
  rw [← hentry, hfields, timestampFields, timestampEnd_of_blank l hsep] at hstamp
  have htake : l.render.take 10 = l.stamp := by simpa [Json.find] using hstamp
  have hlength := congrArg List.length htake
  rw [List.length_take, stamp_length] at hlength
  omega

/-- A line of the ISO layout parses back exactly when a `T` separates the date from the
time. -/
theorem parsesBack_iff (now : Int) : l.ParsesBack now ↔ l.separator = .t := by
  constructor
  · intro h
    cases hsep : l.separator with
    | t => rfl
    | blank => exact absurd h (not_parsesBack_of_blank l now hsep)
  · exact parsesBack_of_t l now

/-- A line with a blank between the date and the time. -/
def blankLine : IsoLine where
  year := ⟨ascii "2024", rfl, List.all_eq_true.mp (by decide)⟩
  month := ⟨ascii "01", rfl, List.all_eq_true.mp (by decide)⟩
  day := ⟨ascii "15", rfl, List.all_eq_true.mp (by decide)⟩
  separator := .blank
  hour := ⟨ascii "10", rfl, List.all_eq_true.mp (by decide)⟩
  minute := ⟨ascii "23", rfl, List.all_eq_true.mp (by decide)⟩
  second := ⟨ascii "45", rfl, List.all_eq_true.mp (by decide)⟩
  level := .error
  bracketed := false
  module := ascii "db"
  module_ne := by decide
  module_le := by decide
  module_open := by decide
  message := ascii "connection lost"
  first := 99
  message_first := rfl
  first_text := rfl

/-- The level and the module of the line end up in its message. -/
theorem not_parsesBack_blankLine :
    blankLine.render = ascii "2024-01-15 10:23:45 ERROR [db] connection lost" ∧
      (parseOne 0 blankLine.render).map LogEntry.message =
        some (ascii "10:23:45 ERROR [db] connection lost") ∧
      ¬ blankLine.ParsesBack 0 :=
  ⟨rfl, rfl, not_parsesBack_of_blank blankLine 0 rfl⟩

end IsoLine

end SyslogCollector

end LogMind
