import LogMind.Plugins.SyslogLevel

/-!
# The syslog parser stays inside the line

The stages of `parse_one` once more, with every access checked: a byte that is read, the
start of a `substr` and of a backward search lie inside the line, a forward search starts
inside it or at its end, and no difference wraps. The checks never fail, so both readings
of the source give the same entry.
-/

namespace LogMind

namespace SyslogCollector

namespace Guarded

/-- `s[i]`. -/
def byteAt (s : Bytes) (i : Nat) : Option UInt8 := s[i]?

/-- `s.substr(pos, n)`. -/
def cut (s : Bytes) (pos n : Nat) : Option Bytes :=
  if pos < s.length then some ((s.drop pos).take n) else none

/-- `s.find(c, pos)` and `s.find_first_of(cs, pos)`. -/
def find (p : UInt8 → Bool) (s : Bytes) (pos : Nat) : Option (Option Nat) :=
  if pos ≤ s.length then some (findFrom p s pos) else none

/-- `s.rfind(c, pos)`. -/
def findBack (s : Bytes) (c : UInt8) (pos : Nat) : Option (Option Nat) :=
  if pos < s.length then some (rfindByte s c pos) else none

/-- The loop of `starts_with_digits`. -/
def digitsAt (s : Bytes) : Nat → Nat → Option Bool
  | _, 0 => some true
  | pos, count + 1 => do
      if isDigit (← byteAt s pos) then digitsAt s (pos + 1) count else return false

def startsWithDigits (s : Bytes) (pos count : Nat) : Option Bool :=
  if s.length < pos + count then some false else digitsAt s pos count

def skipSpaces (s : Bytes) (pos : Nat) : Option Nat :=
  if h : pos < s.length then do
    if isBlank (← byteAt s pos) then skipSpaces s (pos + 1) else return pos
  else some pos
termination_by s.length - pos

def timestampEnd (s : Bytes) : Option (Option Nat) := do
  if !(← startsWithDigits s 0 4) then return none
  if s.length ≤ 10 then return none
  if (← byteAt s 4) ≠ 45 then return none
  find isBlank s 10

def parseTimestamp (line : Bytes) : Option (Json × Nat) := do
  match ← timestampEnd line with
  | none => return (.null, 0)
  | some sep =>
      let text ← cut line 0 sep
      let fields ← Json.setMember .null (ascii "timestamp_text") (.string text)
      return (fields, ← skipSpaces line sep)

def parseBracketedLevel (s : Bytes) (pos : Nat) : Option (Option (LogLevel × Nat)) := do
  if s.length ≤ pos then return none
  if (← byteAt s pos) ≠ 91 then return none
  match ← find (· == 93) s pos with
  | none => return none
  | some close =>
      let width ← diff close pos
      if 8 < width then return none
      let inner ← diff width 1
      let token := toUpper (← cut s (pos + 1) inner)
      if bracketedNames.contains token then
        let name := if token = ascii "WARNING" then ascii "WARN" else token
        return some (LogLevel.ofString name, close + 1)
      return none

def parseBareLevel (line : Bytes) (pos : Nat) : Option (Option (LogLevel × Nat)) := do
  match ← find isBlank line pos with
  | none => return none
  | some stop =>
      let width ← diff stop pos
      if 8 < width then return none
      let token := toUpper (← cut line pos width)
      if bareNames.contains token then return some (LogLevel.ofString token, stop)
      return none

def parseLevel (line : Bytes) (pos : Nat) : Option (LogLevel × Nat) := do
  match ← parseBracketedLevel line pos with
  | some found => return found
  | none =>
      match ← parseBareLevel line pos with
      | some found => return found
      | none => return (.info, pos)

def parseModule (s : Bytes) (pos : Nat) : Option (Bytes × Nat) := do
  if s.length ≤ pos then return ([], pos)
  if (← byteAt s pos) ≠ 91 then return ([], pos)
  match ← find (· == 93) s pos with
  | none => return ([], pos)
  | some close =>
      let width ← diff close pos
      if 64 < width then return ([], pos)
      let inner ← diff width 1
      let name ← cut s (pos + 1) inner
      return (name, ← skipSpaces s (close + 1))

def parseProcess (line : Bytes) (pos : Nat) : Option (Bytes × Nat) := do
  let colon ← find (· == 58) line pos
  let bracket ← find (· == 91) line pos
  match bracket, colon with
  | some bracket, some colon =>
      if colon ≤ bracket then return ([], pos)
      let width ← diff colon bracket
      if 16 < width then return ([], pos)
      let start := match ← findBack line 32 bracket with
        | none => pos
        | some space => space + 1
      let length ← diff bracket start
      let name ← cut line start length
      return (name, ← skipSpaces line (colon + 1))
  | _, _ => return ([], pos)

def parseOne (now : Int) (line : Bytes) : Option LogEntry := do
  let (fields, afterTimestamp) ← parseTimestamp line
  let (level, afterLevel) ← parseLevel line afterTimestamp
  let (bracketed, afterModule) ← parseModule line (← skipSpaces line afterLevel)
  let (module, pos) ←
    (if bracketed.isEmpty then parseProcess line afterModule else some (bracketed, afterModule))
  let message ← (if pos < line.length then cut line pos line.length else some line)
  return {
    raw := line
    timestamp := now
    level := if level = .info then guessLevel line else level
    message := message
    module := if module.isEmpty then ascii "unknown" else module
    fields := fields }

end Guarded

/-! ## The single accesses -/

variable {s line : Bytes} {pos : Nat}

theorem byteAt_of_lt (h : pos < s.length) : Guarded.byteAt s pos = some s[pos] :=
  List.getElem?_eq_getElem h

theorem cut_of_lt (h : pos < s.length) (n : Nat) : Guarded.cut s pos n = substr s pos n := by
  rw [Guarded.cut, if_pos h, substr_of_le (Nat.le_of_lt h)]

theorem find_of_le (h : pos ≤ s.length) (p : UInt8 → Bool) :
    Guarded.find p s pos = some (findFrom p s pos) := if_pos h

theorem findBack_of_lt (h : pos < s.length) (c : UInt8) :
    Guarded.findBack s c pos = some (rfindByte s c pos) := if_pos h

theorem substr_infix {n : Nat} {text : Bytes} (h : substr s pos n = some text) : text <:+: s := by
  unfold substr at h
  split at h
  · rw [← Option.some.inj h]
    exact (List.take_prefix _ _).isInfix.trans (List.drop_suffix _ _).isInfix
  · cases h

theorem digitsAt_eq {count : Nat} (h : pos + count ≤ s.length) :
    Guarded.digitsAt s pos count = some (((s.drop pos).take count).all isDigit) := by
  induction count generalizing pos with
  | zero => simp [Guarded.digitsAt]
  | succ count ih =>
      have hlt : pos < s.length := by omega
      have hrest := ih (show pos + 1 + count ≤ s.length by omega)
      rw [List.drop_eq_getElem_cons hlt, List.take_succ_cons, List.all_cons, Guarded.digitsAt,
        byteAt_of_lt hlt, Option.bind_eq_bind, Option.bind_some, hrest]
      cases isDigit s[pos] <;> rfl

theorem startsWithDigits_eq (pos count : Nat) :
    Guarded.startsWithDigits s pos count = some (startsWithDigits s pos count) := by
  unfold Guarded.startsWithDigits startsWithDigits
  split
  · rfl
  · exact digitsAt_eq (by omega)

theorem skipSpaces_eq (pos : Nat) : Guarded.skipSpaces s pos = some (skipSpaces s pos) := by
  induction pos using Guarded.skipSpaces.induct s with
  | case1 pos hlt ih =>
      rw [Guarded.skipSpaces, dif_pos hlt, byteAt_of_lt hlt, Option.bind_eq_bind,
        Option.bind_some, ih, skipSpaces, skipSpaces, List.drop_eq_getElem_cons hlt,
        List.takeWhile_cons]
      cases isBlank s[pos] with
      | true =>
          simp
          omega
      | false => simp
  | case2 pos hge =>
      rw [Guarded.skipSpaces, dif_neg hge, skipSpaces, List.drop_eq_nil_of_le (by omega)]
      simp

theorem skipSpaces_le (h : pos ≤ s.length) : skipSpaces s pos ≤ s.length := by
  have hle := (List.takeWhile_prefix isBlank (l := s.drop pos)).length_le
  rw [List.length_drop] at hle
  unfold skipSpaces
  omega

/-! ## The stages -/

theorem timestampEnd_eq (s : Bytes) : Guarded.timestampEnd s = some (timestampEnd s) := by
  unfold Guarded.timestampEnd timestampEnd
  rw [startsWithDigits_eq, Option.bind_eq_bind, Option.bind_some]
  cases hdigits : startsWithDigits s 0 4 with
  | false => simp
  | true =>
      by_cases hlength : s.length ≤ 10
      · have hshort : ¬ 10 < s.length := Nat.not_lt_of_le hlength
        simp [hlength, hshort]
      · have hfour : 4 < s.length := by omega
        rw [byteAt_of_lt hfour, List.getElem?_eq_getElem hfour]
        by_cases hdash : s[4] = 45
        · simp [hlength, hdash, Nat.lt_of_not_le hlength, findBlank,
            find_of_le (show 10 ≤ s.length by omega)]
        · simp [hlength, hdash]

theorem lt_of_timestampEnd {stop : Nat} (h : timestampEnd s = some stop) : stop < s.length := by
  unfold timestampEnd at h
  split at h
  · exact (findFrom_spec h).2.1
  · cases h

theorem parseTimestamp_guarded (line : Bytes) :
    Guarded.parseTimestamp line = parseTimestamp line ∧ afterTimestamp line ≤ line.length := by
  unfold Guarded.parseTimestamp parseTimestamp afterTimestamp
  rw [timestampEnd_eq, Option.bind_eq_bind, Option.bind_some]
  cases hstop : timestampEnd line with
  | none => exact ⟨rfl, Nat.zero_le _⟩
  | some sep =>
      have hsep : sep < line.length := lt_of_timestampEnd hstop
      constructor
      · simp [cut_of_lt (show 0 < line.length by omega), skipSpaces_eq]
      · exact skipSpaces_le (Nat.le_of_lt hsep)

/-- The text between brackets starts inside the line. -/
theorem inside_brackets {close : Nat} (hopen : s[pos]? = some 91)
    (hclose : findByte s 93 pos = some close) : pos + 1 < s.length := by
  obtain ⟨hle, hlt, hbyte⟩ := findByte_spec hclose
  have hne : pos ≠ close := ne_of_bytes hopen hbyte (by decide)
  omega

/-- Without an opening bracket both checks of the first byte give up. -/
theorem guarded_unopened {α : Type} (hopen : s[pos]? ≠ some 91) (other : α) (rest : Option α) :
    (if s.length ≤ pos then some other
      else (Guarded.byteAt s pos).bind fun c => if c ≠ 91 then some other else rest) =
      some other := by
  split
  · rfl
  · rename_i hlt
    rw [byteAt_of_lt (Nat.lt_of_not_le hlt), Option.bind_some, if_pos]
    rwa [List.getElem?_eq_getElem (Nat.lt_of_not_le hlt), ne_eq, Option.some_inj] at hopen

theorem parseBracketedLevel_guarded (hpos : pos ≤ s.length) :
    Guarded.parseBracketedLevel s pos = parseBracketedLevel s pos := by
  unfold Guarded.parseBracketedLevel parseBracketedLevel
  by_cases hopen : s[pos]? = some 91
  · obtain ⟨hlt, hbyte⟩ := List.getElem?_eq_some_iff.mp hopen
    rw [if_neg (Nat.not_le_of_lt hlt), if_neg (not_not_intro hopen), byteAt_of_lt hlt, hbyte,
      find_of_le hpos]
    simp only [Option.bind_eq_bind, Option.bind_some, ne_eq, not_true_eq_false, if_false]
    change (match findByte s 93 pos with | none => _ | some close => _) = _
    cases hclose : findByte s 93 pos with
    | none => rfl
    | some close =>
        have hinside := inside_brackets hopen hclose
        simp only [cut_of_lt hinside, List.contains_iff_mem]
  · rw [if_pos hopen]
    exact guarded_unopened hopen _ _

theorem parseBareLevel_guarded (hpos : pos ≤ line.length) :
    Guarded.parseBareLevel line pos = parseBareLevel line pos := by
  unfold Guarded.parseBareLevel parseBareLevel
  rw [find_of_le hpos, Option.bind_eq_bind, Option.bind_some]
  change (match findBlank line pos with | none => _ | some stop => _) = _
  cases hstop : findBlank line pos with
  | none => rfl
  | some stop =>
      obtain ⟨hle, hlt, -⟩ := findFrom_spec hstop
      simp only [cut_of_lt (show pos < line.length by omega), List.contains_iff_mem]

theorem parseLevel_guarded (hpos : pos ≤ line.length) :
    Guarded.parseLevel line pos = parseLevel line pos := by
  rw [Guarded.parseLevel, parseBracketedLevel_guarded hpos, parseBareLevel_guarded hpos]
  rfl

theorem parseModule_guarded (hpos : pos ≤ s.length) :
    Guarded.parseModule s pos = parseModule s pos := by
  unfold Guarded.parseModule parseModule
  by_cases hopen : s[pos]? = some 91
  · obtain ⟨hlt, hbyte⟩ := List.getElem?_eq_some_iff.mp hopen
    rw [if_neg (Nat.not_le_of_lt hlt), if_neg (not_not_intro hopen), byteAt_of_lt hlt, hbyte,
      find_of_le hpos]
    simp only [Option.bind_eq_bind, Option.bind_some, ne_eq, not_true_eq_false, if_false]
    change (match findByte s 93 pos with | none => _ | some close => _) = _
    cases hclose : findByte s 93 pos with
    | none => rfl
    | some close =>
        have hinside := inside_brackets hopen hclose
        simp only [cut_of_lt hinside, skipSpaces_eq]
        rfl
  · rw [if_pos hopen]
    exact guarded_unopened hopen _ _

theorem parseProcess_guarded (hpos : pos ≤ line.length) :
    Guarded.parseProcess line pos = parseProcess line pos := by
  unfold Guarded.parseProcess parseProcess
  rw [find_of_le hpos, find_of_le hpos, Option.bind_eq_bind, Option.bind_some, Option.bind_eq_bind,
    Option.bind_some]
  change (match findByte line 91 pos, findByte line 58 pos with
    | some bracket, some colon => _
    | _, _ => _) = _
  cases hbracket : findByte line 91 pos with
  | none => rfl
  | some bracket =>
      cases hcolon : findByte line 58 pos with
      | none => rfl
      | some colon =>
          obtain ⟨-, hlt, -⟩ := findByte_spec hbracket
          have hstart : (match rfindByte line 32 bracket with
              | none => pos
              | some space => space + 1) ≤ bracket := process_start hbracket
          dsimp only
          by_cases hbefore : bracket < colon
          · rw [if_pos hbefore, if_neg (Nat.not_le_of_lt hbefore)]
            simp only [findBack_of_lt hlt, skipSpaces_eq, Option.bind_eq_bind, Option.bind_some]
            cases hspace : rfindByte line 32 bracket with
            | none =>
                rw [hspace] at hstart
                simp only [cut_of_lt (Nat.lt_of_le_of_lt hstart hlt)]
            | some space =>
                rw [hspace] at hstart
                simp only [cut_of_lt (Nat.lt_of_le_of_lt hstart hlt)]
          · rw [if_neg hbefore, if_pos (Nat.le_of_not_lt hbefore)]
            rfl

/-! ## The cursor and the texts that are cut out -/

theorem parseBracketedLevel_le {level : LogLevel} {next : Nat}
    (h : parseBracketedLevel line pos = some (some (level, next))) : next ≤ line.length := by
  unfold parseBracketedLevel at h
  by_cases hopen : (line)[pos]? = some 91
  · rw [if_neg (not_not_intro hopen)] at h
    cases hclose : findByte line 93 pos with
    | none =>
        rw [hclose] at h
        cases h
    | some close =>
        obtain ⟨width, inner, text, hwidth, hinner, htext⟩ := bracket_text hopen hclose
        obtain ⟨-, hlt, -⟩ := findByte_spec hclose
        rw [hclose] at h
        simp only [hwidth, hinner, htext, Option.bind_eq_bind, Option.bind_some] at h
        split at h
        · cases h
        · split at h
          · obtain ⟨-, rfl⟩ := Prod.mk.inj (Option.some.inj (Option.some.inj h))
            exact hlt
          · cases h
  · rw [if_pos hopen] at h
    cases h

theorem parseBareLevel_le {level : LogLevel} {next : Nat}
    (h : parseBareLevel line pos = some (some (level, next))) : next ≤ line.length := by
  unfold parseBareLevel at h
  cases hstop : findBlank line pos with
  | none =>
      rw [hstop] at h
      cases h
  | some stop =>
      obtain ⟨hpos, hlt, -⟩ := findFrom_spec hstop
      rw [hstop] at h
      simp only [diff_of_le hpos, substr_of_le (show pos ≤ line.length by omega),
        Option.bind_eq_bind, Option.bind_some] at h
      split at h
      · cases h
      · split at h
        · obtain ⟨-, rfl⟩ := Prod.mk.inj (Option.some.inj (Option.some.inj h))
          exact Nat.le_of_lt hlt
        · cases h

theorem parseLevel_le {level : LogLevel} {next : Nat} (hpos : pos ≤ line.length)
    (h : parseLevel line pos = some (level, next)) : next ≤ line.length := by
  obtain ⟨bracketed, hbracketed⟩ := parseBracketedLevel_total line pos
  obtain ⟨bare, hbare⟩ := parseBareLevel_total line pos
  unfold parseLevel at h
  rw [hbracketed, hbare] at h
  cases bracketed with
  | some found =>
      obtain rfl : found = (level, next) := Option.some.inj h
      exact parseBracketedLevel_le hbracketed
  | none =>
      cases bare with
      | some found =>
          obtain rfl : found = (level, next) := Option.some.inj h
          exact parseBareLevel_le hbare
      | none =>
          obtain ⟨-, rfl⟩ := Prod.mk.inj (Option.some.inj h)
          exact hpos

/-- The module in brackets is a piece of the line. -/
theorem parseModule_spec (hpos : pos ≤ s.length) : ∃ name next,
    parseModule s pos = some (name, next) ∧ name <:+: s ∧ next ≤ s.length := by
  unfold parseModule
  by_cases hopen : s[pos]? = some 91
  · rw [if_neg (not_not_intro hopen)]
    cases hclose : findByte s 93 pos with
    | none => exact ⟨[], pos, rfl, List.nil_infix, hpos⟩
    | some close =>
        obtain ⟨width, inner, text, hwidth, hinner, htext⟩ := bracket_text hopen hclose
        obtain ⟨-, hlt, -⟩ := findByte_spec hclose
        simp only [hwidth, hinner, htext, Option.bind_eq_bind, Option.bind_some]
        split
        · exact ⟨[], pos, rfl, List.nil_infix, hpos⟩
        · exact ⟨text, _, rfl, substr_infix htext, skipSpaces_le hlt⟩
  · exact ⟨[], pos, if_pos hopen, List.nil_infix, hpos⟩

/-- The name of the process is a piece of the line. -/
theorem parseProcess_spec (hpos : pos ≤ line.length) : ∃ name next,
    parseProcess line pos = some (name, next) ∧ name <:+: line ∧ next ≤ line.length := by
  unfold parseProcess
  cases hbracket : findByte line 91 pos with
  | none => exact ⟨[], pos, rfl, List.nil_infix, hpos⟩
  | some bracket =>
      cases hcolon : findByte line 58 pos with
      | none => exact ⟨[], pos, rfl, List.nil_infix, hpos⟩
      | some colon =>
          obtain ⟨-, hlt, -⟩ := findByte_spec hcolon
          have hstart := process_start hbracket
          dsimp only
          split
          · rename_i hbefore
            rw [diff_of_le (Nat.le_of_lt hbefore), Option.bind_eq_bind, Option.bind_some]
            split
            · exact ⟨[], pos, rfl, List.nil_infix, hpos⟩
            · have hcut : ∀ start ≤ bracket, ∃ name next, (do
                  let length ← diff bracket start
                  let name ← substr line start length
                  return (name, skipSpaces line (colon + 1))) = some (name, next) ∧
                    name <:+: line ∧ next ≤ line.length := by
                intro start hle
                have hinside : start ≤ line.length := by omega
                simp only [diff_of_le hle, substr_of_le hinside, Option.bind_eq_bind,
                  Option.bind_some]
                exact ⟨_, _, rfl, substr_infix (substr_of_le hinside _), skipSpaces_le hlt⟩
              exact hcut _ hstart
          · exact ⟨[], pos, rfl, List.nil_infix, hpos⟩

/-- What becomes of a line that is not empty: no check fails, the message is the end of the
line and the module a piece of it. -/
theorem parseOne_inside (now : Int) {line : Bytes} (hline : line ≠ []) :
    ∃ entry, Guarded.parseOne now line = some entry ∧ parseOne now line = some entry ∧
      entry.message ≠ [] ∧ entry.message <:+ line ∧
      entry.module ≠ [] ∧ (entry.module = ascii "unknown" ∨ entry.module <:+: line) := by
  obtain ⟨htimestamp, hstart⟩ := parseTimestamp_guarded line
  obtain ⟨level, afterLevel, hlevel⟩ := parseLevel_total line (afterTimestamp line)
  have hafter : skipSpaces line afterLevel ≤ line.length :=
    skipSpaces_le (parseLevel_le hstart hlevel)
  obtain ⟨bracketed, afterModule, hmodule, hbracketed, hbehind⟩ := parseModule_spec hafter
  obtain ⟨module, pos, hprocess, hpiece⟩ : ∃ module pos,
      (if bracketed.isEmpty then parseProcess line afterModule
        else some (bracketed, afterModule)) = some (module, pos) ∧ module <:+: line := by
    split
    · obtain ⟨module, pos, hprocess, hpiece, -⟩ := parseProcess_spec hbehind
      exact ⟨module, pos, hprocess, hpiece⟩
    · exact ⟨bracketed, afterModule, rfl, hbracketed⟩
  have hmessage : (if pos < line.length then substr line pos line.length else some line) =
      some (if pos < line.length then line.drop pos else line) := by
    split
    · rw [substr_of_le (by omega), List.take_of_length_le (by simp)]
    · rfl
  have hguarded : (if pos < line.length then Guarded.cut line pos line.length else some line) =
      some (if pos < line.length then line.drop pos else line) := by
    rw [← hmessage]
    split
    · rename_i hlt
      exact cut_of_lt hlt _
    · rfl
  have hentry : parseOne now line = some {
      raw := line
      timestamp := now
      level := if level = .info then guessLevel line else level
      message := if pos < line.length then line.drop pos else line
      module := if module.isEmpty then ascii "unknown" else module
      fields := timestampFields line } := by
    unfold parseOne
    simp only [parseTimestamp_eq, hlevel, hmodule, hprocess, hmessage, Option.bind_eq_bind,
      Option.bind_some]
    rfl
  have hsame : Guarded.parseOne now line = parseOne now line := by
    rw [hentry]
    unfold Guarded.parseOne
    simp only [htimestamp, parseTimestamp_eq, parseLevel_guarded hstart, hlevel, skipSpaces_eq,
      parseModule_guarded hafter, hmodule, parseProcess_guarded hbehind, hprocess, hguarded,
      Option.bind_eq_bind, Option.bind_some]
    rfl
  refine ⟨_, hsame.trans hentry, hentry, ?_, ?_, ?_, ?_⟩
  · dsimp only
    split
    · rw [ne_eq, List.drop_eq_nil_iff]
      omega
    · exact hline
  · dsimp only
    split
    · exact List.drop_suffix pos line
    · exact List.suffix_refl line
  · dsimp only
    split
    · decide
    · rename_i hne
      rwa [List.isEmpty_iff] at hne
  · dsimp only
    split
    · exact .inl rfl
    · exact .inr hpiece

/-- A process tag without a blank in front of it. -/
theorem parseOne_inside_sshd :
    ∃ entry, Guarded.parseOne 0 (ascii "sshd[7]: x") = some entry ∧
      parseOne 0 (ascii "sshd[7]: x") = some entry ∧
      entry.message ≠ [] ∧ entry.message <:+ ascii "sshd[7]: x" ∧
      entry.module ≠ [] ∧
      (entry.module = ascii "unknown" ∨ entry.module <:+: ascii "sshd[7]: x") :=
  parseOne_inside 0 (by decide)

end SyslogCollector

end LogMind
