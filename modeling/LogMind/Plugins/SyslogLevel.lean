import LogMind.Plugins.SyslogCollector

/-!
# Level tokens and the guess

`parse_one` remembers a level token by the level alone, so a token that names `INFO`
looks like no token to the last stage, and the whole line is searched for the name of a
level after all.
-/

namespace LogMind

namespace SyslogCollector

/-- Where the stage of the level begins. -/
def afterTimestamp (line : Bytes) : Nat :=
  match timestampEnd line with
  | none => 0
  | some sep => skipSpaces line sep

/-- The level that each name stands for. -/
def levelNames : List (Bytes × LogLevel) :=
  [(ascii "DEBUG", .debug), (ascii "INFO", .info), (ascii "WARN", .warn),
    (ascii "WARNING", .warn), (ascii "ERROR", .error), (ascii "FATAL", .fatal)]

/-- At the position the line has a name in brackets, or a name that a blank follows. -/
inductive LevelToken (line : Bytes) (pos : Nat) (level : LogLevel) : Prop where
  | bracketed (name rest : Bytes) (text : line.drop pos = 91 :: name ++ 93 :: rest)
      (named : (toUpper name, level) ∈ levelNames)
  | bare (name rest : Bytes) (blank : UInt8) (text : line.drop pos = name ++ blank :: rest)
      (isBlank : isBlank blank = true) (isBare : toUpper name ∈ bareNames)
      (named : (toUpper name, level) ∈ levelNames)

/-- The level of a token and the position behind it, as the two stages find it. -/
def Recognises (line : Bytes) (pos : Nat) (level : LogLevel) (next : Nat) : Prop :=
  parseBracketedLevel line pos = some (some (level, next)) ∨
    parseBracketedLevel line pos = some none ∧
      parseBareLevel line pos = some (some (level, next))

theorem parseTimestamp_eq (line : Bytes) :
    parseTimestamp line = some (timestampFields line, afterTimestamp line) := by
  unfold parseTimestamp timestampFields afterTimestamp
  cases timestampEnd line with
  | none => rfl
  | some sep => simp [substr_of_le, Json.setMember]

theorem Recognises.parseLevel_eq {line : Bytes} {pos next : Nat} {level : LogLevel}
    (h : Recognises line pos level next) : parseLevel line pos = some (level, next) := by
  rcases h with hbracketed | ⟨hnone, hbare⟩
  · simp [parseLevel, hbracketed]
  · simp [parseLevel, hnone, hbare]

/-! ## Names -/

theorem length_of_bracketedName {name : Bytes} (h : toUpper name ∈ bracketedNames) :
    name.length ≤ 7 := by
  have hall : ∀ n ∈ bracketedNames, n.length ≤ 7 := by decide
  have hle := hall _ h
  rwa [toUpper, List.length_map] at hle

theorem bracketedNames_of_bare {name : Bytes} (h : name ∈ bareNames) : name ∈ bracketedNames := by
  have hall : ∀ n ∈ bareNames, n ∈ bracketedNames := by decide
  exact hall _ h

/-- Every byte of a name is a letter. -/
theorem isUpper_of_bracketedName {name : Bytes} (h : toUpper name ∈ bracketedNames) :
    ∀ c ∈ name, isUpper (toUpperByte c) = true := by
  intro c hc
  have hall : ∀ n ∈ bracketedNames, n.all isUpper = true := by decide
  exact List.all_eq_true.mp (hall _ h) _ (List.mem_map_of_mem hc)

/-- The level that `parse_bracketed_level` gives a name, `WARNING` included. -/
theorem ofString_bracketedName {name : Bytes} {level : LogLevel} :
    (name, level) ∈ levelNames ↔
      name ∈ bracketedNames ∧
        LogLevel.ofString (if name = ascii "WARNING" then ascii "WARN" else name) = level := by
  constructor
  · intro h
    have hall : ∀ n ∈ levelNames, n.1 ∈ bracketedNames ∧
        LogLevel.ofString (if n.1 = ascii "WARNING" then ascii "WARN" else n.1) = n.2 := by
      decide
    exact hall _ h
  · rintro ⟨hname, rfl⟩
    have hall : ∀ n ∈ bracketedNames,
        (n, LogLevel.ofString (if n = ascii "WARNING" then ascii "WARN" else n)) ∈ levelNames := by
      decide
    exact hall _ hname

theorem ofString_bareName {name : Bytes} {level : LogLevel} (h : name ∈ bareNames) :
    (name, level) ∈ levelNames ↔ LogLevel.ofString name = level := by
  have hne : ∀ n ∈ bareNames, n ≠ ascii "WARNING" := by decide
  rw [ofString_bracketedName, if_neg (hne _ h), and_iff_right (bracketedNames_of_bare h)]

/-! ## What is recognised -/

theorem ne_of_isUpper {c d : UInt8} (hc : isUpper (toUpperByte c) = true)
    (hd : isUpper (toUpperByte d) = false) : c ≠ d := by
  intro hcd
  rw [hcd, hd] at hc
  cases hc

/-- A name in brackets is read up to its closing bracket. -/
theorem parseBracketedLevel_of_text {line name rest : Bytes} {pos : Nat} {level : LogLevel}
    (text : line.drop pos = 91 :: name ++ 93 :: rest)
    (named : (toUpper name, level) ∈ levelNames) :
    parseBracketedLevel line pos = some (some (level, pos + name.length + 2)) := by
  obtain ⟨hname, hlevel⟩ := ofString_bracketedName.mp named
  have hopen : (line)[pos]? = some 91 := getElem?_of_drop text
  have hlt : pos < line.length := le_length_of_drop text
  have hclose : findByte line 93 pos = some (pos + (91 :: name).length) := by
    apply findFrom_of_append text
    · intro c hc
      rw [beq_eq_false_iff_ne]
      rcases List.mem_cons.mp hc with rfl | hmem
      · decide
      · exact ne_of_isUpper (isUpper_of_bracketedName hname c hmem) (by decide)
    · rfl
  have hinner : line.drop (pos + 1) = name ++ 93 :: rest := drop_of_append (a := [91]) text
  have hwidth : diff (pos + (91 :: name).length) pos = some (name.length + 1) := by
    rw [diff_of_le (Nat.le_add_right _ _), Nat.add_sub_cancel_left, List.length_cons]
  have hlength := length_of_bracketedName hname
  have hone : diff (name.length + 1) 1 = some name.length := by
    rw [diff_of_le (by omega), Nat.add_sub_cancel]
  unfold parseBracketedLevel
  rw [if_neg (not_not_intro hopen), hclose]
  simp only [hwidth, hone, substr_of_append hlt hinner, Option.bind_eq_bind, Option.bind_some]
  rw [if_neg (by omega), if_pos hname, hlevel]
  rfl

/-- A name without brackets is read up to the blank. -/
theorem parseBareLevel_of_text {line name rest : Bytes} {pos : Nat} {blank : UInt8}
    {level : LogLevel} (text : line.drop pos = name ++ blank :: rest)
    (hblank : isBlank blank = true) (hbare : toUpper name ∈ bareNames)
    (named : (toUpper name, level) ∈ levelNames) :
    parseBracketedLevel line pos = some none ∧
      parseBareLevel line pos = some (some (level, pos + name.length)) := by
  have hname := bracketedNames_of_bare hbare
  have hletters := isUpper_of_bracketedName hname
  have hopen : (line)[pos]? ≠ some 91 := by
    cases name with
    | nil => exact absurd hbare (by decide)
    | cons c name =>
        rw [getElem?_of_drop text, ne_eq, Option.some_inj]
        exact ne_of_isUpper (hletters c List.mem_cons_self) (by decide)
  have hpos : pos ≤ line.length := by
    by_contra hge
    rw [List.drop_eq_nil_of_le (by omega)] at text
    exact List.append_ne_nil_of_right_ne_nil _ (List.cons_ne_nil _ _) text.symm
  have hstop : findBlank line pos = some (pos + name.length) := by
    apply findFrom_of_append text _ hblank
    intro c hc
    rw [isBlank, Bool.or_eq_false_iff, beq_eq_false_iff_ne, beq_eq_false_iff_ne]
    exact ⟨ne_of_isUpper (hletters c hc) (by decide), ne_of_isUpper (hletters c hc) (by decide)⟩
  have hwidth : diff (pos + name.length) pos = some name.length := by
    rw [diff_of_le (Nat.le_add_right _ _), Nat.add_sub_cancel_left]
  have hlength := length_of_bracketedName hname
  constructor
  · exact if_pos hopen
  · unfold parseBareLevel
    rw [hstop]
    simp only [hwidth, substr_of_append hpos text, Option.bind_eq_bind, Option.bind_some]
    rw [if_neg (by omega), if_pos hbare, (ofString_bareName hbare).mp named]
    rfl

/-- Behind a token the level is settled. -/
theorem LevelToken.recognises {line : Bytes} {pos : Nat} {level : LogLevel}
    (h : LevelToken line pos level) : ∃ next, Recognises line pos level next := by
  cases h with
  | bracketed name rest text named =>
      exact ⟨_, Or.inl (parseBracketedLevel_of_text text named)⟩
  | bare name rest blank text isBlank isBare named =>
      exact ⟨_, Or.inr (parseBareLevel_of_text text isBlank isBare named)⟩

theorem bracketed_of_parse {line : Bytes} {pos next : Nat} {level : LogLevel}
    (h : parseBracketedLevel line pos = some (some (level, next))) :
    LevelToken line pos level := by
  unfold parseBracketedLevel at h
  by_cases hopen : (line)[pos]? = some 91
  · rw [if_neg (not_not_intro hopen)] at h
    cases hclose : findByte line 93 pos with
    | none =>
        rw [hclose] at h
        cases h
    | some close =>
        obtain ⟨a, c, rest, text, rfl, _, hc⟩ := findFrom_append hclose
        obtain rfl : c = 93 := by simpa using hc
        obtain ⟨inner, rfl⟩ : ∃ inner, a = 91 :: inner := by
          cases a with
          | nil =>
              rw [getElem?_of_drop text] at hopen
              cases hopen
          | cons d inner =>
              rw [getElem?_of_drop text, Option.some_inj] at hopen
              exact ⟨inner, by rw [hopen]⟩
        have hinner : line.drop (pos + 1) = inner ++ 93 :: rest := drop_of_append (a := [91]) text
        have hwidth : diff (pos + (91 :: inner).length) pos = some (inner.length + 1) := by
          rw [diff_of_le (Nat.le_add_right _ _), Nat.add_sub_cancel_left, List.length_cons]
        have hone : diff (inner.length + 1) 1 = some inner.length := by
          rw [diff_of_le (by omega), Nat.add_sub_cancel]
        rw [hclose] at h
        simp only [hwidth, hone, substr_of_append (le_length_of_drop text) hinner,
          Option.bind_eq_bind, Option.bind_some] at h
        split at h
        · cases h
        · split at h
          · rename_i hname
            obtain ⟨hlevel, _⟩ := Prod.mk.inj (Option.some.inj (Option.some.inj h))
            exact .bracketed inner rest text (ofString_bracketedName.mpr ⟨hname, hlevel⟩)
          · cases h
  · rw [if_pos hopen] at h
    cases h

theorem bare_of_parse {line : Bytes} {pos next : Nat} {level : LogLevel}
    (h : parseBareLevel line pos = some (some (level, next))) : LevelToken line pos level := by
  unfold parseBareLevel at h
  cases hstop : findBlank line pos with
  | none =>
      rw [hstop] at h
      cases h
  | some stop =>
      obtain ⟨hpos, hlt, _⟩ := findFrom_spec hstop
      obtain ⟨name, blank, rest, text, rfl, _, hblank⟩ := findFrom_append hstop
      have hwidth : diff (pos + name.length) pos = some name.length := by
        rw [diff_of_le hpos, Nat.add_sub_cancel_left]
      rw [hstop] at h
      simp only [hwidth, substr_of_append (show pos ≤ line.length by omega) text,
        Option.bind_eq_bind, Option.bind_some] at h
      split at h
      · cases h
      · split at h
        · rename_i hbare
          obtain ⟨hlevel, _⟩ := Prod.mk.inj (Option.some.inj (Option.some.inj h))
          exact .bare name rest blank text hblank hbare ((ofString_bareName hbare).mpr hlevel)
        · cases h

/-- The tokens that `parse_one` recognises are the names in brackets and the names with a
blank behind them. -/
theorem levelToken_iff_recognises {line : Bytes} {pos : Nat} {level : LogLevel} :
    LevelToken line pos level ↔ ∃ next, Recognises line pos level next := by
  constructor
  · exact LevelToken.recognises
  · rintro ⟨next, hbracketed | ⟨_, hbare⟩⟩
    · exact bracketed_of_parse hbracketed
    · exact bare_of_parse hbare

/-! ## The level of the entry -/

/-- The guess is `INFO` for a line without any of the words, and only for such a line. -/
theorem guessLevel_eq_info_iff (line : Bytes) :
    guessLevel line = .info ↔ ∀ probe ∈ probes, ¬ probe.1 <:+: toUpper line := by
  have hprobes : ∀ probe ∈ probes, probe.2 ≠ .info := by decide
  unfold guessLevel LogLevel.guess
  cases hfind : probes.find? fun probe => containsUpper line probe.1 with
  | none =>
      rw [List.find?_eq_none] at hfind
      refine iff_of_true rfl fun probe hprobe => ?_
      rw [← containsUpper_iff]
      exact hfind probe hprobe
  | some probe =>
      have hmem := List.mem_of_find?_eq_some hfind
      have hword := List.find?_some hfind
      refine iff_of_false (hprobes probe hmem) fun hnone => ?_
      exact hnone probe hmem ((containsUpper_iff line probe.1).mp hword)

/-- The last stage sees the level of the token and nothing else of it. -/
theorem Recognises.parseOne_level (now : Int) {line : Bytes} {level : LogLevel} {next : Nat}
    (h : Recognises line (afterTimestamp line) level next) :
    (parseOne now line).map LogEntry.level =
      some (if level = .info then guessLevel line else level) := by
  obtain ⟨bracketed, afterModule, hmodule⟩ := parseModule_total line (skipSpaces line next)
  obtain ⟨module, pos, hprocess⟩ := moduleOrProcess_total line bracketed afterModule
  obtain ⟨message, hmessage⟩ := message_total line pos
  unfold parseOne
  simp only [parseTimestamp_eq, h.parseLevel_eq, hmodule, hprocess, hmessage,
    Option.bind_eq_bind, Option.bind_some]
  rfl

/-- The level of a line with a level token is the one that the token names, except that
a line with the token `INFO` and one of the words somewhere gets the level of the word. -/
theorem parseOne_level_iff (now : Int) {line : Bytes} {level : LogLevel}
    (htoken : LevelToken line (afterTimestamp line) level) :
    (parseOne now line).map LogEntry.level = some level ↔
      (level = .info → ∀ probe ∈ probes, ¬ probe.1 <:+: toUpper line) := by
  obtain ⟨next, hnext⟩ := htoken.recognises
  rw [hnext.parseOne_level now, Option.some_inj]
  by_cases hinfo : level = .info
  · rw [if_pos hinfo, hinfo, guessLevel_eq_info_iff]
    exact ⟨fun h _ => h, fun h => h rfl⟩
  · rw [if_neg hinfo]
    exact iff_of_true rfl fun h => absurd h hinfo

/-- A bare `INFO` in front of a text without any of the words. -/
theorem parseOne_level_iff_started :
    (parseOne 0 (ascii "info service started")).map LogEntry.level = some .info ↔
      ((.info : LogLevel) = .info →
        ∀ probe ∈ probes, ¬ probe.1 <:+: toUpper (ascii "info service started")) :=
  parseOne_level_iff 0 (.bare (ascii "info") (ascii "service started") 32 rfl rfl (by decide)
    (by decide))

/-- The message of an `INFO` line speaks of an error. -/
theorem parseOne_level_no_error :
    LevelToken (ascii "[INFO] no error") (afterTimestamp (ascii "[INFO] no error")) .info ∧
      (parseOne 0 (ascii "[INFO] no error")).map LogEntry.level = some .error :=
  ⟨.bracketed (ascii "INFO") (ascii " no error") rfl (by decide), rfl⟩

end SyslogCollector

end LogMind
