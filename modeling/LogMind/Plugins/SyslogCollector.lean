import LogMind.Pipeline.Collectors

/-!
# The syslog collector

`parse_one` reads a line from the left: a timestamp, a level, a module, or an
RFC 3164 process tag, and takes the rest as the message. Each stage is a function
from a position to what it found and the position behind it. The result `none`
stands for an index outside the line or a difference that wraps.
-/

namespace LogMind

namespace SyslogCollector

/-- `starts_with_digits(s, pos, count)`. -/
def startsWithDigits (s : Bytes) (pos count : Nat) : Bool :=
  if s.length < pos + count then false else ((s.drop pos).take count).all isDigit

def skipSpaces (line : Bytes) (pos : Nat) : Nat :=
  pos + ((line.drop pos).takeWhile isBlank).length

/-- Where the timestamp at the start of the line ends, if there is one. -/
def timestampEnd (s : Bytes) : Option Nat :=
  if startsWithDigits s 0 4 ∧ 10 < s.length ∧ s[4]? = some 45 then findBlank s 10
  else none

/-- The timestamp text goes into the fields of the entry as it stands in the line. -/
def parseTimestamp (line : Bytes) : Option (Json × Nat) :=
  match timestampEnd line with
  | none => some (.null, 0)
  | some sep => do
      let text ← substr line 0 sep
      let fields ← Json.setMember .null (ascii "timestamp_text") (.string text)
      return (fields, skipSpaces line sep)

/-- The names a bracketed level may have. -/
def bracketedNames : List Bytes :=
  [ascii "DEBUG", ascii "INFO", ascii "WARN", ascii "WARNING", ascii "ERROR", ascii "FATAL"]

/-- The names a bare level may have. -/
def bareNames : List Bytes :=
  [ascii "DEBUG", ascii "INFO", ascii "WARN", ascii "ERROR", ascii "FATAL"]

/-- `parse_bracketed_level`: the level and the position behind the bracket. -/
def parseBracketedLevel (s : Bytes) (pos : Nat) : Option (Option (LogLevel × Nat)) :=
  if s[pos]? ≠ some 91 then some none
  else
    match findByte s 93 pos with
    | none => some none
    | some close => do
        let width ← diff close pos
        if 8 < width then return none
        let inner ← diff width 1
        let token := toUpper (← substr s (pos + 1) inner)
        if token ∈ bracketedNames then
          let name := if token = ascii "WARNING" then ascii "WARN" else token
          return some (LogLevel.ofString name, close + 1)
        return none

/-- A level name that is followed by a blank. -/
def parseBareLevel (line : Bytes) (pos : Nat) : Option (Option (LogLevel × Nat)) :=
  match findBlank line pos with
  | none => some none
  | some stop => do
      let width ← diff stop pos
      if 8 < width then return none
      let token := toUpper (← substr line pos width)
      if token ∈ bareNames then return some (LogLevel.ofString token, stop)
      return none

/-- The level token, bracketed or bare; without one the level stays `INFO`. -/
def parseLevel (line : Bytes) (pos : Nat) : Option (LogLevel × Nat) := do
  match ← parseBracketedLevel line pos with
  | some found => return found
  | none =>
      match ← parseBareLevel line pos with
      | some found => return found
      | none => return (.info, pos)

/-- A module in brackets. -/
def parseModule (s : Bytes) (pos : Nat) : Option (Bytes × Nat) :=
  if s[pos]? ≠ some 91 then some ([], pos)
  else
    match findByte s 93 pos with
    | none => some ([], pos)
    | some close => do
        let width ← diff close pos
        if 64 < width then return ([], pos)
        let inner ← diff width 1
        let name ← substr s (pos + 1) inner
        return (name, skipSpaces s (close + 1))

/-- RFC 3164: `host proc[123]: message` names the process as the module. -/
def parseProcess (line : Bytes) (pos : Nat) : Option (Bytes × Nat) :=
  match findByte line 91 pos, findByte line 58 pos with
  | some bracket, some colon =>
      if bracket < colon then do
        let width ← diff colon bracket
        if 16 < width then return ([], pos)
        let start := match rfindByte line 32 bracket with
          | none => pos
          | some space => space + 1
        let length ← diff bracket start
        let name ← substr line start length
        return (name, skipSpaces line (colon + 1))
      else some ([], pos)
  | _, _ => some ([], pos)

/-- The words `guess_level` looks for, in its order. -/
def probes : List (Bytes × LogLevel) :=
  [(ascii "FATAL", .fatal), (ascii "PANIC", .fatal), (ascii "ERROR", .error),
    (ascii "WARN", .warn), (ascii "DEBUG", .debug), (ascii "TRACE", .debug)]

def guessLevel (line : Bytes) : LogLevel := LogLevel.guess probes line

def parseOne (now : Int) (line : Bytes) : Option LogEntry := do
  let (fields, afterTimestamp) ← parseTimestamp line
  let (level, afterLevel) ← parseLevel line afterTimestamp
  let (bracketed, afterModule) ← parseModule line (skipSpaces line afterLevel)
  let (module, pos) ←
    (if bracketed.isEmpty then parseProcess line afterModule else some (bracketed, afterModule))
  let message ← (if pos < line.length then substr line pos line.length else some line)
  return {
    raw := line
    timestamp := now
    level := if level = .info then guessLevel line else level
    message := message
    module := if module.isEmpty then ascii "unknown" else module
    fields := fields }

def parseLine (now : Int) (line : Bytes) : Option ParseResult :=
  if line.isEmpty then some { linesRead := 1, linesSkipped := 1 }
  else (parseOne now line).map fun entry => { entries := [entry], linesRead := 1, linesParsed := 1 }

/-- `match(filename)`. -/
def matchScore (filename : Bytes) : Int :=
  if contains filename (ascii "syslog") || contains filename (ascii "messages") then 100
  else if (ascii ".log").isSuffixOf filename then 60
  else 0

end SyslogCollector

def syslogCollector : Collector where
  name := ascii "syslog-collector"
  matchScore := SyslogCollector.matchScore
  parseLine := SyslogCollector.parseLine

namespace SyslogCollector

/-- The fields a line gets: the timestamp text, byte for byte. -/
def timestampFields (line : Bytes) : Json :=
  match timestampEnd line with
  | none => .null
  | some sep => .object [(ascii "timestamp_text", .string (line.take sep))]

theorem findByte_spec {s : Bytes} {c : UInt8} {pos i : Nat} (h : findByte s c pos = some i) :
    pos ≤ i ∧ i < s.length ∧ s[i]? = some c := by
  obtain ⟨hpos, hlt, hbyte⟩ := findFrom_spec h
  refine ⟨hpos, hlt, ?_⟩
  rw [List.getElem?_eq_getElem hlt] at hbyte ⊢
  simpa using hbyte

/-- Two positions of one line with different bytes are different. -/
theorem ne_of_bytes {s : Bytes} {i j : Nat} {c d : UInt8} (hi : s[i]? = some c)
    (hj : s[j]? = some d) (hcd : c ≠ d) : i ≠ j := by
  intro hij
  rw [hij, hj] at hi
  exact hcd (Option.some.inj hi).symm

theorem parseTimestamp_total (line : Bytes) :
    ∃ pos, parseTimestamp line = some (timestampFields line, pos) := by
  unfold parseTimestamp timestampFields
  cases timestampEnd line with
  | none => exact ⟨0, rfl⟩
  | some sep =>
      refine ⟨skipSpaces line sep, ?_⟩
      simp [substr_of_le, Json.setMember]

/-- A closing bracket behind an opening one leaves room for the text between them. -/
theorem bracket_text {s : Bytes} {pos close : Nat} (hopen : s[pos]? = some 91)
    (hclose : findByte s 93 pos = some close) :
    ∃ width inner text, diff close pos = some width ∧ diff width 1 = some inner ∧
      substr s (pos + 1) inner = some text := by
  obtain ⟨hpos, hlt, hbyte⟩ := findByte_spec hclose
  have hne : pos ≠ close := ne_of_bytes hopen hbyte (by decide)
  exact ⟨_, _, _, diff_of_le hpos, diff_of_le (by omega), substr_of_le (by omega) _⟩

theorem parseBracketedLevel_total (s : Bytes) (pos : Nat) :
    ∃ found, parseBracketedLevel s pos = some found := by
  unfold parseBracketedLevel
  by_cases hopen : s[pos]? = some 91
  · rw [if_neg (not_not_intro hopen)]
    cases hclose : findByte s 93 pos with
    | none => exact ⟨none, rfl⟩
    | some close =>
        obtain ⟨width, inner, text, hwidth, hinner, htext⟩ := bracket_text hopen hclose
        simp only [hwidth, hinner, htext, Option.bind_eq_bind, Option.bind_some]
        split
        · exact ⟨none, rfl⟩
        · split
          · exact ⟨_, rfl⟩
          · exact ⟨none, rfl⟩
  · exact ⟨none, if_pos hopen⟩

theorem parseBareLevel_total (line : Bytes) (pos : Nat) :
    ∃ found, parseBareLevel line pos = some found := by
  unfold parseBareLevel
  cases hstop : findBlank line pos with
  | none => exact ⟨none, rfl⟩
  | some stop =>
      obtain ⟨hpos, hlt, _⟩ := findFrom_spec hstop
      simp only [diff_of_le hpos, substr_of_le (show pos ≤ line.length by omega),
        Option.bind_eq_bind, Option.bind_some]
      split
      · exact ⟨none, rfl⟩
      · split
        · exact ⟨_, rfl⟩
        · exact ⟨none, rfl⟩

theorem parseLevel_total (line : Bytes) (pos : Nat) :
    ∃ level next, parseLevel line pos = some (level, next) := by
  obtain ⟨bracketed, hbracketed⟩ := parseBracketedLevel_total line pos
  obtain ⟨bare, hbare⟩ := parseBareLevel_total line pos
  unfold parseLevel
  rw [hbracketed, hbare]
  cases bracketed with
  | some found => exact ⟨found.1, found.2, rfl⟩
  | none =>
      cases bare with
      | some found => exact ⟨found.1, found.2, rfl⟩
      | none => exact ⟨.info, pos, rfl⟩

theorem parseModule_total (s : Bytes) (pos : Nat) :
    ∃ name next, parseModule s pos = some (name, next) := by
  unfold parseModule
  by_cases hopen : s[pos]? = some 91
  · rw [if_neg (not_not_intro hopen)]
    cases hclose : findByte s 93 pos with
    | none => exact ⟨[], pos, rfl⟩
    | some close =>
        obtain ⟨width, inner, text, hwidth, hinner, htext⟩ := bracket_text hopen hclose
        simp only [hwidth, hinner, htext, Option.bind_eq_bind, Option.bind_some]
        split
        · exact ⟨[], pos, rfl⟩
        · exact ⟨text, _, rfl⟩
  · exact ⟨[], pos, if_pos hopen⟩

/-- The name of a process starts at or in front of its bracket. -/
theorem process_start {line : Bytes} {pos bracket : Nat}
    (hbracket : findByte line 91 pos = some bracket) :
    (match rfindByte line 32 bracket with
      | none => pos
      | some space => space + 1) ≤ bracket := by
  obtain ⟨hpos, -, hbyte⟩ := findByte_spec hbracket
  cases hspace : rfindByte line 32 bracket with
  | none => exact hpos
  | some space =>
      obtain ⟨hle, hblank⟩ := rfindByte_spec hspace
      have hne : space ≠ bracket := ne_of_bytes hblank hbyte (by decide)
      show space + 1 ≤ bracket
      omega

theorem parseProcess_total (line : Bytes) (pos : Nat) :
    ∃ name next, parseProcess line pos = some (name, next) := by
  unfold parseProcess
  cases hbracket : findByte line 91 pos with
  | none => exact ⟨[], pos, rfl⟩
  | some bracket =>
      cases hcolon : findByte line 58 pos with
      | none => exact ⟨[], pos, rfl⟩
      | some colon =>
          obtain ⟨hpos, hlt, hbyte⟩ := findByte_spec hbracket
          dsimp only
          split
          · rename_i hbefore
            rw [diff_of_le (Nat.le_of_lt hbefore)]
            simp only [Option.bind_eq_bind, Option.bind_some]
            split
            · exact ⟨[], pos, rfl⟩
            · have hstart := process_start hbracket
              rw [diff_of_le hstart, Option.bind_some, substr_of_le (by omega), Option.bind_some]
              exact ⟨_, _, rfl⟩
          · exact ⟨[], pos, rfl⟩

theorem moduleOrProcess_total (line bracketed : Bytes) (afterModule : Nat) :
    ∃ module pos, (if bracketed.isEmpty then parseProcess line afterModule
      else some (bracketed, afterModule)) = some (module, pos) := by
  split
  · exact parseProcess_total line afterModule
  · exact ⟨bracketed, afterModule, rfl⟩

theorem message_total (line : Bytes) (pos : Nat) :
    ∃ message, (if pos < line.length then substr line pos line.length else some line) =
      some message := by
  split
  · exact ⟨_, substr_of_le (by omega) _⟩
  · exact ⟨line, rfl⟩

/-- Every line parses, and its bytes reach the JSON members in the timestamp only. -/
theorem parseOne_total (now : Int) (line : Bytes) :
    ∃ entry, parseOne now line = some entry ∧ entry.raw = line ∧
      entry.fields = timestampFields line ∧ entry.tags = .null ∧ entry.metaJson = .null := by
  obtain ⟨afterTimestamp, htimestamp⟩ := parseTimestamp_total line
  obtain ⟨level, afterLevel, hlevel⟩ := parseLevel_total line afterTimestamp
  obtain ⟨bracketed, afterModule, hmodule⟩ :=
    parseModule_total line (skipSpaces line afterLevel)
  obtain ⟨module, pos, hprocess⟩ := moduleOrProcess_total line bracketed afterModule
  obtain ⟨message, hmessage⟩ := message_total line pos
  unfold parseOne
  simp only [htimestamp, hlevel, hmodule, hprocess, hmessage, Option.bind_eq_bind,
    Option.bind_some]
  exact ⟨_, rfl, rfl, rfl, rfl, rfl⟩

end SyslogCollector

end LogMind
