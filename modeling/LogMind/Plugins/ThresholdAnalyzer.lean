import LogMind.Core.LogEntry
import Mathlib.Data.List.AList

/-!
# The threshold analyzer

It counts the errors of a module in a sliding window and marks an entry that
reaches the threshold. Only the fields of an entry change, and only by values
that are no strings.
-/

namespace LogMind

structure ThresholdAnalyzer where
  windowSeconds : Int := 60
  threshold : Nat := 5
  dropDebug : Bool := false
  /-- The times of the recent errors of a module, oldest first. -/
  history : AList (fun _ : Bytes => List Int) := ∅

namespace ThresholdAnalyzer

/-- The times that are still in the window of the one just pushed, by a difference of points in
time that wraps in 64 bits. -/
def slide (windowSeconds : Int) (times : List Int) (now : Int) : List Int :=
  (times ++ [now]).dropWhile fun t =>
    decide (windowSeconds * 1000000000 < (now - t).bmod wordBound)

def recordAndCount (a : ThresholdAnalyzer) (module : Bytes) (now : Int) :
    ThresholdAnalyzer × Nat :=
  let times := slide a.windowSeconds ((a.history.lookup module).getD []) now
  ({ a with history := a.history.insert module times }, times.length)

/-- The three fields of an entry that reaches the threshold. -/
def markBurst (windowSeconds : Int) (count : Nat) (fields : Json) : Option Json := do
  let fields ← fields.setMember (ascii "burst") (.bool true)
  let fields ← fields.setMember (ascii "burst_count") (.number count)
  fields.setMember (ascii "burst_window") (.number windowSeconds)

/-- One turn of the loop: the entries to push, or `none` when a field cannot be
set, and the analyzer with what it recorded before. -/
def analyzeOne (a : ThresholdAnalyzer) (entry : LogEntry) :
    Option (List LogEntry) × ThresholdAnalyzer :=
  if a.dropDebug = true ∧ entry.level = .debug then (some [], a)
  else if LogLevel.error.code ≤ entry.level.code then
    let (a, count) := a.recordAndCount entry.module entry.timestamp
    if a.threshold ≤ count then
      ((markBurst a.windowSeconds count entry.fields).map fun fields =>
        [{ entry with fields := fields }], a)
    else (some [entry], a)
  else (some [entry], a)

/-- `analyze`; `none` is an exception out of the loop. -/
def analyze (a : ThresholdAnalyzer) : List LogEntry → Option (List LogEntry) × ThresholdAnalyzer
  | [] => (some [], a)
  | entry :: entries =>
      match a.analyzeOne entry with
      | (none, a) => (none, a)
      | (some out, a) =>
          let (rest, a) := a.analyze entries
          (rest.map fun rest => out ++ rest, a)

/-- Fields that take the marks as new members. -/
def TakesMarks (fields : Json) : Prop :=
  ∃ members, fields.members = some members ∧
    ∀ m ∈ members, m.1 ≠ ascii "burst" ∧ m.1 ≠ ascii "burst_count" ∧ m.1 ≠ ascii "burst_window"

/-- Fields that are as valid as those before and agree with them but for the marks. -/
def SameButMarks (fields before : Json) : Prop :=
  fields.valid = before.valid ∧
    ∀ key, key ≠ ascii "burst" → key ≠ ascii "burst_count" → key ≠ ascii "burst_window" →
      fields.find key = before.find key

theorem valid_marks :
    validUtf8 (ascii "burst") = true ∧ validUtf8 (ascii "burst_count") = true ∧
      validUtf8 (ascii "burst_window") = true := by decide

theorem marks_distinct :
    ascii "burst" ≠ ascii "burst_count" ∧ ascii "burst" ≠ ascii "burst_window" ∧
      ascii "burst_count" ≠ ascii "burst_window" := by decide

/-- The members of marked fields. -/
def markedMembers (windowSeconds : Int) (count : Nat) (members : List (Bytes × Json)) :
    List (Bytes × Json) :=
  Json.insertMember (ascii "burst_window") (.number windowSeconds)
    (Json.insertMember (ascii "burst_count") (.number count)
      (Json.insertMember (ascii "burst") (.bool true) members))

theorem markBurst_of_members (windowSeconds : Int) (count : Nat) {fields : Json}
    {members : List (Bytes × Json)} (h : fields.members = some members) :
    markBurst windowSeconds count fields =
      some (.object (markedMembers windowSeconds count members)) := by
  rw [markBurst, Json.setMember_of_members h]
  rfl

/-- The marks can be set, and change nothing else. -/
theorem markBurst_spec (windowSeconds : Int) (count : Nat) {fields : Json}
    (h : TakesMarks fields) :
    ∃ marked, markBurst windowSeconds count fields = some marked ∧
      SameButMarks marked fields := by
  obtain ⟨hburst, hcount, hwindow⟩ := valid_marks
  obtain ⟨hne_count, hne_window, hne_last⟩ := marks_distinct
  obtain ⟨members, hmembers, hkeys⟩ := h
  have hkeys_count : ∀ m ∈ Json.insertMember (ascii "burst") (.bool true) members,
      m.1 ≠ ascii "burst_count" ∧ m.1 ≠ ascii "burst_window" := by
    intro m hm
    rcases Json.mem_insertMember hm with rfl | hm
    · exact ⟨hne_count, hne_window⟩
    · exact (hkeys m hm).2
  have hkeys_window : ∀ m ∈ Json.insertMember (ascii "burst_count") (.number count)
      (Json.insertMember (ascii "burst") (.bool true) members), m.1 ≠ ascii "burst_window" := by
    intro m hm
    rcases Json.mem_insertMember hm with rfl | hm
    · exact hne_last
    · exact (hkeys_count m hm).2
  refine ⟨.object (markedMembers windowSeconds count members),
    markBurst_of_members windowSeconds count hmembers, ?_, ?_⟩
  · rw [Json.valid, markedMembers, Json.validMembers_insertMember _ hkeys_window,
      Json.validMembers_insertMember _ fun m hm => (hkeys_count m hm).1,
      Json.validMembers_insertMember _ fun m hm => (hkeys m hm).1,
      hburst, hcount, hwindow, Json.valid_of_members hmembers]
    simp [Json.valid]
  · intro key hb hc hw
    rw [Json.find_of_members rfl, markedMembers, Json.find?_insertMember_ne _ _ hw,
      Json.find?_insertMember_ne _ _ hc, Json.find?_insertMember_ne _ _ hb,
      Json.find_of_members hmembers]

/-- The marks that are found in marked fields. -/
theorem find_markBurst (windowSeconds : Int) (count : Nat) {fields marked : Json}
    (h : markBurst windowSeconds count fields = some marked)
    (hfields : TakesMarks fields) :
    marked.find (ascii "burst") = some (.bool true) ∧
      marked.find (ascii "burst_count") = some (.number count) ∧
      marked.find (ascii "burst_window") = some (.number windowSeconds) := by
  obtain ⟨hne_count, hne_window, hne_last⟩ := marks_distinct
  obtain ⟨members, hmembers, -⟩ := hfields
  rw [markBurst_of_members windowSeconds count hmembers] at h
  obtain rfl := Option.some.inj h
  refine ⟨?_, ?_, ?_⟩
  · rw [Json.find_of_members rfl, markedMembers, Json.find?_insertMember_ne _ _ hne_window,
      Json.find?_insertMember_ne _ _ hne_count, Json.find?_insertMember_self]
    rfl
  · rw [Json.find_of_members rfl, markedMembers, Json.find?_insertMember_ne _ _ hne_last,
      Json.find?_insertMember_self]
    rfl
  · rw [Json.find_of_members rfl, markedMembers, Json.find?_insertMember_self]
    rfl

/-- There are no marks to be found in fields that take them. -/
theorem TakesMarks.find_burst {fields : Json} (h : TakesMarks fields) :
    fields.find (ascii "burst") = none := by
  obtain ⟨members, hmembers, hkeys⟩ := h
  rw [Json.find_of_members hmembers, List.find?_eq_none.mpr]
  · rfl
  · intro m hm
    simpa using (hkeys m hm).1

/-- A batch of one entry that takes the marks is dropped as a debug entry, or passes
with the same fields but for the marks. -/
theorem analyze_singleton (a : ThresholdAnalyzer) {entry : LogEntry}
    (h : TakesMarks entry.fields) :
    (a.dropDebug = true ∧ entry.level = .debug → (a.analyze [entry]).1 = some []) ∧
      (¬ (a.dropDebug = true ∧ entry.level = .debug) →
        ∃ fields, (a.analyze [entry]).1 = some [{ entry with fields := fields }] ∧
          SameButMarks fields entry.fields) := by
  have hsame : SameButMarks entry.fields entry.fields := ⟨rfl, fun _ _ _ _ => rfl⟩
  constructor
  · intro hdrop
    simp [analyze, analyzeOne, hdrop]
  · intro hdrop
    by_cases herror : LogLevel.error.code ≤ entry.level.code
    · cases hrecord : a.recordAndCount entry.module entry.timestamp with
      | mk counted count =>
          by_cases hcount : counted.threshold ≤ count
          · obtain ⟨marked, hmark, hmarked⟩ := markBurst_spec counted.windowSeconds count h
            exact ⟨marked,
              by simp [analyze, analyzeOne, hdrop, herror, hrecord, hcount, hmark], hmarked⟩
          · exact ⟨entry.fields,
              by simp [analyze, analyzeOne, hdrop, herror, hrecord, hcount], hsame⟩
    · exact ⟨entry.fields, by simp [analyze, analyzeOne, hdrop, herror], hsame⟩

end ThresholdAnalyzer

end LogMind
