import LogMind.Plugins.ThresholdAnalyzer
import LogMind.Library.SlidingWindow
import Mathlib.Algebra.Order.Group.Unbundled.Int

/-!
# Bursts and the window they are counted in

The count that decides on a burst comes from a queue for each module, which is pruned at its
front only. While the errors of a module do not go back in time and no difference of their times
overflows, it is the number of those within the window among all that have been seen, in this
batch and the ones before it.
-/

namespace LogMind

namespace ThresholdAnalyzer

/-- `on_load`, with the values it reads from the configuration. -/
def onLoad (a : ThresholdAnalyzer) (windowSeconds : Int) (threshold : Nat) (dropDebug : Bool) :
    ThresholdAnalyzer :=
  { a with windowSeconds := windowSeconds, threshold := threshold, dropDebug := dropDebug }

/-- The analyzer behind the calls of `analyze` with some batches. -/
def after (a : ThresholdAnalyzer) (batches : List (List LogEntry)) : ThresholdAnalyzer :=
  batches.foldl (fun a batch => (a.analyze batch).2) a

/-- `ERROR` and above. -/
def IsError (entry : LogEntry) : Prop := LogLevel.error.code ≤ entry.level.code

instance (entry : LogEntry) : Decidable (IsError entry) := inferInstanceAs (Decidable (_ ≤ _))

/-- The entry is filtered out. -/
def Dropped (dropDebug : Bool) (entry : LogEntry) : Prop :=
  dropDebug = true ∧ entry.level = .debug

instance (dropDebug : Bool) (entry : LogEntry) : Decidable (Dropped dropDebug entry) :=
  inferInstanceAs (Decidable (_ ∧ _))

/-- The errors of a module do not go back in time. -/
def Forward (entries : List LogEntry) : Prop :=
  entries.Pairwise fun past entry =>
    past.module = entry.module → IsError past → IsError entry → past.timestamp ≤ entry.timestamp

/-- The errors of the module of an entry within the window of it, among those before it and
the entry itself. -/
def burstCount (windowSeconds : Int) (before : List LogEntry) (entry : LogEntry) : Nat :=
  (before ++ [entry]).countP fun past =>
    decide (past.module = entry.module ∧ IsError past ∧
      |entry.timestamp - past.timestamp| ≤ windowSeconds * 1000000000)

/-- The entry is part of a burst. -/
def Bursts (windowSeconds : Int) (threshold : Nat) (before : List LogEntry) (entry : LogEntry) :
    Prop :=
  IsError entry ∧ threshold ≤ burstCount windowSeconds before entry

/-- What becomes of an entry that comes behind others. -/
structure Judged (windowSeconds : Int) (threshold : Nat) (before : List LogEntry)
    (entry out : LogEntry) : Prop where
  same : out = { entry with fields := out.fields }
  marks_only : SameButMarks out.fields entry.fields
  flagged : out.fields.find (ascii "burst") = some (.bool true) ↔
    Bursts windowSeconds threshold before entry
  count : Bursts windowSeconds threshold before entry →
    out.fields.find (ascii "burst_count") = some (.number (burstCount windowSeconds before entry))
  untouched : ¬ Bursts windowSeconds threshold before entry → out = entry

/-- The entries of a batch, each with all that have come before it. -/
def behind (before : List LogEntry) : List LogEntry → List (List LogEntry × LogEntry)
  | [] => []
  | entry :: entries => (before, entry) :: behind (before ++ [entry]) entries

theorem behind_append (before xs ys : List LogEntry) :
    behind before (xs ++ ys) = behind before xs ++ behind (before ++ xs) ys := by
  induction xs generalizing before with
  | nil => rw [List.append_nil]; rfl
  | cons entry xs ih =>
      rw [List.cons_append, behind, ih, behind, List.append_assoc]
      rfl

/-- A time has left the window of another one. -/
def expired (windowSeconds now t : Int) : Bool :=
  decide (windowSeconds * 1000000000 < now - t)

theorem expired_expiry (windowSeconds : Int) : SlidingWindow.Expiry (expired windowSeconds) := by
  constructor
  · intro past now t hle h
    rw [expired, decide_eq_true_eq] at h ⊢
    omega
  · intro now s t hle h
    rw [expired, decide_eq_true_eq] at h ⊢
    omega

/-- The times of the errors of a module. -/
def errorTimes (module : Bytes) (entries : List LogEntry) : List Int :=
  (entries.filter fun entry => decide (entry.module = module ∧ IsError entry)).map
    LogEntry.timestamp

theorem errorTimes_append (module : Bytes) (before rest : List LogEntry) :
    errorTimes module (before ++ rest) = errorTimes module before ++ errorTimes module rest := by
  rw [errorTimes, List.filter_append, List.map_append]
  rfl

theorem errorTimes_of_error {module : Bytes} {entry : LogEntry} (hmodule : entry.module = module)
    (herror : IsError entry) : errorTimes module [entry] = [entry.timestamp] := by
  rw [errorTimes, List.filter_cons_of_pos (by simp [hmodule, herror])]
  rfl

theorem errorTimes_of_other {module : Bytes} {entry : LogEntry}
    (h : entry.module = module → ¬ IsError entry) : errorTimes module [entry] = [] := by
  rw [errorTimes, List.filter_cons_of_neg (by simpa using h)]
  rfl

/-- An error comes less than `2 ^ 63` nanoseconds behind those of its module that are still
within the window of all the others before it. -/
def Near (windowSeconds : Int) (before : List LogEntry) (entry : LogEntry) : Prop :=
  IsError entry → ∀ t ∈ errorTimes entry.module before,
    (∀ past ∈ errorTimes entry.module before, past - t ≤ windowSeconds * 1000000000) →
      entry.timestamp - t < 9223372036854775808

instance (windowSeconds : Int) (before : List LogEntry) (entry : LogEntry) :
    Decidable (Near windowSeconds before entry) :=
  inferInstanceAs (Decidable (IsError entry → ∀ t ∈ errorTimes entry.module before,
    (∀ past ∈ errorTimes entry.module before, _) → _))

theorem Forward.errorTimes_sorted {entries : List LogEntry} (h : Forward entries)
    (module : Bytes) : (errorTimes module entries).Pairwise (· ≤ ·) := by
  rw [errorTimes, List.pairwise_map, List.pairwise_filter]
  refine h.imp fun {past entry} hle hpast hentry => ?_
  rw [decide_eq_true_eq] at hpast hentry
  exact hle (hpast.1.trans hentry.1.symm) hpast.2 hentry.2

/-- No error of the module is later than the last one. -/
theorem Forward.le_last {seen : List LogEntry} {entry past : LogEntry}
    (h : Forward (seen ++ [entry])) (herror : IsError entry) (hpast : past ∈ seen ++ [entry])
    (hmodule : past.module = entry.module) (hpastError : IsError past) :
    past.timestamp ≤ entry.timestamp := by
  rcases List.mem_append.mp hpast with hseen | hlast
  · exact (List.pairwise_append.mp h).2.2 past hseen entry List.mem_cons_self hmodule hpastError
      herror
  · rw [List.mem_singleton.mp hlast]

/-- The count is one of times: those of the module that have not expired. -/
theorem burstCount_eq {seen : List LogEntry} {entry : LogEntry} (windowSeconds : Int)
    (hforward : Forward (seen ++ [entry])) (herror : IsError entry) :
    burstCount windowSeconds seen entry =
      ((errorTimes entry.module (seen ++ [entry])).filter
        fun t => !expired windowSeconds entry.timestamp t).length := by
  rw [burstCount, ← List.countP_eq_length_filter, errorTimes, List.countP_map, List.countP_filter]
  apply List.countP_congr
  intro past hpast
  rw [decide_eq_true_eq, Function.comp_apply, Bool.and_eq_true, Bool.not_eq_true', expired,
    decide_eq_false_iff_not, decide_eq_true_eq, not_lt]
  constructor
  · rintro ⟨hmodule, hpastError, hwithin⟩
    exact ⟨(le_abs_self _).trans hwithin, hmodule, hpastError⟩
  · rintro ⟨hwithin, hmodule, hpastError⟩
    have hle := hforward.le_last herror hpast hmodule hpastError
    exact ⟨hmodule, hpastError, by rwa [abs_of_nonneg (sub_nonneg.mpr hle)]⟩

/-! ## The queues -/

/-- An analyzer with a configuration, and in the queue of each module what holds its times. -/
structure Tracking (windowSeconds : Int) (threshold : Nat) (dropDebug : Bool)
    (seen : List LogEntry) (a : ThresholdAnalyzer) : Prop where
  window_eq : a.windowSeconds = windowSeconds
  threshold_eq : a.threshold = threshold
  dropDebug_eq : a.dropDebug = dropDebug
  holds : ∀ module, SlidingWindow.Holds (expired windowSeconds)
    ((a.history.lookup module).getD []) (errorTimes module seen)
  fresh : ∀ module, ∀ t ∈ (a.history.lookup module).getD [], ∀ past ∈ errorTimes module seen,
    expired windowSeconds past t = false

section Analyze

variable {windowSeconds : Int} {threshold : Nat} {dropDebug : Bool} {seen : List LogEntry}
  {a : ThresholdAnalyzer} {entry : LogEntry}

/-- An entry that is no error is not counted for any module. -/
theorem Tracking.pass (h : Tracking windowSeconds threshold dropDebug seen a)
    (herror : ¬ IsError entry) :
    Tracking windowSeconds threshold dropDebug (seen ++ [entry]) a := by
  refine ⟨h.window_eq, h.threshold_eq, h.dropDebug_eq, fun module => ?_, fun module => ?_⟩
  · rw [errorTimes_append, errorTimes_of_other fun _ => herror, List.append_nil]
    exact h.holds module
  · rw [errorTimes_append, errorTimes_of_other fun _ => herror, List.append_nil]
    exact h.fresh module

theorem errorTimes_concat (herror : IsError entry) :
    errorTimes entry.module (seen ++ [entry]) =
      errorTimes entry.module seen ++ [entry.timestamp] := by
  rw [errorTimes_append, errorTimes_of_error rfl herror]

/-- Of the times in the queue of a module an error is less than `2 ^ 63` nanoseconds away, so
none of the differences wraps. -/
theorem Tracking.slide_eq (h : Tracking windowSeconds threshold dropDebug seen a)
    (hforward : Forward (seen ++ [entry])) (hnear : Near windowSeconds seen entry)
    (herror : IsError entry) :
    slide a.windowSeconds ((a.history.lookup entry.module).getD []) entry.timestamp =
      SlidingWindow.slide (expired windowSeconds) ((a.history.lookup entry.module).getD [])
        entry.timestamp := by
  have hsorted := hforward.errorTimes_sorted entry.module
  rw [errorTimes_concat herror] at hsorted
  rw [h.window_eq]
  refine SlidingWindow.dropWhile_congr fun t ht => ?_
  have hdifference : 0 ≤ entry.timestamp - t ∧ entry.timestamp - t < 9223372036854775808 := by
    rcases List.mem_append.mp ht with ht | ht
    · have hmem := (h.holds entry.module).mem ht
      refine ⟨sub_nonneg.mpr ((List.pairwise_append.mp hsorted).2.2 t hmem _ List.mem_cons_self),
        hnear herror t hmem fun past hpast => ?_⟩
      exact not_lt.mp (of_decide_eq_false (h.fresh entry.module t ht past hpast))
    · rw [List.mem_singleton.mp ht]
      omega
  have hexact : (entry.timestamp - t).bmod wordBound = entry.timestamp - t := by
    apply Int.bmod_eq_of_le <;>
      · unfold wordBound
        omega
  rw [expired, hexact]

/-- The queue of its module behind an error. -/
theorem Tracking.lookup_record (h : Tracking windowSeconds threshold dropDebug seen a)
    (hforward : Forward (seen ++ [entry])) (hnear : Near windowSeconds seen entry)
    (herror : IsError entry) :
    ((a.recordAndCount entry.module entry.timestamp).1.history.lookup entry.module).getD [] =
      SlidingWindow.slide (expired windowSeconds) ((a.history.lookup entry.module).getD [])
        entry.timestamp := by
  have hlookup : (a.recordAndCount entry.module entry.timestamp).1.history.lookup entry.module =
      some (slide a.windowSeconds ((a.history.lookup entry.module).getD []) entry.timestamp) :=
    AList.lookup_insert _
  rw [hlookup]
  exact h.slide_eq hforward hnear herror

/-- An error goes into the queue of its module. -/
theorem Tracking.record (h : Tracking windowSeconds threshold dropDebug seen a)
    (hforward : Forward (seen ++ [entry])) (hnear : Near windowSeconds seen entry)
    (herror : IsError entry) :
    Tracking windowSeconds threshold dropDebug (seen ++ [entry])
      (a.recordAndCount entry.module entry.timestamp).1 := by
  have hother : ∀ {module}, entry.module ≠ module →
      (a.recordAndCount entry.module entry.timestamp).1.history.lookup module =
        a.history.lookup module ∧
      errorTimes module (seen ++ [entry]) = errorTimes module seen := by
    intro module hmodule
    rw [errorTimes_append, errorTimes_of_other fun hsame => absurd hsame hmodule, List.append_nil]
    exact ⟨AList.lookup_insert_ne (Ne.symm hmodule), rfl⟩
  have hqueue := h.lookup_record hforward hnear herror
  have hsorted := hforward.errorTimes_sorted entry.module
  rw [errorTimes_concat herror] at hsorted
  refine ⟨h.window_eq, h.threshold_eq, h.dropDebug_eq, fun module => ?_, fun module => ?_⟩
  · by_cases hmodule : entry.module = module
    · subst hmodule
      rw [hqueue, errorTimes_concat herror]
      exact (h.holds entry.module).slide entry.timestamp
    · rw [(hother hmodule).1, (hother hmodule).2]
      exact h.holds module
  · by_cases hmodule : entry.module = module
    · subst hmodule
      rw [hqueue, errorTimes_concat herror,
        (h.holds entry.module).slide_eq (expired_expiry windowSeconds) hsorted]
      intro t ht past hpast
      have hkept := (List.mem_filter.mp ht).2
      rw [Bool.not_eq_true'] at hkept
      have hle : past ≤ entry.timestamp := by
        rcases List.mem_append.mp hpast with hpast | hpast
        · exact (List.pairwise_append.mp hsorted).2.2 past hpast _ List.mem_cons_self
        · exact (List.mem_singleton.mp hpast).le
      by_contra hexpired
      rw [Bool.not_eq_false] at hexpired
      have hlater := (expired_expiry windowSeconds).later past entry.timestamp t hle hexpired
      exact Bool.false_ne_true (hkept.symm.trans hlater)
    · rw [(hother hmodule).1, (hother hmodule).2]
      exact h.fresh module

/-- The count of an error is the number of those within the window. -/
theorem Tracking.count_eq (h : Tracking windowSeconds threshold dropDebug seen a)
    (hforward : Forward (seen ++ [entry])) (hnear : Near windowSeconds seen entry)
    (herror : IsError entry) :
    (a.recordAndCount entry.module entry.timestamp).2 = burstCount windowSeconds seen entry := by
  have htimes : errorTimes entry.module (seen ++ [entry]) =
      errorTimes entry.module seen ++ [entry.timestamp] := errorTimes_concat herror
  have hslide := (h.holds entry.module).slide_eq (expired_expiry windowSeconds)
    (htimes ▸ hforward.errorTimes_sorted entry.module)
  rw [burstCount_eq windowSeconds hforward herror, htimes, ← hslide,
    ← h.slide_eq hforward hnear herror]
  rfl

/-- What is no part of a burst passes as it is. -/
theorem Judged.of_not_bursts (hfields : TakesMarks entry.fields)
    (h : ¬ Bursts windowSeconds threshold seen entry) :
    Judged windowSeconds threshold seen entry entry := by
  refine ⟨rfl, ⟨rfl, fun _ _ _ _ => rfl⟩, ?_, fun hbursts => absurd hbursts h, fun _ => rfl⟩
  rw [hfields.find_burst]
  exact iff_of_false nofun h

/-- What is part of a burst gets the marks. -/
theorem Judged.of_bursts (hfields : TakesMarks entry.fields)
    (h : Bursts windowSeconds threshold seen entry) {marked : Json}
    (hmarked : markBurst windowSeconds (burstCount windowSeconds seen entry) entry.fields =
      some marked) :
    Judged windowSeconds threshold seen entry { entry with fields := marked } := by
  obtain ⟨hburst, hcount, -⟩ := find_markBurst windowSeconds _ hmarked hfields
  obtain ⟨marked', hmarked', hsame⟩ :=
    markBurst_spec windowSeconds (burstCount windowSeconds seen entry) hfields
  obtain rfl := Option.some.inj (hmarked.symm.trans hmarked')
  exact ⟨rfl, hsame, iff_of_true hburst h, fun _ => hcount, fun hnot => absurd h hnot⟩

/-- One turn of the loop drops the entry or passes it on as it is judged. -/
theorem Tracking.analyzeOne (h : Tracking windowSeconds threshold dropDebug seen a)
    (hforward : Forward (seen ++ [entry])) (hnear : Near windowSeconds seen entry)
    (hfields : TakesMarks entry.fields) :
    ∃ out b, a.analyzeOne entry = (some out, b) ∧
      Tracking windowSeconds threshold dropDebug (seen ++ [entry]) b ∧
      (Dropped dropDebug entry ∧ out = [] ∨
        ¬ Dropped dropDebug entry ∧ ∃ judged, out = [judged] ∧
          Judged windowSeconds threshold seen entry judged) := by
  rw [ThresholdAnalyzer.analyzeOne, h.dropDebug_eq]
  by_cases hdrop : Dropped dropDebug entry
  · have hother : ¬ IsError entry := by
      rw [IsError, hdrop.2]
      decide
    exact ⟨[], a, if_pos hdrop, h.pass hother, Or.inl ⟨hdrop, rfl⟩⟩
  · have hkept : ¬ (dropDebug = true ∧ entry.level = .debug) := hdrop
    rw [if_neg hkept]
    by_cases herror : IsError entry
    · have hcount := h.count_eq hforward hnear herror
      have hrecord := h.record hforward hnear herror
      rw [if_pos (show LogLevel.error.code ≤ entry.level.code from herror)]
      generalize a.recordAndCount entry.module entry.timestamp = recorded at hcount hrecord ⊢
      obtain ⟨b, count⟩ := recorded
      obtain rfl : count = burstCount windowSeconds seen entry := hcount
      dsimp only at hrecord ⊢
      rw [hrecord.threshold_eq, hrecord.window_eq]
      by_cases hbursts : threshold ≤ burstCount windowSeconds seen entry
      · obtain ⟨marked, hmarked, -⟩ :=
          markBurst_spec windowSeconds (burstCount windowSeconds seen entry) hfields
        refine ⟨[{ entry with fields := marked }], b, ?_, hrecord, Or.inr ⟨hdrop, _, rfl,
          .of_bursts hfields ⟨herror, hbursts⟩ hmarked⟩⟩
        rw [if_pos hbursts, hmarked]
        rfl
      · exact ⟨[entry], b, if_neg hbursts, hrecord, Or.inr ⟨hdrop, entry, rfl,
          .of_not_bursts hfields fun h => hbursts h.2⟩⟩
    · exact ⟨[entry], a, if_neg herror, h.pass herror, Or.inr ⟨hdrop, entry, rfl,
        .of_not_bursts hfields fun h => herror h.1⟩⟩

/-- A batch passes in its order, but for what is dropped, and each entry as it is judged. -/
theorem Tracking.analyze (h : Tracking windowSeconds threshold dropDebug seen a)
    {batch : List LogEntry} (hforward : Forward (seen ++ batch))
    (hnear : ∀ place ∈ behind seen batch, Near windowSeconds place.1 place.2)
    (hfields : ∀ entry ∈ batch, TakesMarks entry.fields) :
    ∃ out b, a.analyze batch = (some out, b) ∧
      Tracking windowSeconds threshold dropDebug (seen ++ batch) b ∧
      List.Forall₂ (fun place judged => Judged windowSeconds threshold place.1 place.2 judged)
        ((behind seen batch).filter fun place => decide ¬ Dropped dropDebug place.2) out := by
  induction batch generalizing seen a with
  | nil => exact ⟨[], a, rfl, by rwa [List.append_nil], .nil⟩
  | cons entry batch ih =>
      have hsplit : seen ++ entry :: batch = (seen ++ [entry]) ++ batch := by simp
      rw [hsplit] at hforward ⊢
      rw [behind, List.forall_mem_cons] at hnear
      obtain ⟨first, b, hfirst, hb, hjudged⟩ := h.analyzeOne (List.pairwise_append.mp hforward).1
        hnear.1 (hfields entry List.mem_cons_self)
      obtain ⟨rest, c, hrest, hc, hall⟩ := ih hb hforward hnear.2
        fun other hother => hfields other (List.mem_cons_of_mem entry hother)
      refine ⟨first ++ rest, c, ?_, hc, ?_⟩
      · rw [ThresholdAnalyzer.analyze, hfirst]
        dsimp only
        rw [hrest]
        rfl
      · rw [behind]
        rcases hjudged with ⟨hdrop, rfl⟩ | ⟨hdrop, judged, rfl, hone⟩
        · rw [List.filter_cons_of_neg (by simpa using hdrop)]
          exact hall
        · rw [List.filter_cons_of_pos (by simpa using hdrop)]
          exact .cons hone hall

theorem Tracking.after {batches : List (List LogEntry)}
    (h : Tracking windowSeconds threshold dropDebug seen a)
    (hforward : Forward (seen ++ batches.flatten))
    (hnear : ∀ place ∈ behind seen batches.flatten, Near windowSeconds place.1 place.2)
    (hfields : ∀ entry ∈ batches.flatten, TakesMarks entry.fields) :
    Tracking windowSeconds threshold dropDebug (seen ++ batches.flatten) (a.after batches) := by
  induction batches generalizing seen a with
  | nil => rwa [List.flatten_nil, List.append_nil]
  | cons batch batches ih =>
      rw [List.flatten_cons, ← List.append_assoc] at hforward ⊢
      rw [List.flatten_cons, behind_append, List.forall_mem_append] at hnear
      obtain ⟨out, b, hbatch, hb, -⟩ := h.analyze (List.pairwise_append.mp hforward).1 hnear.1
        fun entry hentry => hfields entry (List.mem_append_left _ hentry)
      have hafter : a.after (batch :: batches) = b.after batches := by
        rw [ThresholdAnalyzer.after, List.foldl_cons, hbatch]
        rfl
      rw [hafter]
      exact ih hb hforward hnear.2 fun entry hentry =>
        hfields entry (List.mem_append_right _ hentry)

end Analyze

end ThresholdAnalyzer

end LogMind
