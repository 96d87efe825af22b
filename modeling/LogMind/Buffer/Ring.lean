import LogMind.Buffer.Search
import LogMind.Library.KeyedQueue

/-!
# The ring of the newest entries

The counters, the identifiers and the time query of a buffer, read from everything that was
pushed into it. A push keeps a copy of the entry for the callback only when one is
installed, and calls it outside the lock.
-/

namespace LogMind

namespace LogBuffer

/-! ## The time query -/

/-- The loop of `query_by_time`. -/
def scanTime (start stop : Int) (limit : Nat) : List LogEntry → List LogEntry → List LogEntry
  | [], result => result
  | e :: items, result =>
      if e.timestamp < start ∨ stop < e.timestamp then scanTime start stop limit items result
      else if limit ≤ (result ++ [e]).length then result ++ [e]
      else scanTime start stop limit items (result ++ [e])

def queryByTime (b : LogBuffer) (start stop : Int) (limit : Nat) : List LogEntry :=
  if limit = 0 then [] else scanTime start stop limit b.items []

/-- The timestamp lies between the two bounds. -/
def inTime (start stop : Int) (e : LogEntry) : Bool := start ≤ e.timestamp && e.timestamp ≤ stop

theorem scanTime_eq {start stop : Int} {limit : Nat} {items result : List LogEntry}
    (hroom : result.length < limit) :
    scanTime start stop limit items result =
      (result ++ items.filter (inTime start stop)).take limit := by
  induction items generalizing result with
  | nil => simp [scanTime, List.take_of_length_le (Nat.le_of_lt hroom)]
  | cons e items ih =>
      rw [scanTime]
      split
      · rename_i hout
        have hskip : ¬ inTime start stop e = true := by
          simp only [inTime, Bool.and_eq_true, decide_eq_true_eq]
          omega
        rw [ih hroom, List.filter_cons_of_neg hskip]
      · rename_i hin
        have htake : inTime start stop e = true := by
          simp only [inTime, Bool.and_eq_true, decide_eq_true_eq]
          omega
        have hsplit : result ++ e :: items.filter (inTime start stop) =
            (result ++ [e]) ++ items.filter (inTime start stop) := by simp
        rw [List.filter_cons_of_pos htake, hsplit]
        split
        · rename_i hfull
          have hlength : (result ++ [e]).length = limit := by
            rw [List.length_append, List.length_singleton] at hfull ⊢
            omega
          rw [← hlength, List.take_left]
        · rename_i hmore
          exact ih (Nat.lt_of_not_le hmore)

/-- The first entries of the range, oldest first. -/
theorem queryByTime_eq (b : LogBuffer) (start stop : Int) (limit : Nat) :
    b.queryByTime start stop limit = (b.items.filter (inTime start stop)).take limit := by
  unfold queryByTime
  split
  · rename_i hzero
    rw [hzero, List.take_zero]
  · rename_i hpos
    exact scanTime_eq (Nat.pos_of_ne_zero hpos)

/-! ## The entries -/

theorem discardFront_items (capacity : Nat) (items : List LogEntry) (oldest discarded : Nat) :
    (discardFront capacity items oldest discarded).1 = items.drop (items.length - capacity) := by
  induction items generalizing oldest discarded with
  | nil => rw [discardFront, List.drop_nil]
  | cons e items ih =>
      rw [discardFront]
      split
      · rename_i hlen
        have hdrop : (e :: items).length - capacity = (items.length - capacity) + 1 := by
          rw [List.length_cons] at hlen ⊢
          omega
        rw [ih, hdrop, List.drop_succ_cons]
      · rename_i hlen
        rw [Nat.sub_eq_zero_of_le (Nat.le_of_not_lt hlen), List.drop_zero]

/-- The entries of the ring, whatever the counters have come to. -/
structure Keeps (b : LogBuffer) (capacity : Nat) (history : List LogEntry) : Prop where
  capacity_pos : 0 < capacity
  capacity_eq : b.capacity = capacity
  items_eq : b.items = KeyedQueue.keepLast capacity history

theorem new_keeps (capacity : Nat) :
    Keeps (new capacity) (if capacity = 0 then 1 else capacity) [] :=
  ⟨by split <;> omega, rfl, List.drop_nil.symm⟩

theorem Keeps.push {b : LogBuffer} {capacity : Nat} {history : List LogEntry}
    (h : Keeps b capacity history) (entry : LogEntry) :
    Keeps (b.push entry) capacity (history ++ [entry]) := by
  refine ⟨h.capacity_pos, h.capacity_eq, ?_⟩
  have hexcess : KeyedQueue.keepLast capacity (b.items ++ [entry]) =
      (b.items ++ [entry]).drop ((b.items ++ [entry]).length - capacity) := by
    rw [KeyedQueue.keepLast, KeyedQueue.excess, if_neg (Nat.ne_of_gt h.capacity_pos)]
  rw [push_items, discardFront_items, h.capacity_eq, ← hexcess, h.items_eq,
    KeyedQueue.keepLast_append]

/-- Without a query the newest entries are returned, newest first. -/
theorem search_nil (b : LogBuffer) (limit : Nat) :
    b.search [] limit = b.items.reverse.take limit := by
  unfold search
  split
  · rename_i hnone
    rcases hnone with hlimit | hitems
    · rw [hlimit, List.take_zero]
    · rw [List.isEmpty_iff.mp hitems, List.reverse_nil, List.take_nil]
  · rw [if_pos List.isEmpty_nil, BoundedScan.collect_eq _ _ _ _ (Nat.zero_le _), List.nil_append,
      List.filterMap_some]

/-! ## The counters -/

theorem discardFront_discarded (capacity : Nat) (items : List LogEntry) (oldest discarded : Nat)
    (hoverflow : discarded + (items.length - capacity) < wordBound) :
    (discardFront capacity items oldest discarded).2.2 =
      discarded + (items.length - capacity) := by
  induction items generalizing oldest discarded with
  | nil => simp [discardFront]
  | cons e items ih =>
      rw [discardFront]
      split
      · rename_i hlen
        simp only [List.length_cons] at hlen hoverflow ⊢
        have hstep : (discarded + 1) % wordBound = discarded + 1 := Nat.mod_eq_of_lt (by omega)
        rw [hstep, ih _ _ (by omega)]
        omega
      · rename_i hlen
        have hzero : (e :: items).length - capacity = 0 := by omega
        rw [hzero]
        rfl

/-- The counters of a buffer with this history. -/
structure Counts (b : LogBuffer) (capacity : Nat) (history : List LogEntry) : Prop where
  pushed_eq : b.totalPushed = history.length
  discarded_eq : b.totalDiscarded = history.length - capacity

theorem Counts.push {b : LogBuffer} {capacity : Nat} {history : List LogEntry}
    (h : Counts b capacity history) (hb : Holds b capacity history) (entry : LogEntry)
    (hbound : history.length + 1 < wordBound) :
    Counts (b.push entry) capacity (history ++ [entry]) := by
  have hcap := hb.capacity_pos
  constructor
  · change (b.totalPushed + 1) % wordBound = _
    rw [h.pushed_eq, Nat.mod_eq_of_lt hbound, List.length_append, List.length_singleton]
  · have hlength : (b.items ++ [entry]).length - capacity =
        (history.length + 1 - capacity) - (history.length - capacity) := by
      rw [List.length_append, List.length_singleton, hb.items_eq, List.length_drop]
      omega
    change (discardFront b.capacity (b.items ++ [entry]) b.storedOldestId
      b.totalDiscarded).2.2 = _
    rw [hb.capacity_eq, discardFront_discarded, hlength, h.discarded_eq, List.length_append,
      List.length_singleton]
    · omega
    · rw [hlength, h.discarded_eq]
      omega

theorem after_append (capacity : Nat) (history : List LogEntry) (entry : LogEntry) :
    after capacity (history ++ [entry]) = (after capacity history).push entry := by
  rw [after, List.foldl_append, List.foldl_cons, List.foldl_nil]
  rfl

theorem after_counts (capacity : Nat) (history : List LogEntry)
    (hbound : history.length < wordBound) :
    Counts (after capacity history) (if capacity = 0 then 1 else capacity) history := by
  induction history using List.reverseRecOn with
  | nil => exact ⟨rfl, by simp [after, new]⟩
  | append_singleton history entry ih =>
      rw [List.length_append, List.length_singleton] at hbound
      rw [after_append]
      exact (ih (by omega)).push (after_holds capacity history (by omega)) entry hbound

/-! ## The callback -/

/-- A buffer and what its callbacks have been told so far. -/
structure Observed where
  buffer : LogBuffer
  /-- `m_callback` holds a function. -/
  callback : Bool := false
  told : List LogEntry := []

inductive Call where
  | push (entry : LogEntry)
  | setCallback (installed : Bool)

/-- What `push_back` stores, and what is left of the argument. -/
def store (copies : Bool) (entry : LogEntry) : LogEntry × Option LogEntry :=
  if copies then (entry, some entry) else (entry, none)

@[simp] theorem store_fst (copies : Bool) (entry : LogEntry) :
    (store copies entry).1 = entry := by
  cases copies <;> rfl

namespace Observed

def call (s : Observed) : Call → Observed
  | .setCallback installed => { s with callback := installed }
  | .push entry =>
      let (stored, left) := store s.callback entry
      { s with
        buffer := s.buffer.push stored
        told := if s.callback then s.told ++ left.toList else s.told }

/-- The state after some calls on a new buffer. -/
def run (capacity : Nat) (calls : List Call) : Observed :=
  calls.foldl call { buffer := new capacity }

end Observed

/-- The entries that the calls push. -/
def pushes (calls : List Call) : List LogEntry :=
  calls.filterMap fun
    | .push entry => some entry
    | .setCallback _ => none

theorem pushes_append_push (calls : List Call) (entry : LogEntry) :
    pushes (calls ++ [.push entry]) = pushes calls ++ [entry] := by
  simp [pushes]

theorem pushes_append_setCallback (calls : List Call) (installed : Bool) :
    pushes (calls ++ [.setCallback installed]) = pushes calls := by
  simp [pushes]

/-- Whether the entry is copied or moved, the buffer gets it as it is. -/
theorem Observed.run_buffer (capacity : Nat) (calls : List Call) :
    (Observed.run capacity calls).buffer = after capacity (pushes calls) := by
  induction calls using List.reverseRecOn with
  | nil => rfl
  | append_singleton calls c ih =>
      rw [Observed.run, List.foldl_append, List.foldl_cons, List.foldl_nil]
      cases c with
      | setCallback installed =>
          rw [pushes_append_setCallback, ← ih]
          rfl
      | push entry =>
          rw [pushes_append_push, after_append, ← ih]
          change ((Observed.run capacity calls).buffer.push
            (store (Observed.run capacity calls).callback entry).1) = _
          rw [store_fst]

/-! ## What the buffer is -/

/-- The buffer is the end of what was pushed, with its counters, its identifiers and its time
query, whether a callback is installed or not. -/
theorem run_keeps_last (capacity : Nat) (calls : List Call)
    (hbound : (pushes calls).length < wordBound) :
    let history := pushes calls
    let b := (Observed.run capacity calls).buffer
    let size := min history.length (max 1 capacity)
    let kept := history.drop (history.length - size)
    b.items = kept ∧ b.items.length = size ∧ b.totalPushed = history.length ∧
      b.totalDiscarded = history.length - size ∧
      (b.oldestId + b.items.length) % wordBound = b.nextId ∧
      (∀ id < wordBound, b.entryForLocked id =
        if history.length - size < id ∧ id ≤ history.length then history[id - 1]? else none) ∧
      ∀ start stop limit, b.queryByTime start stop limit =
        (kept.filter fun e => start ≤ e.timestamp && e.timestamp ≤ stop).take limit := by
  intro history b size kept
  have hcapacity : (if capacity = 0 then 1 else capacity) = max 1 capacity := by
    split <;> omega
  have hholds := after_holds capacity history hbound
  have hcounts := after_counts capacity history hbound
  rw [← Observed.run_buffer, hcapacity] at hholds hcounts
  have hdrop : history.length - max 1 capacity = history.length - size := by omega
  have hitems : b.items = kept := by rw [hholds.items_eq, hdrop]
  have holdest : b.oldestId = history.length - size + 1 := by rw [hholds.oldest_eq, hdrop]
  refine ⟨hitems, ?_, hcounts.pushed_eq, ?_, ?_, ?_, ?_⟩
  · rw [hitems, List.length_drop]
    omega
  · rw [hcounts.discarded_eq, hdrop]
  · rw [hholds.length_items, hholds.next_eq]
  · intro id hid
    rw [entryForLocked_eq b hid, holdest, hitems, List.getElem?_drop]
    by_cases hold : id < history.length - size + 1
    · rw [if_pos hold, if_neg (by omega)]
    · have hindex : history.length - size + (id - (history.length - size + 1)) = id - 1 := by omega
      rw [if_neg hold, hindex]
      by_cases hlast : id ≤ history.length
      · rw [if_pos ⟨by omega, hlast⟩]
      · rw [if_neg (by omega), List.getElem?_eq_none (by omega)]
  · intro start stop limit
    rw [queryByTime_eq, hitems]
    rfl

/-- Three entries in a ring of two, with a callback for the last one. -/
theorem run_keeps_last_three :
    let calls : List Call := [.push { timestamp := 1 }, .push { timestamp := 2 },
      .setCallback true, .push { timestamp := 3 }]
    ((Observed.run 2 calls).buffer.totalDiscarded = 1) ∧
      (Observed.run 2 calls).buffer.queryByTime 0 2 5 = [{ timestamp := 2 }] := by
  intro calls
  obtain ⟨-, -, -, hdiscarded, -, -, hquery⟩ := run_keeps_last 2 calls (by decide)
  exact ⟨hdiscarded, (hquery 0 2 5).trans rfl⟩

end LogBuffer

end LogMind
