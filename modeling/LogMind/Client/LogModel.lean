import LogMind.Client.Decode
import LogMind.Library.KeyedQueue
import LogMind.Library.RowSignals
import LogMind.Library.Transition

/-!
# The log list of the client

`LogModel` keeps the newest items it was given and tells its views about every change of its
rows. The capacity is only enforced when items are added, so a smaller one takes effect with the
next items. The counters go on counting items that have been trimmed away; they are `int`s.
-/

namespace LogMind

variable {Q F : Type} [DecidableEq Q]

/-- `level == "ERROR" || level == "FATAL"`. -/
def LogItem.isError (ext : External Q F) (item : LogItem Q) : Bool :=
  decide (item.level = ext.fromStdString (ascii "ERROR")) ||
    decide (item.level = ext.fromStdString (ascii "FATAL"))

structure LogModel (Q : Type) where
  items : List (LogItem Q) := []
  capacity : Nat := 10000
  earliestTs : Int := 0
  latestTs : Int := 0
  countTotal : Int := 0
  errorCount : Int := 0

namespace LogModel

/-- An `int` with some more counted in it. -/
def addInt (count : Int) (more : Nat) : Int := (count + more).bmod wordBound32

/-- The signals of the model; those about rows are of `QAbstractItemModel`. -/
inductive Signal where
  | rows (change : RowSignals.Change)
  | logCountChanged (current : Nat) (total : Int)
  | errorCountChanged (count : Int)
  | bufferTrimmed (removed : Nat)
  deriving DecidableEq

/-- A signal, and the model as its receivers find it. -/
structure Emission (Q : Type) where
  signal : Signal
  model : LogModel Q

def emit (m : LogModel Q) (signal : Signal) : Emission Q := ⟨signal, m⟩

/-- `enforce_capacity`. -/
def enforceCapacity (m : LogModel Q) : LogModel Q × List (Emission Q) :=
  if m.items.length ≤ m.capacity then (m, [])
  else
    let removed := m.items.length - m.capacity
    let items := m.items.drop removed
    let trimmed := { m with
      items := items
      earliestTs := (items.head?.map LogItem.timestampNs).getD m.earliestTs }
    (trimmed, [trimmed.emit (.rows (.removed 0 (removed - 1))),
      trimmed.emit (.bufferTrimmed removed)])

def appendLog (ext : External Q F) (m : LogModel Q) (item : LogItem Q) :
    LogModel Q × List (Emission Q) :=
  let row := m.items.length
  let added := { m with
    items := m.items ++ [item]
    earliestTs := if (m.items ++ [item]).length = 1 then item.timestampNs else m.earliestTs
    latestTs := item.timestampNs
    countTotal := addInt m.countTotal 1
    errorCount := if item.isError ext then addInt m.errorCount 1 else m.errorCount }
  let errors :=
    if item.isError ext then [added.emit (.errorCountChanged added.errorCount)] else []
  let (kept, trimming) := added.enforceCapacity
  (kept, added.emit (.rows (.inserted row row)) :: errors ++ trimming ++
    [kept.emit (.logCountChanged kept.items.length kept.countTotal)])

/-- The loop of `appendLogs` for one item. -/
def takeItem (ext : External Q F) (m : LogModel Q) (item : LogItem Q) : LogModel Q :=
  { m with
    items := m.items ++ [item]
    earliestTs := if (m.items ++ [item]).length = 1 then item.timestampNs else m.earliestTs
    errorCount := if item.isError ext then addInt m.errorCount 1 else m.errorCount }

def appendLogs (ext : External Q F) (m : LogModel Q) (items : List (LogItem Q)) :
    LogModel Q × List (Emission Q) :=
  match items.getLast? with
  | none => (m, [])
  | some last =>
      let first := m.items.length
      let added := { items.foldl (takeItem ext) m with
        latestTs := last.timestampNs
        countTotal := addInt m.countTotal items.length }
      let (kept, trimming) := added.enforceCapacity
      (kept, added.emit (.rows (.inserted first (first + items.length - 1))) :: trimming ++
        [kept.emit (.logCountChanged kept.items.length kept.countTotal),
          kept.emit (.errorCountChanged kept.errorCount)])

def clear (m : LogModel Q) : LogModel Q × List (Emission Q) :=
  let cleared := { m with
    items := [], earliestTs := 0, latestTs := 0, countTotal := 0, errorCount := 0 }
  (cleared, [cleared.emit (.rows .reset)])

def setCapacity (m : LogModel Q) (maxItems : Int) : LogModel Q :=
  { m with capacity := (max 1000 maxItems).toNat }

inductive Call (Q : Type) where
  | appendLog (item : LogItem Q)
  | appendLogs (items : List (LogItem Q))
  | clear
  | setCapacity (maxItems : Int)

def call (ext : External Q F) (m : LogModel Q) : Call Q → LogModel Q × List (Emission Q)
  | .appendLog item => m.appendLog ext item
  | .appendLogs items => m.appendLogs ext items
  | .clear => m.clear
  | .setCapacity maxItems => (m.setCapacity maxItems, [])

/-- Some calls, with the signals of all of them. -/
def run (ext : External Q F) (m : LogModel Q) : List (Call Q) → LogModel Q × List (Emission Q)
  | [] => (m, [])
  | c :: calls =>
      let (next, emitted) := m.call ext c
      let (last, later) := run ext next calls
      (last, emitted ++ later)

/-! ## What the model holds -/

/-- The items that some calls add behind those in `since`, from the last `clear` on. -/
def sinceClear (since : List (LogItem Q)) : List (Call Q) → List (LogItem Q)
  | [] => since
  | .appendLog item :: calls => sinceClear (since ++ [item]) calls
  | .appendLogs items :: calls => sinceClear (since ++ items) calls
  | .clear :: calls => sinceClear [] calls
  | .setCapacity _ :: calls => sinceClear since calls

/-- The relation between the rows and what was added since the last `clear`, which the loop of
`appendLogs` keeps. -/
structure Listed (ext : External Q F) (m : LogModel Q) (since : List (LogItem Q)) : Prop where
  capacity_pos : 0 < m.capacity
  items_suffix : m.items <:+ since
  items_ne : since ≠ [] → m.items ≠ []
  earliest_eq : m.earliestTs = (m.items.head?.map LogItem.timestampNs).getD 0
  errors_eq : m.errorCount = addInt 0 (since.countP (LogItem.isError ext))

/-- The relation between the model and what was added since the last `clear`. -/
structure Holds (ext : External Q F) (m : LogModel Q) (since : List (LogItem Q)) : Prop
    extends Listed ext m since where
  latest_eq : m.latestTs = (since.getLast?.map LogItem.timestampNs).getD 0
  total_eq : m.countTotal = addInt 0 since.length

/-- The rows are the newest of all that was added. -/
def Newest (m : LogModel Q) (since : List (LogItem Q)) : Prop :=
  m.items = since.drop (since.length - m.capacity)

variable {ext : External Q F} {m : LogModel Q} {since : List (LogItem Q)}

theorem addInt_addInt (count : Int) (more later : Nat) :
    addInt (addInt count more) later = addInt count (more + later) := by
  unfold addInt
  rw [Int.bmod_add_bmod, Int.natCast_add, Int.add_assoc]

theorem addInt_of_lt {count : Nat} (h : count < 2147483648) : addInt 0 count = count := by
  unfold addInt
  rw [Int.zero_add]
  apply Int.bmod_eq_of_le <;>
    · unfold wordBound32
      omega

theorem addInt_zero : addInt 0 0 = 0 := addInt_of_lt (Nat.succ_pos _)

theorem Listed.takeItem (h : Listed ext m since) (item : LogItem Q) :
    Listed ext (m.takeItem ext item) (since ++ [item]) := by
  have hitems : m.items ++ [item] <:+ since ++ [item] := by
    obtain ⟨before, hbefore⟩ := h.items_suffix
    exact ⟨before, by rw [← List.append_assoc, hbefore]⟩
  refine ⟨h.capacity_pos, hitems, fun _ => by simp [LogModel.takeItem], ?_, ?_⟩
  · show (if (m.items ++ [item]).length = 1 then item.timestampNs else m.earliestTs) =
      ((m.items ++ [item]).head?.map LogItem.timestampNs).getD 0
    cases hrows : m.items with
    | nil => rfl
    | cons first rest =>
        rw [if_neg (by simp), h.earliest_eq, hrows]
        rfl
  · show (if item.isError ext then addInt m.errorCount 1 else m.errorCount) = _
    rw [List.countP_append, List.countP_singleton, h.errors_eq]
    split
    · exact addInt_addInt 0 _ 1
    · rfl

theorem Listed.takeItems (h : Listed ext m since) (items : List (LogItem Q)) :
    Listed ext (items.foldl (LogModel.takeItem ext) m) (since ++ items) := by
  induction items generalizing m since with
  | nil => simpa using h
  | cons item items ih =>
      have hrest := ih (h.takeItem item)
      rwa [List.append_assoc] at hrest

omit [DecidableEq Q] in
theorem enforceCapacity_items (m : LogModel Q) :
    m.enforceCapacity.1.items = m.items.drop (m.items.length - m.capacity) ∧
      m.enforceCapacity.1.capacity = m.capacity := by
  unfold enforceCapacity
  split
  · rename_i hroom
    rw [Nat.sub_eq_zero_of_le hroom]
    exact ⟨rfl, rfl⟩
  · exact ⟨rfl, rfl⟩

/-- Trimming keeps a row, for no capacity is zero. -/
theorem Listed.enforceCapacity (h : Listed ext m since) :
    Listed ext m.enforceCapacity.1 since := by
  unfold LogModel.enforceCapacity
  split
  · exact h
  · rename_i hover
    have hpos := h.capacity_pos
    have hne : m.items.drop (m.items.length - m.capacity) ≠ [] := by
      rw [Ne, List.drop_eq_nil_iff]
      omega
    refine ⟨hpos, (List.drop_suffix _ _).trans h.items_suffix, fun _ => hne, ?_, h.errors_eq⟩
    dsimp only
    cases hrows : m.items.drop (m.items.length - m.capacity) with
    | nil => exact absurd hrows hne
    | cons first rest => rfl

theorem Holds.of_listed (h : Listed ext m since)
    (hlatest : m.latestTs = (since.getLast?.map LogItem.timestampNs).getD 0)
    (htotal : m.countTotal = addInt 0 since.length) : Holds ext m.enforceCapacity.1 since := by
  refine ⟨h.enforceCapacity, ?_, ?_⟩
  · rw [← hlatest]
    unfold LogModel.enforceCapacity
    split <;> rfl
  · rw [← htotal]
    unfold LogModel.enforceCapacity
    split <;> rfl

theorem Holds.appendLog (h : Holds ext m since) (item : LogItem Q) :
    Holds ext (m.appendLog ext item).1 (since ++ [item]) := by
  refine Holds.of_listed (m := { m.takeItem ext item with
    latestTs := item.timestampNs, countTotal := addInt m.countTotal 1 }) ?_ ?_ ?_
  · have hlisted := h.toListed.takeItem item
    exact ⟨hlisted.capacity_pos, hlisted.items_suffix, hlisted.items_ne, hlisted.earliest_eq,
      hlisted.errors_eq⟩
  · rw [List.getLast?_concat]
    rfl
  · rw [List.length_append, ← addInt_addInt, ← h.total_eq]
    rfl

theorem Holds.appendLogs (h : Holds ext m since) (items : List (LogItem Q)) :
    Holds ext (m.appendLogs ext items).1 (since ++ items) := by
  unfold LogModel.appendLogs
  cases hlast : items.getLast? with
  | none =>
      rw [List.getLast?_eq_none_iff.mp hlast, List.append_nil]
      exact h
  | some last =>
      refine Holds.of_listed ?_ ?_ ?_
      · have hlisted := h.toListed.takeItems items
        exact ⟨hlisted.capacity_pos, hlisted.items_suffix, hlisted.items_ne, hlisted.earliest_eq,
          hlisted.errors_eq⟩
      · rw [List.getLast?_append, hlast]
        rfl
      · rw [List.length_append, ← addInt_addInt, ← h.total_eq]

theorem Holds.clear (h : Holds ext m since) : Holds ext m.clear.1 [] :=
  ⟨⟨h.capacity_pos, List.nil_suffix, fun hne => absurd rfl hne, rfl, addInt_zero.symm⟩, rfl,
    addInt_zero.symm⟩

theorem Holds.setCapacity (h : Holds ext m since) (maxItems : Int) :
    Holds ext (m.setCapacity maxItems) since := by
  refine ⟨⟨?_, h.items_suffix, h.items_ne, h.earliest_eq, h.errors_eq⟩, h.latest_eq, h.total_eq⟩
  show 0 < (max 1000 maxItems).toNat
  omega

theorem Holds.run (h : Holds ext m since) (calls : List (Call Q)) :
    Holds ext (m.run ext calls).1 (sinceClear since calls) := by
  induction calls generalizing m since with
  | nil => exact h
  | cons c calls ih =>
      cases c with
      | appendLog item => exact ih (h.appendLog item)
      | appendLogs items => exact ih (h.appendLogs items)
      | clear => exact ih h.clear
      | setCapacity maxItems => exact ih (h.setCapacity maxItems)

omit [DecidableEq Q] in
/-- New rows behind the newest ones, and the capacity enforced. -/
theorem Newest.enforceCapacity {added : LogModel Q} {new : List (LogItem Q)} (h : Newest m since)
    (hpos : 0 < m.capacity) (hitems : added.items = m.items ++ new)
    (hcapacity : added.capacity = m.capacity) :
    Newest added.enforceCapacity.1 (since ++ new) ∧
      added.enforceCapacity.1.capacity = m.capacity := by
  have hlast : ∀ xs : List (LogItem Q),
      KeyedQueue.keepLast m.capacity xs = xs.drop (xs.length - m.capacity) := by
    intro xs
    rw [KeyedQueue.keepLast, KeyedQueue.excess, if_neg (Nat.ne_of_gt hpos)]
  obtain ⟨hkept, hsame⟩ := enforceCapacity_items added
  refine ⟨?_, hsame.trans hcapacity⟩
  rw [Newest, hkept, hsame, hcapacity, hitems, ← hlast, ← hlast, h, ← hlast,
    KeyedQueue.keepLast_append]

theorem foldl_takeItem (ext : External Q F) (m : LogModel Q) (items : List (LogItem Q)) :
    (items.foldl (takeItem ext) m).items = m.items ++ items ∧
      (items.foldl (takeItem ext) m).capacity = m.capacity := by
  induction items generalizing m with
  | nil => exact ⟨(List.append_nil _).symm, rfl⟩
  | cons item items ih =>
      obtain ⟨hitems, hcapacity⟩ := ih (m.takeItem ext item)
      refine ⟨hitems.trans ?_, hcapacity⟩
      show m.items ++ [item] ++ items = _
      rw [List.append_assoc]
      rfl

theorem Newest.appendLogs (h : Newest m since) (hpos : 0 < m.capacity)
    (items : List (LogItem Q)) :
    Newest (m.appendLogs ext items).1 (since ++ items) ∧
      (m.appendLogs ext items).1.capacity = m.capacity := by
  unfold LogModel.appendLogs
  cases hlast : items.getLast? with
  | none =>
      rw [List.getLast?_eq_none_iff.mp hlast, List.append_nil]
      exact ⟨h, rfl⟩
  | some last =>
      obtain ⟨hitems, hcapacity⟩ := foldl_takeItem ext m items
      exact h.enforceCapacity hpos hitems hcapacity

/-- Without a change of the capacity the rows stay the newest. -/
theorem Newest.call (ext : External Q F) (h : Newest m since) (hpos : 0 < m.capacity) {c : Call Q}
    (hc : ∀ n, c ≠ .setCapacity n) :
    Newest (m.call ext c).1 (sinceClear since [c]) ∧ (m.call ext c).1.capacity = m.capacity := by
  cases c with
  | appendLog item => exact h.enforceCapacity hpos rfl rfl
  | appendLogs items => exact h.appendLogs hpos items
  | clear => exact ⟨List.drop_nil.symm, rfl⟩
  | setCapacity n => exact absurd rfl (hc n)

theorem Newest.run (ext : External Q F) (h : Newest m since) (hpos : 0 < m.capacity)
    {calls : List (Call Q)} (hcalls : ∀ n, Call.setCapacity n ∉ calls) :
    Newest (m.run ext calls).1 (sinceClear since calls) ∧
      (m.run ext calls).1.capacity = m.capacity := by
  induction calls generalizing m since with
  | nil => exact ⟨h, rfl⟩
  | cons c calls ih =>
      have hc : ∀ n, c ≠ .setCapacity n := fun n heq => hcalls n (heq ▸ List.mem_cons_self)
      obtain ⟨hnext, hcapacity⟩ := h.call ext hpos hc
      obtain ⟨hlast, hsame⟩ := ih hnext (hcapacity ▸ hpos)
        fun n hn => hcalls n (List.mem_cons_of_mem c hn)
      refine ⟨?_, hsame.trans hcapacity⟩
      cases c with
      | setCapacity n => exact absurd rfl (hc n)
      | _ => exact hlast

/-- After any calls the rows are the last of the items since the last `clear()`: the newest ten
thousand while the capacity is left alone, and never none if there were any. The two timestamps
are those of the first row and of the last one, and the two counters count all of those items, also
the ones that have been trimmed, as far as an `int` counts. -/
theorem run_since_clear (ext : External Q F) (calls : List (Call Q)) :
    let m := (({} : LogModel Q).run ext calls).1
    let since := sinceClear [] calls
    m.items <:+ since ∧ (since ≠ [] → m.items ≠ []) ∧
      ((∀ n, Call.setCapacity n ∉ calls) → m.items = since.drop (since.length - 10000)) ∧
      m.earliestTs = (m.items.head?.map LogItem.timestampNs).getD 0 ∧
      m.latestTs = (m.items.getLast?.map LogItem.timestampNs).getD 0 ∧
      m.countTotal = addInt 0 since.length ∧
      m.errorCount = addInt 0 (since.countP (LogItem.isError ext)) ∧
      (since.length < 2147483648 →
        m.countTotal = since.length ∧ m.errorCount = since.countP (LogItem.isError ext)) := by
  intro m since
  have hinit : Holds ext ({} : LogModel Q) [] :=
    ⟨⟨Nat.succ_pos _, List.nil_suffix, fun hne => absurd rfl hne, rfl, addInt_zero.symm⟩, rfl,
      addInt_zero.symm⟩
  have h : Holds ext m since := hinit.run calls
  refine ⟨h.items_suffix, h.items_ne, fun hcalls => ?_, h.earliest_eq, ?_, h.total_eq,
    h.errors_eq, fun hfew => ?_⟩
  · have hstart : Newest ({} : LogModel Q) [] := List.drop_nil.symm
    obtain ⟨hnewest, hcapacity⟩ := hstart.run ext (Nat.succ_pos _) hcalls
    rw [Newest, hcapacity] at hnewest
    exact hnewest
  · rw [h.latest_eq]
    obtain ⟨before, hbefore⟩ := h.items_suffix
    by_cases hnone : m.items = []
    · have hempty : since = [] := by
        by_contra hne
        exact h.items_ne hne hnone
      rw [hnone, hempty]
    · rw [← hbefore, List.getLast?_append_of_ne_nil _ hnone]
  · rw [h.total_eq, h.errors_eq]
    exact ⟨addInt_of_lt hfew, addInt_of_lt (Nat.lt_of_le_of_lt List.countP_le_length hfew)⟩

/-! ## What a view shows -/

/-- A view keeps the rows by the signals about them, and relies on the other ones for nothing but
their numbers: `logCountChanged` names the number of its rows. -/
def observe (copy : List (LogItem Q)) (e : Emission Q) : Option (List (LogItem Q)) :=
  match e.signal with
  | .rows change => RowSignals.receive copy e.model.items change
  | .logCountChanged current _ => if current = copy.length then some copy else none
  | .errorCountChanged _ => some copy
  | .bufferTrimmed _ => some copy

/-- The rows of a view behind some signals, if it could take each of them. -/
def observeAll (copy : List (LogItem Q)) (emitted : List (Emission Q)) :
    Option (List (LogItem Q)) :=
  emitted.foldlM observe copy

/-- From `copy` on, a view has the rows of the model behind each signal, and `rows` at last. -/
structure Follows (copy : List (LogItem Q)) (emitted : List (Emission Q))
    (rows : List (LogItem Q)) : Prop where
  last : observeAll copy emitted = some rows
  behind : ∀ before e after, emitted = before ++ e :: after →
    observeAll copy (before ++ [e]) = some e.model.items

omit [DecidableEq Q] in
theorem observeAll_append (copy : List (LogItem Q)) (before after : List (Emission Q)) :
    observeAll copy (before ++ after) =
      (observeAll copy before).bind fun rows => observeAll rows after :=
  List.foldlM_append

omit [DecidableEq Q] in
theorem Follows.nil (rows : List (LogItem Q)) : Follows rows [] rows :=
  ⟨rfl, fun before _ _ hsplit => by cases before <;> cases hsplit⟩

omit [DecidableEq Q] in
/-- One more signal, at which the view has the rows of the model. -/
theorem Follows.cons {copy rows : List (LogItem Q)} {e : Emission Q} {emitted : List (Emission Q)}
    (hfirst : observe copy e = some e.model.items) (h : Follows e.model.items emitted rows) :
    Follows copy (e :: emitted) rows := by
  have hnext : ∀ emitted, observeAll copy (e :: emitted) = observeAll e.model.items emitted := by
    intro emitted
    rw [observeAll, List.foldlM_cons, hfirst]
    rfl
  refine ⟨(hnext emitted).trans h.last, fun before e' after hsplit => ?_⟩
  cases before with
  | nil =>
      obtain ⟨rfl, -⟩ := List.cons_eq_cons.mp hsplit
      exact hnext []
  | cons _ before =>
      obtain ⟨rfl, hrest⟩ := List.cons_eq_cons.mp hsplit
      exact (hnext (before ++ [e'])).trans (h.behind before e' after hrest)

omit [DecidableEq Q] in
theorem Follows.append {copy between rows : List (LogItem Q)} {before after : List (Emission Q)}
    (hbefore : Follows copy before between) (hafter : Follows between after rows) :
    Follows copy (before ++ after) rows := by
  refine ⟨?_, fun first e rest hsplit => ?_⟩
  · rw [observeAll_append, hbefore.last]
    exact hafter.last
  · obtain ⟨middle, hfirst, hrest⟩ | ⟨middle, hfirst, hrest⟩ :=
      List.append_eq_append_iff.mp hsplit
    · rw [hfirst, List.append_assoc, observeAll_append, hbefore.last]
      exact hafter.behind middle e rest hrest
    · cases middle with
      | nil =>
          rw [List.append_nil] at hfirst
          rw [← hfirst, observeAll_append, hbefore.last]
          exact hafter.behind [] e rest hrest.symm
      | cons _ middle =>
          obtain ⟨rfl, -⟩ := List.cons_eq_cons.mp hrest
          exact hbefore.behind first e middle hfirst

omit [DecidableEq Q] in
theorem follows_enforceCapacity (m : LogModel Q) :
    Follows m.items m.enforceCapacity.2 m.enforceCapacity.1.items := by
  unfold enforceCapacity
  split
  · exact .nil _
  · rename_i hover
    exact .cons (RowSignals.receive_dropped (by omega) (Nat.sub_le _ _)) (.cons rfl (.nil _))

theorem follows_appendLog (ext : External Q F) (m : LogModel Q) (item : LogItem Q) :
    Follows m.items (m.appendLog ext item).2 (m.appendLog ext item).1.items := by
  have hnew := RowSignals.receive_appended m.items (List.cons_ne_nil item [])
  have herrors : ∀ added : LogModel Q, Follows added.items
      (if item.isError ext then [added.emit (.errorCountChanged added.errorCount)] else [])
      added.items := by
    intro added
    split
    · exact .cons rfl (.nil _)
    · exact .nil _
  exact .append (.cons hnew (.append (herrors _) (follows_enforceCapacity _)))
    (.cons (if_pos rfl) (.nil _))

theorem follows_appendLogs (ext : External Q F) (m : LogModel Q) (items : List (LogItem Q)) :
    Follows m.items (m.appendLogs ext items).2 (m.appendLogs ext items).1.items := by
  unfold appendLogs
  cases hlast : items.getLast? with
  | none => exact .nil _
  | some last =>
      have hne : items ≠ [] := fun hnil => by simp [hnil] at hlast
      obtain ⟨hitems, -⟩ := foldl_takeItem ext m items
      refine .cons ?_ (.append (follows_enforceCapacity _) (.cons (if_pos rfl)
        (.cons rfl (.nil _))))
      have hnew := RowSignals.receive_appended m.items hne
      rw [← hitems] at hnew
      exact hnew

/-- A view that starts with the rows of the model and goes by its signals alone has the rows of the
model behind every signal of every call, and never gets one that does not fit the rows it has. -/
theorem view_follows (ext : External Q F) (m : LogModel Q) (calls : List (Call Q)) :
    Follows m.items (m.run ext calls).2 (m.run ext calls).1.items := by
  induction calls generalizing m with
  | nil => exact .nil _
  | cons c calls ih =>
      have hcall : Follows m.items (m.call ext c).2 (m.call ext c).1.items := by
        cases c with
        | appendLog item => exact follows_appendLog ext m item
        | appendLogs items => exact follows_appendLogs ext m items
        | clear => exact .cons rfl (.nil _)
        | setCapacity n => exact .nil _
      exact hcall.append (ih (m.call ext c).1)

end LogModel

end LogMind
