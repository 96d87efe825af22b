import LogMind.Buffer.Ring
import LogMind.Client.LogModel
import LogMind.Daemon.TimeQuery
import Mathlib.Data.List.Forall2

/-!
# The client on the bus

The daemon announces every entry behind its push into the buffer, by an event for its main thread,
which sends the signal to those who have subscribed by then. The client subscribes, asks for the
newest hundred entries and waits for the answer; the signals that come in meanwhile wait for its
event loop. The bus and the two event loops keep the order, and a second subscription of the same
slot is none. What `dump` throws ends the daemon, so such a step is none.
-/

namespace LogMind

variable {Q F : Type} [DecidableEq Q]

namespace Subscription

inductive Phase (Q : Type) where
  | idle
  | waiting
  | answered (reply : List (QVariantMap Q))

structure World (Q : Type) where
  buffer : LogBuffer
  /-- The entry in the buffer whose callback has not run yet; `m_output_mutex` is held. -/
  pushed : Option LogEntry := none
  posted : List (VarMap Q) := []
  /-- The signals for the client that it has not handled yet, oldest first. -/
  sent : List (QVariantMap Q) := []
  subscribed : Bool := false
  phase : Phase Q := .idle
  calls : List (LogModel.Call Q) := []

inductive Action where
  | push (entry : LogEntry)
  | post
  /-- The main thread of the daemon takes the next event. -/
  | emit
  /-- `connectToDaemon` with a valid interface, up to the call of `QueryLogs`. -/
  | connect
  | answer
  | logsQueried
  /-- The call returns with an error, such as a timeout. -/
  | queryFailed
  | handleSignal
  | clear

def step (ext : External Q F) (bus : Bus Q) (w : World Q) : Action → Option (World Q)
  | .push entry =>
      match w.pushed with
      | some _ => none
      | none => some { w with buffer := w.buffer.push entry, pushed := some entry }
  | .post =>
      match w.pushed with
      | none => none
      | some entry => do
          let varmap ← logEntryToVarmap ext entry
          return { w with pushed := none, posted := w.posted ++ [varmap] }
  | .emit =>
      match w.posted with
      | [] => none
      | varmap :: posted =>
          if w.subscribed then
            some { w with posted := posted, sent := w.sent ++ [varmap.toVariantMap ext] }
          else some { w with posted := posted }
  | .connect =>
      match w.phase with
      | .idle => some { w with subscribed := true, phase := .waiting }
      | _ => none
  | .answer =>
      match w.phase with
      | .waiting => do
          let reply ← entryMaps ext (w.buffer.search [] 100)
          return { w with phase := .answered reply }
      | _ => none
  | .logsQueried =>
      match w.phase with
      | .answered reply =>
          some { w with
            phase := .idle
            calls := w.calls ++ [.appendLogs (reply.map (onLogEntryReceived ext bus))] }
      | _ => none
  | .queryFailed =>
      match w.phase with
      | .idle => none
      | _ => some { w with phase := .idle }
  | .handleSignal =>
      match w.phase, w.sent with
      | .idle, m :: sent =>
          some { w with
            sent := sent, calls := w.calls ++ [.appendLog (onLogEntryReceived ext bus m)] }
      | _, _ => none
  | .clear =>
      match w.phase with
      | .idle => some { w with calls := w.calls ++ [.clear] }
      | _ => none

def start (capacity : Nat) : World Q := { buffer := LogBuffer.new capacity }

/-- What the actions of a run tell about it. -/
structure Ledger where
  entries : List LogEntry := []
  subscribed : Bool := false
  /-- How many events the main thread took before there was a subscription. -/
  missed : Nat := 0
  /-- How many entries had been pushed when `QueryLogs` was served last. -/
  asked : Nat := 0
  /-- The same for each answer that has come back, oldest first. -/
  counts : List Nat := []

def Ledger.note (l : Ledger) : Action → Ledger
  | .push entry => { l with entries := l.entries ++ [entry] }
  | .emit => { l with missed := if l.subscribed then l.missed else l.missed + 1 }
  | .connect => { l with subscribed := true }
  | .answer => { l with asked := l.entries.length }
  | .logsQueried => { l with counts := l.counts ++ [l.asked] }
  | _ => l

def ledger (actions : List Action) : Ledger := actions.foldl Ledger.note {}

def decode (ext : External Q F) (bus : Bus Q) (varmap : VarMap Q) : LogItem Q :=
  onLogEntryReceived ext bus (varmap.toVariantMap ext)

/-- The item of the client for an entry of the daemon. -/
def itemOf (ext : External Q F) (bus : Bus Q) (entry : LogEntry) : Option (LogItem Q) :=
  (logEntryToVarmap ext entry).map (decode ext bus)

def received : List (LogModel.Call Q) → List (LogItem Q)
  | [] => []
  | .appendLog item :: calls => item :: received calls
  | _ :: calls => received calls

def answers : List (LogModel.Call Q) → List (List (LogItem Q))
  | [] => []
  | .appendLogs items :: calls => items :: answers calls
  | _ :: calls => answers calls

/-- The items that came by signals and those that are on their way, oldest first. -/
def World.signals (ext : External Q F) (bus : Bus Q) (w : World Q) : List (LogItem Q) :=
  received w.calls ++ w.sent.map (onLogEntryReceived ext bus) ++ w.posted.map (decode ext bus)

/-- The items are the answer behind the first `count` entries. -/
def Answers (ext : External Q F) (bus : Bus Q) (capacity : Nat) (entries : List LogEntry)
    (count : Nat) (items : List (LogItem Q)) : Prop :=
  count ≤ entries.length ∧ items.map some =
    ((KeyedQueue.keepLast capacity (entries.take count)).reverse.take 100).map (itemOf ext bus)

/-- The relation of the parties to what the actions tell, where `announced` are the entries that
have had their callback. -/
structure Holds (ext : External Q F) (bus : Bus Q) (capacity : Nat) (w : World Q) (l : Ledger)
    (announced : List LogEntry) : Prop where
  keeps : w.buffer.Keeps capacity l.entries
  entries_eq : l.entries = announced ++ w.pushed.toList
  subscribed_eq : l.subscribed = w.subscribed
  missed_le : l.missed ≤ announced.length
  signals_eq : (announced.drop l.missed).map (itemOf ext bus) = (w.signals ext bus).map some
  answers : List.Forall₂
    (fun items count => l.missed ≤ count ∧ Answers ext bus capacity l.entries count items)
    (answers w.calls) l.counts
  reply : ∀ reply, w.phase = .answered reply → l.missed ≤ l.asked ∧
    Answers ext bus capacity l.entries l.asked (reply.map (onLogEntryReceived ext bus))
  unsubscribed : w.subscribed = false →
    w.phase = .idle ∧ w.sent = [] ∧ received w.calls = [] ∧ Subscription.answers w.calls = []

variable {ext : External Q F} {bus : Bus Q} {capacity : Nat} {w w' : World Q} {l : Ledger}
  {entries announced : List LogEntry}

omit [DecidableEq Q] in
theorem received_append (calls later : List (LogModel.Call Q)) :
    received (calls ++ later) = received calls ++ received later := by
  induction calls with
  | nil => rfl
  | cons c calls ih => cases c <;> simp [received, ih]

omit [DecidableEq Q] in
theorem answers_append (calls later : List (LogModel.Call Q)) :
    answers (calls ++ later) = answers calls ++ answers later := by
  induction calls with
  | nil => rfl
  | cons c calls ih => cases c <;> simp [answers, ih]

theorem map_entryMaps {items : List LogEntry} {reply : List (QVariantMap Q)}
    (h : entryMaps ext items = some reply) :
    (reply.map (onLogEntryReceived ext bus)).map some = items.map (itemOf ext bus) := by
  induction items generalizing reply with
  | nil =>
      obtain rfl := Option.some.inj h
      rfl
  | cons entry items ih =>
      rw [entryMaps, List.mapM_cons] at h
      obtain ⟨m, hm, h⟩ := Option.bind_eq_some_iff.mp h
      obtain ⟨rest, hrest, h⟩ := Option.bind_eq_some_iff.mp h
      obtain ⟨varmap, hvarmap, rfl⟩ := Option.map_eq_some_iff.mp hm
      obtain rfl := Option.some.inj h
      rw [List.map_cons, List.map_cons, List.map_cons, ih hrest, itemOf, hvarmap]
      rfl

/-- An answer stays one when more entries come. -/
theorem Answers.append {count : Nat} {items : List (LogItem Q)}
    (h : Answers ext bus capacity entries count items) (later : List LogEntry) :
    Answers ext bus capacity (entries ++ later) count items := by
  obtain ⟨hcount, hitems⟩ := h
  refine ⟨by rw [List.length_append]; omega, ?_⟩
  rw [hitems, List.take_append_of_le_length hcount]

theorem start_holds (ext : External Q F) (bus : Bus Q) (capacity : Nat) :
    Holds ext bus (if capacity = 0 then 1 else capacity) (start capacity) {} [] where
  keeps := LogBuffer.new_keeps capacity
  entries_eq := rfl
  subscribed_eq := rfl
  missed_le := Nat.le_refl _
  signals_eq := rfl
  answers := .nil
  reply := fun _ hphase => nomatch hphase
  unsubscribed := fun _ => ⟨rfl, rfl, rfl, rfl⟩

/-- A party that is past the subscription has subscribed. -/
theorem Holds.subscribed (h : Holds ext bus capacity w l announced)
    (hphase : w.phase ≠ .idle ∨ w.sent ≠ []) : w.subscribed = true := by
  rw [← Bool.not_eq_false]
  intro hunsubscribed
  obtain ⟨hidle, hsent, -⟩ := h.unsubscribed hunsubscribed
  exact hphase.elim (fun hne => hne hidle) (fun hne => hne hsent)

theorem Holds.push (h : Holds ext bus capacity w l announced) (hpushed : w.pushed = none)
    (entry : LogEntry) :
    Holds ext bus capacity { w with buffer := w.buffer.push entry, pushed := some entry }
      (l.note (.push entry)) announced where
  __ := h
  keeps := h.keeps.push entry
  entries_eq := by
    have hentries := h.entries_eq
    rw [hpushed, Option.toList_none, List.append_nil] at hentries
    rw [Ledger.note, hentries]
    rfl
  answers := h.answers.imp fun _ _ hcount => ⟨hcount.1, hcount.2.append [entry]⟩
  reply := fun reply hphase =>
    ⟨(h.reply reply hphase).1, (h.reply reply hphase).2.append [entry]⟩

theorem Holds.post (h : Holds ext bus capacity w l announced) {entry : LogEntry}
    (hpushed : w.pushed = some entry) {varmap : VarMap Q}
    (hvarmap : logEntryToVarmap ext entry = some varmap) :
    Holds ext bus capacity { w with pushed := none, posted := w.posted ++ [varmap] } l
      (announced ++ [entry]) where
  __ := h
  entries_eq := by
    rw [h.entries_eq, hpushed]
    simp
  missed_le := Nat.le_trans h.missed_le (by simp)
  signals_eq := by
    have hsignals : World.signals ext bus
        { w with pushed := none, posted := w.posted ++ [varmap] } =
          w.signals ext bus ++ [decode ext bus varmap] := by
      simp [World.signals]
    rw [List.drop_append_of_le_length h.missed_le, List.map_append, h.signals_eq, hsignals,
      List.map_append, List.map_singleton, itemOf, hvarmap]
    rfl

theorem Holds.emit (h : Holds ext bus capacity w l announced) (hsubscribed : w.subscribed = true)
    {varmap : VarMap Q} {posted : List (VarMap Q)} (hposted : w.posted = varmap :: posted) :
    Holds ext bus capacity
      { w with posted := posted, sent := w.sent ++ [varmap.toVariantMap ext] } (l.note .emit)
      announced := by
  have hnote : l.note .emit = l := by
    rw [Ledger.note, if_pos (h.subscribed_eq.trans hsubscribed)]
  rw [hnote]
  exact { h with
    signals_eq := by
      rw [h.signals_eq]
      simp [World.signals, hposted, decode]
    unsubscribed := fun hnot => absurd (hsubscribed.symm.trans hnot) Bool.noConfusion }

/-- Without a subscription the signal is lost to the client. -/
theorem Holds.miss (h : Holds ext bus capacity w l announced) (hsubscribed : w.subscribed = false)
    {varmap : VarMap Q} {posted : List (VarMap Q)} (hposted : w.posted = varmap :: posted) :
    Holds ext bus capacity { w with posted := posted } (l.note .emit) announced := by
  obtain ⟨hidle, hsent, hreceived, hanswers⟩ := h.unsubscribed hsubscribed
  have hsignals := h.signals_eq
  rw [World.signals, hreceived, hsent, hposted] at hsignals
  have hlt : l.missed < announced.length := by
    have hlength := congrArg List.length hsignals
    simp only [List.length_map, List.length_drop, List.length_append, List.length_cons] at hlength
    omega
  rw [List.drop_eq_getElem_cons hlt] at hsignals
  have hnote : l.note .emit = { l with missed := l.missed + 1 } := by
    rw [Ledger.note, h.subscribed_eq, hsubscribed, if_neg Bool.false_ne_true]
  have hcounts : l.counts = [] := by
    rw [← List.forall₂_nil_left_iff, ← hanswers]
    exact h.answers
  rw [hnote]
  exact { h with
    missed_le := hlt
    signals_eq := by
      rw [World.signals, hreceived, hsent]
      exact (List.cons.inj hsignals).2
    answers := by
      rw [hanswers, hcounts]
      exact .nil
    reply := fun reply hphase => nomatch hidle.symm.trans hphase }

theorem Holds.connect (h : Holds ext bus capacity w l announced) :
    Holds ext bus capacity { w with subscribed := true, phase := .waiting } (l.note .connect)
      announced where
  __ := h
  subscribed_eq := rfl
  reply := fun _ hphase => nomatch hphase
  unsubscribed := fun hnot => nomatch hnot

/-- The answer is made of all entries so far. -/
theorem Holds.answer (h : Holds ext bus capacity w l announced) (hphase : w.phase = .waiting)
    {reply : List (QVariantMap Q)} (hreply : entryMaps ext (w.buffer.search [] 100) = some reply) :
    Holds ext bus capacity { w with phase := .answered reply } (l.note .answer) announced where
  __ := h
  reply := by
    rintro _ ⟨⟩
    refine ⟨?_, Nat.le_refl _, ?_⟩
    · show l.missed ≤ l.entries.length
      rw [h.entries_eq, List.length_append]
      exact Nat.le_trans h.missed_le (Nat.le_add_right _ _)
    · rw [map_entryMaps hreply, LogBuffer.search_nil, h.keeps.items_eq, Ledger.note,
        List.take_length]
  unsubscribed := fun hnot =>
    nomatch (h.subscribed (.inl (by rw [hphase]; nofun))).symm.trans hnot

theorem Holds.logsQueried (h : Holds ext bus capacity w l announced) {reply : List (QVariantMap Q)}
    (hphase : w.phase = .answered reply) :
    Holds ext bus capacity { w with
        phase := .idle
        calls := w.calls ++ [.appendLogs (reply.map (onLogEntryReceived ext bus))] }
      (l.note .logsQueried) announced where
  __ := h
  signals_eq := by
    rw [Ledger.note, h.signals_eq]
    simp [World.signals, received_append, received]
  answers := by
    rw [answers_append]
    exact List.rel_append h.answers (.cons (h.reply reply hphase) .nil)
  reply := fun _ hidle => nomatch hidle
  unsubscribed := fun hnot =>
    nomatch (h.subscribed (.inl (by rw [hphase]; nofun))).symm.trans hnot

theorem Holds.queryFailed (h : Holds ext bus capacity w l announced) (hphase : w.phase ≠ .idle) :
    Holds ext bus capacity { w with phase := .idle } l announced where
  __ := h
  reply := fun _ hidle => nomatch hidle
  unsubscribed := fun hnot => nomatch (h.subscribed (.inl hphase)).symm.trans hnot

theorem Holds.handleSignal (h : Holds ext bus capacity w l announced) {m : QVariantMap Q}
    {sent : List (QVariantMap Q)} (hsent : w.sent = m :: sent) :
    Holds ext bus capacity { w with
        sent := sent, calls := w.calls ++ [.appendLog (onLogEntryReceived ext bus m)] }
      l announced where
  __ := h
  signals_eq := by
    rw [h.signals_eq]
    simp [World.signals, received_append, received, hsent]
  answers := by
    rw [answers_append]
    exact (List.append_nil (Subscription.answers w.calls)).symm ▸ h.answers
  unsubscribed := fun hnot =>
    nomatch (h.subscribed (.inr (by rw [hsent]; nofun))).symm.trans hnot

theorem Holds.clear (h : Holds ext bus capacity w l announced) :
    Holds ext bus capacity { w with calls := w.calls ++ [.clear] } l announced where
  __ := h
  signals_eq := by
    rw [h.signals_eq]
    simp [World.signals, received_append, received]
  answers := by
    rw [answers_append]
    exact (List.append_nil (Subscription.answers w.calls)).symm ▸ h.answers
  unsubscribed := by
    intro hnot
    obtain ⟨hidle, hsent, hreceived, hanswers⟩ := h.unsubscribed hnot
    refine ⟨hidle, hsent, ?_, ?_⟩
    · rw [received_append, hreceived]
      rfl
    · rw [answers_append, hanswers]
      rfl

theorem Holds.step (h : Holds ext bus capacity w l announced) {a : Action}
    (hstep : step ext bus w a = some w') :
    ∃ announced', Holds ext bus capacity w' (l.note a) announced' := by
  cases a with
  | push entry =>
      cases hpushed : w.pushed with
      | some _ => simp [Subscription.step, hpushed] at hstep
      | none =>
          simp only [Subscription.step, hpushed, Option.some.injEq] at hstep
          exact ⟨_, hstep ▸ h.push hpushed entry⟩
  | post =>
      cases hpushed : w.pushed with
      | none => simp [Subscription.step, hpushed] at hstep
      | some entry =>
          simp only [Subscription.step, hpushed] at hstep
          obtain ⟨varmap, hvarmap, hstep⟩ := Option.bind_eq_some_iff.mp hstep
          exact ⟨_, Option.some.inj hstep ▸ h.post hpushed hvarmap⟩
  | emit =>
      cases hposted : w.posted with
      | nil => simp [Subscription.step, hposted] at hstep
      | cons varmap posted =>
          simp only [Subscription.step, hposted] at hstep
          split at hstep
          · rename_i hsubscribed
            exact ⟨_, Option.some.inj hstep ▸ h.emit hsubscribed hposted⟩
          · rename_i hnot
            exact ⟨_, Option.some.inj hstep ▸ h.miss (Bool.not_eq_true _ ▸ hnot) hposted⟩
  | connect =>
      cases hphase : w.phase with
      | idle =>
          simp only [Subscription.step, hphase, Option.some.injEq] at hstep
          exact ⟨_, hstep ▸ h.connect⟩
      | _ => simp [Subscription.step, hphase] at hstep
  | answer =>
      cases hphase : w.phase with
      | waiting =>
          simp only [Subscription.step, hphase] at hstep
          obtain ⟨reply, hreply, hstep⟩ := Option.bind_eq_some_iff.mp hstep
          exact ⟨_, Option.some.inj hstep ▸ h.answer hphase hreply⟩
      | _ => simp [Subscription.step, hphase] at hstep
  | logsQueried =>
      cases hphase : w.phase with
      | answered reply =>
          simp only [Subscription.step, hphase, Option.some.injEq] at hstep
          exact ⟨_, hstep ▸ h.logsQueried hphase⟩
      | _ => simp [Subscription.step, hphase] at hstep
  | queryFailed =>
      cases hphase : w.phase with
      | idle => simp [Subscription.step, hphase] at hstep
      | _ =>
          simp only [Subscription.step, hphase, Option.some.injEq] at hstep
          exact ⟨_, hstep ▸ h.queryFailed (by rw [hphase]; nofun)⟩
  | handleSignal =>
      cases hphase : w.phase with
      | idle =>
          cases hsent : w.sent with
          | nil => simp [Subscription.step, hphase, hsent] at hstep
          | cons m sent =>
              simp only [Subscription.step, hphase, hsent, Option.some.injEq] at hstep
              have hnext := h.handleSignal hsent
              rw [hphase] at hnext
              exact ⟨_, hstep ▸ hnext⟩
      | _ => simp [Subscription.step, hphase] at hstep
  | clear =>
      cases hphase : w.phase with
      | idle =>
          simp only [Subscription.step, hphase, Option.some.injEq] at hstep
          have hnext := h.clear
          rw [hphase] at hnext
          exact ⟨_, hstep ▸ hnext⟩
      | _ => simp [Subscription.step, hphase] at hstep

theorem Holds.run (h : Holds ext bus capacity w l announced) {actions : List Action}
    (hrun : Transition.run (Subscription.step ext bus) w actions = some w') :
    ∃ announced', Holds ext bus capacity w' (actions.foldl Ledger.note l) announced' := by
  induction actions generalizing w l announced with
  | nil =>
      obtain rfl := Option.some.inj hrun
      exact ⟨announced, h⟩
  | cons a actions ih =>
      obtain ⟨u, hu, hrest⟩ := Transition.run_cons_eq_some.mp hrun
      obtain ⟨_, hnext⟩ := h.step hu
      exact ih hnext hrest

/-- The answer has the entries of its time that are recent enough. -/
theorem Answers.mem {count : Nat} {items : List (LogItem Q)}
    (h : Answers ext bus capacity entries count items) (hpos : 0 < capacity) {entry : LogEntry}
    {i : Nat} (hentry : entries[i]? = some entry) (hi : i < count)
    (hrecent : count ≤ i + min capacity 100) :
    ∃ item ∈ items, itemOf ext bus entry = some item := by
  obtain ⟨hcount, hitems⟩ := h
  have hkept : KeyedQueue.keepLast capacity (entries.take count) =
      (entries.take count).drop (count - capacity) := by
    rw [KeyedQueue.keepLast, KeyedQueue.excess, if_neg (Nat.ne_of_gt hpos), List.length_take,
      Nat.min_eq_left hcount]
  have hmem : entry ∈ (KeyedQueue.keepLast capacity (entries.take count)).reverse.take 100 := by
    rw [hkept, List.take_reverse, List.mem_reverse, List.drop_drop, List.length_drop,
      List.length_take, Nat.min_eq_left hcount]
    apply List.mem_of_getElem? (i := i - (count - capacity + (count - (count - capacity) - 100)))
    rw [List.getElem?_drop, List.getElem?_take_of_lt (by omega), ← hentry]
    congr 1
    omega
  have himage : itemOf ext bus entry ∈ items.map some := by
    rw [hitems]
    exact List.mem_map_of_mem hmem
  obtain ⟨item, hitem, heq⟩ := List.mem_map.mp himage
  exact ⟨item, hitem, heq.symm⟩

/-- The signals start before the entries of an answer end. -/
theorem Holds.no_gap (h : Holds ext bus capacity w l announced) {count : Nat}
    {items : List (LogItem Q)} (hanswers : Answers ext bus capacity l.entries count items)
    (hmissed : l.missed ≤ count) {entry : LogEntry} {i : Nat} (hentry : announced[i]? = some entry)
    (hrecent : count ≤ i + min capacity 100) :
    ∃ item ∈ items ++ w.signals ext bus, itemOf ext bus entry = some item := by
  by_cases hi : i < l.missed
  · have hlt := (List.getElem?_eq_some_iff.mp hentry).1
    have hsame : l.entries[i]? = some entry := by
      rw [h.entries_eq, List.getElem?_append_left hlt, hentry]
    obtain ⟨item, hitem, heq⟩ := hanswers.mem h.keeps.capacity_pos hsame
      (Nat.lt_of_lt_of_le hi hmissed) hrecent
    exact ⟨item, List.mem_append_left _ hitem, heq⟩
  · have hmem : entry ∈ announced.drop l.missed := by
      apply List.mem_of_getElem? (i := i - l.missed)
      rw [List.getElem?_drop, ← hentry]
      congr 1
      omega
    have himage : itemOf ext bus entry ∈ (w.signals ext bus).map some := by
      rw [← h.signals_eq]
      exact List.mem_map_of_mem hmem
    obtain ⟨item, hitem, heq⟩ := List.mem_map.mp himage
    exact ⟨item, List.mem_append_right _ hitem, heq.symm⟩

/-- In every run the signals that the client has handled, those it has still to handle and the
events of the daemon are together, in order, the entries whose callback has run but for as many as
the daemon took events before the first subscription. The answers are one for one, newest first,
the newest of the entries that had been pushed when each was made, at most a hundred and at most
the capacity; and no entry from the oldest of an answer on is missing from the answer and the
signals together. -/
theorem run_delivers (ext : External Q F) (bus : Bus Q) (capacity : Nat) {actions : List Action}
    {w : World Q} (hrun : Transition.run (step ext bus) (start capacity) actions = some w) :
    let kept := if capacity = 0 then 1 else capacity
    let told := ledger actions
    ∃ announced, told.entries = announced ++ w.pushed.toList ∧
      told.missed ≤ announced.length ∧
      (announced.drop told.missed).map (itemOf ext bus) = (w.signals ext bus).map some ∧
      List.Forall₂
        (fun items count => told.missed ≤ count ∧
          Answers ext bus kept told.entries count items ∧
          ∀ i entry, announced[i]? = some entry → count ≤ i + min kept 100 →
            ∃ item ∈ items ++ w.signals ext bus, itemOf ext bus entry = some item)
        (answers w.calls) told.counts := by
  intro kept told
  obtain ⟨announced, h⟩ := (start_holds ext bus capacity).run hrun
  refine ⟨announced, h.entries_eq, h.missed_le, h.signals_eq, h.answers.imp ?_⟩
  intro items count ⟨hmissed, hanswers⟩
  exact ⟨hmissed, hanswers, fun i entry hentry hrecent =>
    h.no_gap hanswers hmissed hentry hrecent⟩

/-- An entry from before the subscription, and one that is in the answer and comes by a signal
once more. -/
def overlap : List Action :=
  [.push { message := ascii "old" }, .post, .emit, .push { message := ascii "up" }, .post, .connect,
    .emit, .answer, .logsQueried, .handleSignal]

theorem run_delivers_overlap :
    let ext := Daemon.plainLibraries
    let bus := bytesBus []
    let told := ledger overlap
    told.missed = 1 ∧ told.counts = [2] ∧
    ∃ w, Transition.run (step ext bus) (start 2) overlap = some w ∧
      ∃ announced, told.entries = announced ++ w.pushed.toList ∧
        told.missed ≤ announced.length ∧
        (announced.drop told.missed).map (itemOf ext bus) = (w.signals ext bus).map some ∧
        List.Forall₂
          (fun items count => told.missed ≤ count ∧
            Answers ext bus 2 told.entries count items ∧
            ∀ i entry, announced[i]? = some entry → count ≤ i + min 2 100 →
              ∃ item ∈ items ++ w.signals ext bus, itemOf ext bus entry = some item)
          (answers w.calls) told.counts :=
  ⟨rfl, rfl, _, rfl, run_delivers Daemon.plainLibraries (bytesBus []) 2 rfl⟩

end Subscription

end LogMind
