import LogMind.Watcher.Directory

/-!
# What the writers do

The queued events of a name tell its history: they lead from what the watcher has
seen of the name to what the directory holds. A step of a writer changes names and
contents, never what the watcher keeps, and queues the events of its change.
-/

namespace LogMind

namespace Directory

/-- Whether a name is there, before and after an event. -/
def presence (present : Bool) : EventKind → Option Bool
  | .modify => if present then some true else none
  | .create | .movedTo => if present then none else some true
  | .delete | .movedFrom => if present then some false else none

def eventsOf (name : Bytes) (queue : List Event) : List EventKind :=
  (queue.filter fun event => event.name = name).map Event.kind

theorem eventsOf_append (name : Bytes) (xs ys : List Event) :
    eventsOf name (xs ++ ys) = eventsOf name xs ++ eventsOf name ys := by
  rw [eventsOf, List.filter_append, List.map_append]
  rfl

/-- The step of a writer, as far as the watched names go. -/
structure Writes (matching : Bytes → Bool) (d e : Directory) : Prop where
  files : e.files = d.files
  phase : e.phase = d.phase
  emitted : e.emitted = d.emitted
  nextInode_le : d.nextInode ≤ e.nextInode
  contents : ∀ i < d.nextInode, d.contents i <+: e.contents i
  createdAs : ∀ i < d.nextInode, e.createdAs i = d.createdAs i
  names : ∀ name, matching name → ∀ i, e.names.lookup name = some i →
    d.names.lookup name = some i ∨ (d.nextInode ≤ i ∧ i < e.nextInode ∧ e.createdAs i = name)
  queue : if d.watched then
      ∀ name, matching name → ∃ new, eventsOf name e.queue = eventsOf name d.queue ++ new ∧
        Transition.run presence (d.names.lookup name).isSome new =
          some (e.names.lookup name).isSome
    else e.queue = d.queue

variable {matching : Bytes → Bool} {d e : Directory} {name target : Bytes} {inode : Nat}

/-- Queueing the events of a change completes the step of a writer. -/
theorem Writes.of_notify {events : List Event} (hwatched : e.watched = d.watched)
    (hqueue : e.queue = d.queue) (files : e.files = d.files) (phase : e.phase = d.phase)
    (emitted : e.emitted = d.emitted) (nextInode_le : d.nextInode ≤ e.nextInode)
    (contents : ∀ i < d.nextInode, d.contents i <+: e.contents i)
    (createdAs : ∀ i < d.nextInode, e.createdAs i = d.createdAs i)
    (names : ∀ name, matching name → ∀ i, e.names.lookup name = some i →
      d.names.lookup name = some i ∨ (d.nextInode ≤ i ∧ i < e.nextInode ∧ e.createdAs i = name))
    (hevents : ∀ name, matching name →
      Transition.run presence (d.names.lookup name).isSome (eventsOf name events) =
        some (e.names.lookup name).isSome) :
    Writes matching d (e.notify events) := by
  unfold notify
  cases hd : d.watched with
  | true =>
      rw [hd] at hwatched
      rw [if_pos hwatched]
      refine ⟨files, phase, emitted, nextInode_le, contents, createdAs, names, ?_⟩
      rw [hd, if_pos rfl]
      intro name hname
      refine ⟨eventsOf name events, ?_, hevents name hname⟩
      show eventsOf name (e.queue ++ events) = _
      rw [eventsOf_append, hqueue]
  | false =>
      rw [hd] at hwatched
      rw [if_neg (by rw [hwatched]; exact Bool.false_ne_true)]
      refine ⟨files, phase, emitted, nextInode_le, contents, createdAs, names, ?_⟩
      rw [hd, if_neg Bool.false_ne_true]
      exact hqueue

theorem run_presence_modify (kinds : List EventKind) (h : ∀ kind ∈ kinds, kind = .modify) :
    Transition.run presence true kinds = some true := by
  induction kinds with
  | nil => rfl
  | cons kind kinds ih =>
      refine Transition.run_cons_eq_some.mpr
        ⟨true, ?_, ih fun k hk => h k (List.mem_cons_of_mem _ hk)⟩
      rw [h kind List.mem_cons_self]
      rfl

theorem mem_namesOf : name ∈ d.namesOf inode ↔ d.names.lookup name = some inode := by
  unfold namesOf
  rw [← Option.mem_def, AList.mem_lookup_iff, List.mem_map]
  constructor
  · rintro ⟨⟨n, i⟩, hentry, rfl⟩
    obtain ⟨hmem, hi⟩ := List.mem_filter.mp hentry
    obtain rfl : i = inode := by simpa using hi
    exact hmem
  · intro hmem
    exact ⟨⟨name, inode⟩, List.mem_filter.mpr ⟨hmem, by simp⟩, rfl⟩

theorem append_writes {bytes : Bytes} (h : d.append inode bytes = some e) :
    Writes matching d e := by
  unfold append at h
  split at h
  case isFalse => exact nomatch h
  case isTrue hlt =>
    rw [← Option.some.inj h]
    refine Writes.of_notify rfl rfl rfl rfl rfl le_rfl ?_ (fun _ _ => rfl)
      (fun _ _ _ hi => .inl hi) ?_
    · intro i _
      show d.contents i <+: Function.update d.contents inode (d.contents inode ++ bytes) i
      by_cases hi : i = inode
      · rw [hi, Function.update_self]
        exact List.prefix_append _ _
      · have hsame :
            Function.update d.contents inode (d.contents inode ++ bytes) i = d.contents i :=
          Function.update_of_ne hi ..
        exact hsame ▸ List.prefix_refl _
    · intro name _
      show Transition.run presence (d.names.lookup name).isSome
        (eventsOf name ((d.namesOf inode).map fun name => ⟨.modify, name⟩)) =
          some (d.names.lookup name).isSome
      have hmodify : ∀ kind ∈ eventsOf name ((d.namesOf inode).map fun name => ⟨.modify, name⟩),
          kind = EventKind.modify ∧ d.names.lookup name = some inode := by
        intro kind hkind
        obtain ⟨event, hevent, rfl⟩ := List.mem_map.mp hkind
        obtain ⟨hmem, hname⟩ := List.mem_filter.mp hevent
        obtain ⟨n, hn, rfl⟩ := List.mem_map.mp hmem
        obtain rfl : n = name := by simpa using hname
        exact ⟨rfl, mem_namesOf.mp hn⟩
      cases hkinds : eventsOf name ((d.namesOf inode).map fun name => ⟨.modify, name⟩) with
      | nil => rfl
      | cons kind kinds =>
          rw [hkinds] at hmodify
          rw [(hmodify kind List.mem_cons_self).2]
          exact run_presence_modify _ fun k hk => (hmodify k hk).1

theorem eventsOf_singleton (kind : EventKind) :
    eventsOf name [⟨kind, name⟩] = [kind] := by
  simp [eventsOf]

theorem eventsOf_singleton_ne {other : Bytes} (kind : EventKind) (h : name ≠ other) :
    eventsOf other [⟨kind, name⟩] = [] := by
  simp [eventsOf, h]

/-- A name goes, and one event says so. -/
theorem erase_presence {events : List Event} {names : AList fun _ : Bytes => Nat}
    (hlookup : d.names.lookup name = some inode) {other : Bytes}
    (hself : other = name → names.lookup other = none ∧
      (eventsOf other events = [.delete] ∨ eventsOf other events = [.movedFrom]))
    (hother : other ≠ name → names.lookup other = d.names.lookup other ∧
      eventsOf other events = []) :
    Transition.run presence (d.names.lookup other).isSome (eventsOf other events) =
      some (names.lookup other).isSome := by
  by_cases h : other = name
  · obtain ⟨hnone, hevents | hevents⟩ := hself h
    all_goals
      rw [hnone, hevents, h, hlookup]
      rfl
  · obtain ⟨hsame, hevents⟩ := hother h
    rw [hsame, hevents]
    rfl

theorem delete_writes (h : d.delete name = some e) : Writes matching d e := by
  unfold delete at h
  obtain ⟨inode, hlookup, rfl⟩ := Option.map_eq_some_iff.mp h
  refine Writes.of_notify rfl rfl rfl rfl rfl le_rfl (fun _ _ => List.prefix_refl _)
    (fun _ _ => rfl) (fun other _ i hi => ?_) fun other _ => ?_
  · change (d.names.erase name).lookup other = some i at hi
    by_cases hother : other = name
    · rw [hother, AList.lookup_erase] at hi
      exact nomatch hi
    · rw [AList.lookup_erase_ne hother] at hi
      exact .inl hi
  · refine erase_presence hlookup (fun hother => ?_) fun hother => ?_
    · subst hother
      exact ⟨AList.lookup_erase .., .inl (eventsOf_singleton _)⟩
    · exact ⟨AList.lookup_erase_ne hother, eventsOf_singleton_ne _ (Ne.symm hother)⟩

theorem rename_writes (h : d.rename matching name target = some e) : Writes matching d e := by
  unfold rename at h
  split at h
  case isTrue => exact nomatch h
  case isFalse htarget =>
    obtain ⟨inode, hlookup, rfl⟩ := Option.map_eq_some_iff.mp h
    have hne : ∀ other, matching other → other ≠ target := by
      rintro other hother rfl
      exact htarget hother
    have hlook : ∀ other, matching other →
        ((d.names.erase name).insert target inode).lookup other =
          (d.names.erase name).lookup other :=
      fun other hother => AList.lookup_insert_ne (hne other hother)
    have hmoved : ∀ other, matching other →
        eventsOf other [⟨.movedFrom, name⟩, ⟨.movedTo, target⟩] =
          eventsOf other [⟨.movedFrom, name⟩] := by
      intro other hother
      rw [show [(⟨.movedFrom, name⟩ : Event), ⟨.movedTo, target⟩] =
        [⟨.movedFrom, name⟩] ++ [⟨.movedTo, target⟩] from rfl, eventsOf_append,
        eventsOf_singleton_ne .movedTo (hne other hother).symm, List.append_nil]
    refine Writes.of_notify rfl rfl rfl rfl rfl le_rfl (fun _ _ => List.prefix_refl _)
      (fun _ _ => rfl) (fun other hmatch i hi => ?_) fun other hmatch => ?_
    · change ((d.names.erase name).insert target inode).lookup other = some i at hi
      rw [hlook other hmatch] at hi
      by_cases hother : other = name
      · rw [hother, AList.lookup_erase] at hi
        exact nomatch hi
      · rw [AList.lookup_erase_ne hother] at hi
        exact .inl hi
    · refine erase_presence hlookup (fun hother => ?_) fun hother => ?_
      · rw [hmoved other hmatch]
        refine ⟨(hlook other hmatch).trans (by rw [hother, AList.lookup_erase]), .inr ?_⟩
        rw [hother, eventsOf_singleton]
      · rw [hmoved other hmatch]
        exact ⟨(hlook other hmatch).trans (AList.lookup_erase_ne hother),
          eventsOf_singleton_ne _ (Ne.symm hother)⟩

theorem create_writes (h : d.create name = some e) : Writes matching d e := by
  unfold create at h
  split at h
  case isTrue => exact nomatch h
  case isFalse hnew =>
    have hnone : d.names.lookup name = none := by simpa using hnew
    rw [← Option.some.inj h]
    refine Writes.of_notify rfl rfl rfl rfl rfl (Nat.le_succ _) (fun i hi => ?_) (fun i hi => ?_)
      (fun other _ i hi => ?_) fun other _ => ?_
    · have hsame : Function.update d.contents d.nextInode [] i = d.contents i :=
        Function.update_of_ne (Nat.ne_of_lt hi) ..
      show d.contents i <+: Function.update d.contents d.nextInode [] i
      exact hsame ▸ List.prefix_refl _
    · show Function.update d.createdAs d.nextInode name i = _
      rw [Function.update_of_ne (Nat.ne_of_lt hi)]
    · change (d.names.insert name d.nextInode).lookup other = some i at hi
      by_cases hother : other = name
      · rw [hother, AList.lookup_insert] at hi
        obtain rfl := Option.some.inj hi
        refine .inr ⟨le_rfl, Nat.lt_succ_self _, ?_⟩
        show Function.update d.createdAs d.nextInode name d.nextInode = other
        rw [Function.update_self, hother]
      · rw [AList.lookup_insert_ne hother] at hi
        exact .inl hi
    · show Transition.run presence (d.names.lookup other).isSome
          (eventsOf other [⟨.create, name⟩]) =
        some ((d.names.insert name d.nextInode).lookup other).isSome
      by_cases hother : other = name
      · rw [hother, hnone, eventsOf_singleton, AList.lookup_insert]
        rfl
      · rw [AList.lookup_insert_ne hother, eventsOf_singleton_ne _ (Ne.symm hother)]
        rfl

end Directory

end LogMind
