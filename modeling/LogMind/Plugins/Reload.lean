import LogMind.Plugins.Lifetime

/-!
# What a reload leaves behind

`reload_plugins` waits for the lines in flight and then calls `unload_all`. The records
and the published snapshot let go of the plugins at once, and so does the caller when
`dropped` goes out of scope. The cache of the collectors keeps the snapshot of the last
line until the next line comes, so the plugins of that snapshot stay loaded.
-/

namespace LogMind

namespace PluginHost

/-- `load_plugin` has published the instance. -/
def Published (s : PluginHost) (i : Nat) : Prop := ∃ set ∈ s.sets, i ∈ set.all

/-- A plugin is loaded once: what is being loaded is in no snapshot yet. -/
structure Fresh (s : PluginHost) : Prop where
  nodup : s.loading.Nodup
  created : ∀ i ∈ s.loading, i < s.instances.length
  published : ∀ i, s.Published i → i < s.instances.length ∧ i ∉ s.loading

variable {s t : PluginHost} {i j : Nat}

theorem Sound.published_of_mem_loaded (h : s.Sound) (hi : i ∈ loaded s.records) :
    s.Published i := by
  have hall : i ∈ (s.setOf s.snapshot).all := by
    rw [h.published, buildSet_eq]
    exact hi
  have hlt : s.snapshot < s.sets.length := h.counted.lt_of_holds List.mem_cons_self
  refine ⟨s.setOf s.snapshot, ?_, hall⟩
  rw [setOf, List.getD_eq_getElem _ _ hlt]
  exact List.getElem_mem hlt

theorem Fresh.rebuild (h : s.Fresh)
    (hloaded : ∀ i ∈ loaded s.records, i < s.instances.length ∧ i ∉ s.loading) :
    s.rebuild.Fresh where
  nodup := h.nodup
  created := h.created
  published i hi := by
    obtain ⟨set, hset, hmem⟩ := hi
    rcases List.mem_append.mp hset with hset | hset
    · exact h.published i ⟨set, hset, hmem⟩
    · rw [List.mem_singleton.mp hset, buildSet_eq] at hmem
      exact hloaded i hmem

/-- A mutation of the records that adds none. -/
theorem Fresh.shrink (h : s.Fresh) (hs : s.Sound) {records : List Record}
    (hsub : loaded records ⊆ loaded s.records) (dropped : List (List Nat)) :
    (PluginHost.rebuild { s with records := records, dropped := dropped }).Fresh :=
  Fresh.rebuild ⟨h.nodup, h.created, h.published⟩ fun _ hi =>
    h.published _ (hs.published_of_mem_loaded (hsub hi))

theorem Fresh.load (h : s.Fresh) (plugin : LoadedPlugin) : (s.load plugin).Fresh := by
  unfold PluginHost.load
  split
  · exact h
  · have hnew : s.instances.length ∉ s.loading := fun hmem => Nat.lt_irrefl _ (h.created _ hmem)
    constructor
    · exact List.nodup_append.mpr ⟨h.nodup, List.pairwise_singleton _ _, fun i hi k hk heq =>
        hnew (List.mem_singleton.mp hk ▸ heq ▸ hi)⟩
    · intro i hi
      rw [List.length_append, List.length_singleton, Nat.lt_succ_iff_lt_or_eq]
      exact (List.mem_append.mp hi).imp (h.created i) List.mem_singleton.mp
    · intro i hi
      obtain ⟨hlt, hnot⟩ := h.published i hi
      constructor
      · rw [List.length_append, List.length_singleton]
        exact Nat.lt_succ_of_lt hlt
      · intro hmem
        rcases List.mem_append.mp hmem with hmem | hmem
        · exact hnot hmem
        · exact Nat.lt_irrefl _ (List.mem_singleton.mp hmem ▸ hlt)

theorem Fresh.publish (h : s.Fresh) (hs : s.Sound) {k : Nat} (hstep : s.publish k = some t) :
    t.Fresh := by
  obtain ⟨i, hi, rfl⟩ := Option.map_eq_some_iff.mp hstep
  obtain ⟨hk, rfl⟩ := List.getElem?_eq_some_iff.mp hi
  have hperm := List.getElem_cons_eraseIdx_perm hk
  have hnodup := List.nodup_cons.mp (hperm.nodup_iff.mpr h.nodup)
  have herase : s.loading.eraseIdx k ⊆ s.loading := fun _ hi => List.mem_of_mem_eraseIdx hi
  apply Fresh.rebuild
  · exact ⟨hnodup.2, fun i hi => h.created i (herase hi), fun i hi =>
      ⟨(h.published i hi).1, fun hmem => (h.published i hi).2 (herase hmem)⟩⟩
  · intro i hi
    rw [loaded_append] at hi
    rcases List.mem_append.mp hi with hi | hi
    · have hold := h.published i (hs.published_of_mem_loaded hi)
      exact ⟨hold.1, fun hmem => hold.2 (herase hmem)⟩
    · obtain rfl : i = s.loading[k] := by simpa [loaded] using hi
      exact ⟨h.created _ (List.getElem_mem hk), hnodup.1⟩

theorem Fresh.frame (h : s.Fresh) (hinstances : t.instances = s.instances)
    (hloading : t.loading = s.loading) (hsets : t.sets = s.sets) : t.Fresh := by
  constructor
  · rw [hloading]
    exact h.nodup
  · rw [hloading, hinstances]
    exact h.created
  · intro i hi
    unfold Published at hi
    rw [hloading, hinstances]
    rw [hsets] at hi
    exact h.published i hi

theorem openCache_frame (s : PluginHost) (j : Nat) :
    (s.openCache j).instances = s.instances ∧ (s.openCache j).loading = s.loading ∧
      (s.openCache j).sets = s.sets := by
  unfold openCache
  split
  · exact ⟨rfl, rfl, rfl⟩
  · cases s.cacheGeneration <;> exact ⟨rfl, rfl, rfl⟩

theorem Fresh.pick (h : s.Fresh) (c j : Nat) (source : Bytes) : (s.pick c j source).Fresh := by
  obtain ⟨hinstances, hloading, hsets⟩ := openCache_frame s j
  unfold PluginHost.pick
  simp only
  split
  · exact h.frame hinstances hloading hsets
  · exact h.frame hinstances hloading hsets

theorem step_fresh (h : s.Fresh) (hs : s.Sound) {a : Action} (hstep : s.step a = some t) :
    t.Fresh := by
  cases a with
  | load plugin => exact Option.some.inj hstep ▸ h.load plugin
  | recordFailure => exact Option.some.inj hstep ▸ h.frame rfl rfl rfl
  | publish k => exact h.publish hs hstep
  | unloadPlugin name =>
      rw [← Option.some.inj hstep]
      unfold PluginHost.unloadPlugin
      split
      · exact h
      · exact h.shrink hs ((List.eraseP_sublist.filterMap _).subset) _
  | unloadAll => exact Option.some.inj hstep ▸ h.shrink hs (List.nil_subset _) _
  | setEnabled name enabled =>
      rw [← Option.some.inj hstep]
      unfold PluginHost.setEnabled
      split
      · apply h.shrink hs _ s.dropped
        rw [loaded_enableFirst]
        exact List.Subset.refl _
      · exact h
  | release k =>
      obtain ⟨_, _, rfl⟩ := Option.map_eq_some_iff.mp hstep
      exact h.frame rfl rfl rfl
  | processRaw => exact Option.some.inj hstep ▸ h.frame rfl rfl rfl
  | processEntries => exact Option.some.inj hstep ▸ h.frame rfl rfl rfl
  | pick c =>
      simp only [step] at hstep
      split at hstep
      case h_1 j source _ => exact Option.some.inj hstep ▸ h.pick c j source
      case h_2 => cases hstep
  | parse c =>
      simp only [step] at hstep
      split at hstep
      case h_1 => exact Option.some.inj hstep ▸ h.frame rfl rfl rfl
      case h_2 => cases hstep
  | analyze c =>
      simp only [step] at hstep
      split at hstep
      case h_1 => exact Option.some.inj hstep ▸ h.frame rfl rfl rfl
      case h_2 => exact Option.some.inj hstep ▸ h.frame rfl rfl rfl
      case h_3 => cases hstep
  | alert c =>
      simp only [step] at hstep
      split at hstep
      case h_1 => exact Option.some.inj hstep ▸ h.frame rfl rfl rfl
      case h_2 => exact Option.some.inj hstep ▸ h.frame rfl rfl rfl
      case h_3 => cases hstep
  | skip c =>
      obtain ⟨_, _, rfl⟩ := Option.map_eq_some_iff.mp hstep
      exact h.frame rfl rfl rfl
  | finish c =>
      simp only [step] at hstep
      split at hstep
      case h_1 => exact Option.some.inj hstep ▸ h.frame rfl rfl rfl
      case h_2 => cases hstep

theorem fresh_init : Fresh {} where
  nodup := List.nodup_nil
  created i hi := absurd hi List.not_mem_nil
  published i hi := by
    obtain ⟨set, hset, hmem⟩ := hi
    rw [List.mem_singleton.mp hset] at hmem
    cases hmem

theorem run_fresh {actions : List Action} (hrun : Transition.run step {} actions = some s) :
    s.Sound ∧ s.Fresh :=
  @Transition.run_invariant _ _ step (fun s => s.Sound ∧ s.Fresh)
    (fun _ _ _ h hstep => ⟨step_sound h.1 hstep, step_fresh h.2 h.1 hstep⟩)
    _ _ _ ⟨sound_init, fresh_init⟩ hrun

/-- No line is processed since `unload_all`. `base` is the state before it. -/
structure Unloaded (base s : PluginHost) : Prop where
  calls : s.calls = []
  cacheGeneration : s.cacheGeneration = base.cacheGeneration
  setOf : ∀ j ∈ base.cacheGeneration, s.setOf j = base.setOf j
  old : ∀ i, base.Published i →
    i < s.instances.length ∧ i ∉ s.loading ∧ i ∉ loaded s.records

variable {base : PluginHost}

theorem Unloaded.rebuild (h : Unloaded base s) (hs : s.Sound) {records : List Record}
    {loading : List Nat} {dropped : List (List Nat)} (hloading : loading ⊆ s.loading)
    (hrecords : loaded records ⊆ loaded s.records ++ s.loading) :
    Unloaded base
      (PluginHost.rebuild { s with records := records, loading := loading, dropped := dropped })
    where
  calls := h.calls
  cacheGeneration := h.cacheGeneration
  setOf j hj := by
    have hheld : j ∈ s.setHolders := by
      simp only [setHolders, h.cacheGeneration, Option.mem_def.mp hj]
      simp
    exact (getD_append_of_lt _ (hs.counted.lt_of_holds hheld)).trans (h.setOf j hj)
  old i hi := by
    obtain ⟨hlt, hnotloading, hnotloaded⟩ := h.old i hi
    refine ⟨hlt, fun hmem => hnotloading (hloading hmem), fun hmem => ?_⟩
    exact (List.mem_append.mp (hrecords hmem)).elim hnotloaded hnotloading

theorem Unloaded.step (h : Unloaded base s) (hs : s.Sound) {a : Action}
    (hbegins : ¬ a.Begins) (hstep : s.step a = some t) : Unloaded base t := by
  have hnocall : ∀ c : Nat, s.calls[c]? = none := fun c => by
    rw [h.calls]
    rfl
  cases a with
  | load plugin =>
      rw [← Option.some.inj hstep]
      unfold PluginHost.load
      split
      · exact h
      · refine ⟨h.calls, h.cacheGeneration, h.setOf, fun i hi => ?_⟩
        obtain ⟨hlt, hnotloading, hnotloaded⟩ := h.old i hi
        refine ⟨?_, fun hmem => ?_, hnotloaded⟩
        · rw [List.length_append, List.length_singleton]
          exact Nat.lt_succ_of_lt hlt
        · rcases List.mem_append.mp hmem with hmem | hmem
          · exact hnotloading hmem
          · exact Nat.lt_irrefl _ (List.mem_singleton.mp hmem ▸ hlt)
  | recordFailure soPath error =>
      rw [← Option.some.inj hstep]
      refine ⟨h.calls, h.cacheGeneration, h.setOf, fun i hi => ?_⟩
      simpa [loaded] using h.old i hi
  | publish k =>
      obtain ⟨i, hi, rfl⟩ := Option.map_eq_some_iff.mp hstep
      apply h.rebuild hs (fun _ hmem => List.mem_of_mem_eraseIdx hmem)
      intro m hm
      rw [loaded_append] at hm
      refine List.mem_append.mpr ((List.mem_append.mp hm).imp id fun hm => ?_)
      obtain rfl : m = i := by simpa [loaded] using hm
      exact List.mem_of_getElem? hi
  | unloadPlugin name =>
      rw [← Option.some.inj hstep]
      unfold PluginHost.unloadPlugin
      split
      · exact h
      · exact h.rebuild hs (List.Subset.refl _) fun _ hm =>
          List.mem_append_left _ ((List.eraseP_sublist.filterMap _).subset hm)
  | unloadAll =>
      rw [← Option.some.inj hstep]
      exact h.rebuild hs (List.Subset.refl _) (List.nil_subset _)
  | setEnabled name enabled =>
      rw [← Option.some.inj hstep]
      unfold PluginHost.setEnabled
      split
      · apply h.rebuild hs (List.Subset.refl _)
        rw [loaded_enableFirst]
        exact List.subset_append_left _ _
      · exact h
  | release k =>
      obtain ⟨_, _, rfl⟩ := Option.map_eq_some_iff.mp hstep
      exact ⟨h.calls, h.cacheGeneration, h.setOf, h.old⟩
  | processRaw => exact absurd trivial hbegins
  | processEntries => exact absurd trivial hbegins
  | _ c =>
      simp only [PluginHost.step, hnocall c] at hstep
      cases hstep

theorem unloadAll_unloaded (hs : s.Sound) (hfresh : s.Fresh) (hcalls : s.calls = []) :
    Unloaded s s.unloadAll where
  calls := hcalls
  cacheGeneration := rfl
  setOf j hj := by
    have hheld : j ∈ s.setHolders := by
      simp only [setHolders, Option.mem_def.mp hj]
      simp
    exact getD_append_of_lt _ (hs.counted.lt_of_holds hheld)
  old i hi := by
    obtain ⟨hlt, hnot⟩ := hfresh.published i hi
    exact ⟨hlt, hnot, List.not_mem_nil⟩

/-- Only the cache and the unloads that have not returned still hold an old plugin. -/
theorem Unloaded.mem_destroyed_iff (h : Unloaded base t) (ht : t.Sound) (hi : base.Published i) :
    i ∈ t.plugins.destroyed ↔
      (∀ j ∈ base.cacheGeneration, i ∉ (base.setOf j).all) ∧
        ∀ plugins ∈ t.dropped, i ∉ plugins := by
  obtain ⟨hlt, hnotloading, hnotloaded⟩ := h.old i hi
  have hsnapshot : i ∉ (t.setOf t.snapshot).all := by
    rw [ht.published, buildSet_eq]
    exact hnotloaded
  have hlive : ∀ j, j ∈ t.setPool.live ↔ j = t.snapshot ∨ j ∈ base.cacheGeneration := by
    intro j
    rw [ht.counted.sets.mem_live]
    simp [setHolders, h.calls, h.cacheGeneration]
  have hholders : i ∈ t.pluginHolders ++ [] ↔
      (∃ j ∈ base.cacheGeneration, i ∈ (base.setOf j).all) ∨
        ∃ plugins ∈ t.dropped, i ∈ plugins := by
    simp only [pluginHolders, List.append_nil, List.mem_append, hnotloaded, hnotloading, or_false,
      false_or, List.mem_flatMap, List.mem_flatten]
    apply or_congr _ Iff.rfl
    constructor
    · rintro ⟨j, hj, hmem⟩
      rcases (hlive j).mp hj with rfl | hcached
      · exact absurd hmem hsnapshot
      · exact ⟨j, hcached, h.setOf j hcached ▸ hmem⟩
    · rintro ⟨j, hj, hmem⟩
      exact ⟨j, (hlive j).mpr (.inr hj), (h.setOf j hj).symm ▸ hmem⟩
  rw [ht.counted.plugins.mem_destroyed, hholders]
  simp only [hlt, true_and, not_or, not_exists, not_and]

/-- After `unload_all` has dropped the records, and as long as no line comes, every old
plugin is gone just when the cache of the collectors held none of them and nothing is
left to drop. -/
theorem reload_destroys_iff (before between : List Action) {s t : PluginHost}
    (hrun : Transition.run step {} before = some s) (hcalls : s.calls = [])
    (hbegins : ∀ a ∈ between, ¬ a.Begins)
    (hreload : Transition.run step s (.unloadAll :: between) = some t) :
    (∀ i, s.Published i → i ∈ t.plugins.destroyed) ↔
      (∀ j ∈ s.cacheGeneration, (s.setOf j).all = []) ∧
        ∀ plugins ∈ t.dropped, ∀ i ∈ plugins, ¬ s.Published i := by
  obtain ⟨hs, hfresh⟩ := run_fresh hrun
  obtain ⟨u, hu, hbetween⟩ := Transition.run_cons_eq_some.mp hreload
  obtain rfl : s.unloadAll = u := Option.some.inj hu
  obtain ⟨ht, h⟩ := @Transition.run_invariant_of_forall _ _ step (fun a => ¬ a.Begins)
    (fun u => u.Sound ∧ Unloaded s u)
    (fun _ _ _ hu hkind hstep => ⟨step_sound hu.1 hstep, hu.2.step hu.1 hkind hstep⟩)
    _ _ _ ⟨hs.unloadAll, unloadAll_unloaded hs hfresh hcalls⟩ hbegins hbetween
  have hcached : ∀ j ∈ s.cacheGeneration, ∀ i ∈ (s.setOf j).all, s.Published i := by
    intro j hj i hi
    have hlt : j < s.sets.length := hs.counted.lt_of_holds (by
      simp only [setHolders, Option.mem_def.mp hj]
      simp)
    refine ⟨s.setOf j, ?_, hi⟩
    rw [setOf, List.getD_eq_getElem _ _ hlt]
    exact List.getElem_mem hlt
  constructor
  · intro hall
    constructor
    · intro j hj
      apply List.eq_nil_iff_forall_not_mem.mpr
      intro i hi
      have hold := hcached j hj i hi
      exact ((h.mem_destroyed_iff ht hold).mp (hall i hold)).1 j hj hi
    · intro plugins hplugins i hi hold
      exact ((h.mem_destroyed_iff ht hold).mp (hall i hold)).2 plugins hplugins hi
  · rintro ⟨hempty, hdropped⟩ i hi
    apply (h.mem_destroyed_iff ht hi).mpr
    constructor
    · intro j hj
      rw [hempty j hj]
      exact List.not_mem_nil
    · exact fun plugins hplugins hmem => hdropped plugins hplugins i hmem hi

/-- A line that is processed to its end. -/
def oneLine : List Action :=
  [.load anySource, .publish 0, .processRaw (ascii "app.log"), .pick 0, .parse 0, .analyze 0,
    .alert 0, .finish 0]

/-- After the line and `unload_all` the old plugin is still there when the new one of the
same file comes. -/
theorem reload_keeps_the_cached_plugin : ∃ s t u : PluginHost,
    Transition.run step {} oneLine = some s ∧ s.calls.length = 0 ∧
      Transition.run step s [.unloadAll, .release 0] = some t ∧ t.dropped = [] ∧
      s.Published 0 ∧ 0 ∉ t.plugins.destroyed ∧
      t.step (.load anySource) = some u ∧ u.plugins.live = [1, 0] := by
  refine ⟨_, _, _, rfl, rfl, rfl, rfl, ⟨⟨[0], [0], [], []⟩, ?_, ?_⟩, ?_, rfl, rfl⟩
  · exact .tail _ (.head _)
  · exact .head _
  · exact List.not_mem_nil

/-- Without a line before it, `unload_all` takes the plugin away. -/
theorem reload_destroys_iff_no_line : ∃ s t : PluginHost,
    Transition.run step {} [.load anySource, .publish 0] = some s ∧
      Transition.run step s [.unloadAll, .release 0] = some t ∧
      ∀ i, s.Published i → i ∈ t.plugins.destroyed := by
  obtain ⟨s, t, hrun, hcalls, hcache, hreload, hdropped⟩ : ∃ s t : PluginHost,
      Transition.run step {} [.load anySource, .publish 0] = some s ∧ s.calls = [] ∧
        s.cacheGeneration = none ∧
        Transition.run step s [.unloadAll, .release 0] = some t ∧ t.dropped = [] :=
    ⟨_, _, rfl, rfl, rfl, rfl, rfl⟩
  refine ⟨s, t, hrun, hreload, ?_⟩
  apply (reload_destroys_iff [.load anySource, .publish 0] [.release 0] hrun hcalls (fun a ha => by
    rw [List.mem_singleton.mp ha]
    exact id) hreload).mpr
  rw [hcache, hdropped]
  exact ⟨fun _ hj => absurd hj (Option.not_mem_none _), fun _ hmem => absurd hmem List.not_mem_nil⟩

end PluginHost

end LogMind
