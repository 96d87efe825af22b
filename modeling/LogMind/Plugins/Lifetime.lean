import Mathlib.Data.List.GetD
import Mathlib.Data.List.Perm.Basic
import LogMind.Plugins.PluginLoader

/-!
# Plugins are destroyed behind the last call

A plugin is held by its record, by every snapshot that exists, by a load that has not
pushed its record and by an unload that has not dropped it. A snapshot is held by
`m_snapshot`, by the cache of the collectors and by every call. `Counted` says that the
pools count exactly these; a step moves a pointer from one of them to another, and `ps`
and `ss` are the pointers that it has in hand. `Linked` says that every raw pointer is
into the snapshot that is held beside it.
-/

namespace LogMind

/-- The plugins that a call has pointers to and has still to call. -/
def CallPhase.targets : CallPhase → List Nat
  | .picking _ => []
  | .parsing collector => collector.toList
  | .analyzing rest => rest
  | .alerting rest => rest
  | .finishing => []

namespace PluginHost

/-- The enabled plugins of a kind, in the order of their records. -/
def enabledPlugins (instances : List LoadedPlugin) (kind : LoadedPlugin → Bool)
    (records : List Record) : List Nat :=
  (loaded (records.filter Record.enabled)).filter (is instances kind)

theorem loaded_append (records records' : List Record) :
    loaded (records ++ records') = loaded records ++ loaded records' := List.filterMap_append

theorem foldl_addRecord (instances : List LoadedPlugin) (records : List Record) (set : PluginSet) :
    records.foldl (addRecord instances) set =
      { all := set.all ++ loaded records
        collectors := set.collectors ++ enabledPlugins instances LoadedPlugin.isCollector records
        analyzers := set.analyzers ++ enabledPlugins instances LoadedPlugin.isAnalyzer records
        alerts := set.alerts ++ enabledPlugins instances LoadedPlugin.isAlert records } := by
  induction records generalizing set with
  | nil => simp [loaded, enabledPlugins]
  | cons r records ih =>
      rw [List.foldl_cons, ih]
      obtain ⟨plugin, soPath, error, enabled⟩ := r
      cases plugin with
      | none => cases enabled <;> simp [addRecord, loaded, enabledPlugins]
      | some i =>
          cases enabled with
          | false => simp [addRecord, loaded, enabledPlugins]
          | true =>
              cases hc : is instances LoadedPlugin.isCollector i <;>
                cases ha : is instances LoadedPlugin.isAnalyzer i <;>
                  cases hl : is instances LoadedPlugin.isAlert i <;>
                    simp [addRecord, loaded, enabledPlugins, hc, ha, hl]

/-- A snapshot lists every loaded plugin in `all` and the enabled ones by their kinds. -/
theorem buildSet_eq (instances : List LoadedPlugin) (records : List Record) :
    buildSet instances records =
      { all := loaded records
        collectors := enabledPlugins instances LoadedPlugin.isCollector records
        analyzers := enabledPlugins instances LoadedPlugin.isAnalyzer records
        alerts := enabledPlugins instances LoadedPlugin.isAlert records } := by
  simp [buildSet, foldl_addRecord]

theorem enabledPlugins_subset (instances : List LoadedPlugin) (kind : LoadedPlugin → Bool)
    (records : List Record) : enabledPlugins instances kind records ⊆ loaded records := by
  intro i hi
  obtain ⟨r, hr, hplugin⟩ := List.mem_filterMap.mp (List.mem_of_mem_filter hi)
  exact List.mem_filterMap.mpr ⟨r, List.mem_of_mem_filter hr, hplugin⟩

/-- A later plugin does not change what a plugin is. -/
theorem is_append_of_lt {instances : List LoadedPlugin} (kind : LoadedPlugin → Bool)
    (plugin : LoadedPlugin) {i : Nat} (hi : i < instances.length) :
    is (instances ++ [plugin]) kind i = is instances kind i := by
  unfold is
  rw [List.getElem?_append_left hi]

theorem enabledPlugins_append_of_lt {instances : List LoadedPlugin} (kind : LoadedPlugin → Bool)
    (plugin : LoadedPlugin) {records : List Record}
    (hrecords : ∀ i ∈ loaded records, i < instances.length) :
    enabledPlugins (instances ++ [plugin]) kind records =
      enabledPlugins instances kind records := by
  apply List.filter_congr
  intro i hi
  apply is_append_of_lt
  obtain ⟨r, hr, hplugin⟩ := List.mem_filterMap.mp hi
  exact hrecords i (List.mem_filterMap.mpr ⟨r, List.mem_of_mem_filter hr, hplugin⟩)

theorem buildSet_append_of_lt {instances : List LoadedPlugin} (plugin : LoadedPlugin)
    {records : List Record} (hrecords : ∀ i ∈ loaded records, i < instances.length) :
    buildSet (instances ++ [plugin]) records = buildSet instances records := by
  simp [buildSet_eq, enabledPlugins_append_of_lt _ plugin hrecords]

theorem loaded_enableFirst (named : Record → Bool) (enabled : Bool) (records : List Record) :
    loaded (enableFirst named enabled records) = loaded records := by
  induction records with
  | nil => rfl
  | cons r records ih =>
      unfold enableFirst
      split
      · rfl
      · simp only [loaded, List.filterMap_cons] at ih ⊢
        rw [ih]

/-- The plugin of the record that is erased is the one that is dropped. -/
theorem loaded_perm_eraseP {named : Record → Bool} {records : List Record} {r : Record}
    (hr : records.find? named = some r) :
    (loaded records).Perm (r.plugin.toList ++ loaded (records.eraseP named)) := by
  induction records with
  | nil => cases hr
  | cons r' records ih =>
      rw [List.find?_cons] at hr
      split at hr
      case h_1 hnamed =>
        cases hr
        rw [List.eraseP_cons_of_pos hnamed]
        cases hplugin : r.plugin <;> simp [loaded, hplugin]
      case h_2 hnamed =>
        rw [List.eraseP_cons_of_neg (by simp [hnamed])]
        cases hplugin : r'.plugin with
        | none => simpa [loaded, hplugin] using ih hr
        | some i =>
            simp only [loaded, List.filterMap_cons, hplugin]
            exact ((ih hr).cons i).trans List.perm_middle.symm

/-- Whose plugins are pointed to, once for every pointer. -/
def pluginHolders (s : PluginHost) : List Nat :=
  loaded s.records ++ s.setPool.live.flatMap (fun j => (s.setOf j).all) ++ s.loading ++
    s.dropped.flatten

def setHolders (s : PluginHost) : List Nat :=
  s.snapshot :: (s.cacheGeneration.toList ++ s.calls.map PluginCall.plugins)

/-- The counts are those of the pointers in the state and of those in hand. -/
structure Counted (s : PluginHost) (ps ss : List Nat) : Prop where
  plugins : s.plugins.Sound (· < s.instances.length) (s.pluginHolders ++ ps)
  sets : s.setPool.Sound (· < s.sets.length) (s.setHolders ++ ss)

variable {s t : PluginHost} {ps ss : List Nat} {i j : Nat}

theorem Counted.mem_live (h : s.Counted ps ss) (hj : j ∈ s.setHolders) : j ∈ s.setPool.live :=
  (h.sets.mem_live j).mpr (List.mem_append_left ss hj)

theorem Counted.lt_of_holds (h : s.Counted ps ss) (hj : j ∈ s.setHolders) : j < s.sets.length :=
  h.sets.held j (List.mem_append_left ss hj)

/-- A plugin of a snapshot that somebody holds has not been destroyed. -/
theorem Counted.not_destroyed (h : s.Counted ps ss) (hj : j ∈ s.setHolders)
    (hi : i ∈ (s.setOf j).all) : i ∉ s.plugins.destroyed := by
  apply h.plugins.not_destroyed
  have hset : i ∈ s.setPool.live.flatMap fun j => (s.setOf j).all :=
    List.mem_flatMap.mpr ⟨j, h.mem_live hj, hi⟩
  simp [pluginHolders, hset]

theorem Counted.releaseSet (h : s.Counted ps (j :: ss)) : (s.releaseSet j).Counted ps ss where
  plugins := by
    have hmem : j ∈ s.setPool.live :=
      (h.sets.mem_live j).mpr (List.mem_append_right _ List.mem_cons_self)
    show (if s.setPool.refs j = 1 then s.plugins.releaseAll (s.setOf j).all
      else s.plugins).Sound _ _
    by_cases hlast : s.setPool.refs j = 1
    · rw [if_pos hlast]
      apply RefCount.Pool.Sound.releaseAll
      apply h.plugins.perm
      have hlive : (s.releaseSet j).setPool.live = s.setPool.live.erase j := by
        simp [PluginHost.releaseSet, RefCount.Pool.release, hlast]
      have hperm := (List.perm_cons_erase hmem).flatMap_right fun j => (s.setOf j).all
      rw [List.perm_iff_count] at hperm ⊢
      intro k
      have hk := hperm k
      simp only [pluginHolders, hlive, List.count_append, List.flatMap_cons] at hk ⊢
      show _ = _ + ((loaded s.records).count k +
        ((s.setPool.live.erase j).flatMap fun j => (s.setOf j).all).count k + s.loading.count k +
        s.dropped.flatten.count k + ps.count k)
      omega
    · rw [if_neg hlast]
      have hlive : (s.releaseSet j).setPool.live = s.setPool.live := by
        simp [PluginHost.releaseSet, RefCount.Pool.release, hlast]
      have hholders : (s.releaseSet j).pluginHolders = s.pluginHolders := by
        unfold pluginHolders
        rw [hlive]
        rfl
      rw [hholders]
      exact h.plugins
  sets := (h.sets.perm List.perm_middle).release

/-- Pointers move between the places that hold them. -/
theorem Counted.move {ps' ss' : List Nat} (h : s.Counted ps ss)
    (hinstances : t.instances = s.instances) (hplugins : t.plugins = s.plugins)
    (hsets : t.sets = s.sets) (hpool : t.setPool = s.setPool)
    (hps : (s.pluginHolders ++ ps).Perm (t.pluginHolders ++ ps'))
    (hss : (s.setHolders ++ ss).Perm (t.setHolders ++ ss')) : t.Counted ps' ss' := by
  constructor
  · rw [hinstances, hplugins]
    exact h.plugins.perm hps
  · rw [hsets, hpool]
    exact h.sets.perm hss

/-- A new snapshot does not change the old ones. -/
theorem getD_append_of_lt (set : PluginSet) (hj : j < s.sets.length) :
    (s.sets ++ [set]).getD j {} = s.setOf j := List.getD_append s.sets [set] {} j hj

theorem Counted.rebuild (h : s.Counted ps ss) : s.rebuild.Counted ps ss := by
  apply Counted.releaseSet
  constructor
  · have hall : (buildSet s.instances s.records).all = loaded s.records := by rw [buildSet_eq]
    have hloaded : ∀ i ∈ loaded s.records, i ∈ s.pluginHolders ++ ps := by
      intro i hi
      simp [pluginHolders, hi]
    have hacquired := h.plugins.acquireAll hloaded
    show (s.plugins.acquireAll (buildSet s.instances s.records).all).Sound _ _
    rw [hall]
    apply hacquired.perm
    have hold : s.setPool.live.flatMap
        (fun j => ((s.sets ++ [buildSet s.instances s.records]).getD j {}).all) =
          s.setPool.live.flatMap fun j => (s.setOf j).all := by
      apply List.flatMap_congr
      intro j hj
      rw [getD_append_of_lt _ (h.sets.held j ((h.sets.mem_live j).mp hj))]
    have hnew : (s.sets ++ [buildSet s.instances s.records]).getD s.sets.length {} =
        buildSet s.instances s.records := by simp
    rw [List.perm_iff_count]
    intro k
    simp only [pluginHolders, PluginHost.setOf, RefCount.Pool.allocate, List.flatMap_cons,
      List.count_append, hold, hnew, hall]
    omega
  · have hcreated : (fun i => i < s.sets.length ∨ i = s.sets.length) =
        (· < (s.sets ++ [buildSet s.instances s.records]).length) := by
      funext i
      rw [List.length_append, List.length_singleton, Nat.lt_succ_iff_lt_or_eq]
    have hallocated := h.sets.allocate (Nat.lt_irrefl s.sets.length)
    rw [hcreated] at hallocated
    exact hallocated.perm (List.perm_middle.symm.cons s.sets.length)

/-- Every raw pointer is into the snapshot that is held beside it. -/
structure Linked (s : PluginHost) : Prop where
  kinds : ∀ set ∈ s.sets,
    set.collectors ⊆ set.all ∧ set.analyzers ⊆ set.all ∧ set.alerts ⊆ set.all
  calls : ∀ call ∈ s.calls, call.phase.targets ⊆ (s.setOf call.plugins).all
  cached : ∀ entry ∈ s.collectorCache, ∀ i ∈ entry.2,
    ∃ j ∈ s.cacheGeneration, i ∈ (s.setOf j).all

theorem Linked.kinds_setOf (h : s.Linked) (j : Nat) :
    (s.setOf j).collectors ⊆ (s.setOf j).all ∧ (s.setOf j).analyzers ⊆ (s.setOf j).all ∧
      (s.setOf j).alerts ⊆ (s.setOf j).all := by
  unfold setOf
  by_cases hj : j < s.sets.length
  · rw [List.getD_eq_getElem _ _ hj]
    exact h.kinds _ (List.getElem_mem hj)
  · rw [List.getD_eq_default _ _ (Nat.le_of_not_lt hj)]
    simp

theorem Linked.rebuild (h : s.Linked) (hcounted : s.Counted ps ss) : s.rebuild.Linked where
  kinds set hset := by
    rcases List.mem_append.mp hset with hset | hset
    · exact h.kinds set hset
    · rw [List.mem_singleton.mp hset, buildSet_eq]
      exact ⟨enabledPlugins_subset _ _ _, enabledPlugins_subset _ _ _,
        enabledPlugins_subset _ _ _⟩
  calls call hcall := by
    have hheld : call.plugins ∈ s.setHolders := by
      simp only [setHolders, List.mem_cons, List.mem_append, List.mem_map]
      exact .inr (.inr ⟨call, hcall, rfl⟩)
    show call.phase.targets ⊆ ((s.sets ++ [_]).getD call.plugins {}).all
    rw [getD_append_of_lt _ (hcounted.lt_of_holds hheld)]
    exact h.calls call hcall
  cached entry hentry i hi := by
    obtain ⟨j, hj, hmem⟩ := h.cached entry hentry i hi
    have hheld : j ∈ s.setHolders := by
      simp only [setHolders, List.mem_cons, List.mem_append, Option.mem_toList]
      exact .inr (.inl hj)
    refine ⟨j, hj, ?_⟩
    show i ∈ ((s.sets ++ [_]).getD j {}).all
    rw [getD_append_of_lt _ (hcounted.lt_of_holds hheld)]
    exact hmem

/-- What holds between two steps. -/
structure Sound (s : PluginHost) : Prop where
  counted : s.Counted [] []
  linked : s.Linked
  published : s.setOf s.snapshot = buildSet s.instances s.records

theorem rebuild_published (s : PluginHost) :
    s.rebuild.setOf s.rebuild.snapshot = buildSet s.rebuild.instances s.rebuild.records := by
  show (s.sets ++ [buildSet s.instances s.records]).getD s.sets.length {} = _
  simp [rebuild, releaseSet]

/-- A mutation may move pointers as it likes; then it publishes a new snapshot. -/
theorem Sound.of_rebuild (hcounted : s.Counted [] []) (hlinked : s.Linked) : s.rebuild.Sound where
  counted := hcounted.rebuild
  linked := hlinked.rebuild hcounted
  published := s.rebuild_published

theorem Sound.lt_of_mem_loaded (h : s.Sound) (hi : i ∈ loaded s.records) :
    i < s.instances.length := h.counted.plugins.held i (by simp [pluginHolders, hi])

theorem Sound.load (h : s.Sound) (plugin : LoadedPlugin) : (s.load plugin).Sound := by
  unfold PluginHost.load
  split
  · exact h
  · refine ⟨⟨?_, h.counted.sets⟩, ⟨h.linked.kinds, h.linked.calls, h.linked.cached⟩, ?_⟩
    · have hcreated : (fun i => i < s.instances.length ∨ i = s.instances.length) =
          (· < (s.instances ++ [plugin]).length) := by
        funext i
        rw [List.length_append, List.length_singleton, Nat.lt_succ_iff_lt_or_eq]
      have hallocated := h.counted.plugins.allocate (Nat.lt_irrefl s.instances.length)
      rw [hcreated] at hallocated
      apply hallocated.perm
      rw [List.perm_iff_count]
      intro k
      simp only [pluginHolders, PluginHost.setOf, List.count_append, List.count_cons,
        List.count_nil]
      omega
    · show s.setOf s.snapshot = buildSet (s.instances ++ [plugin]) s.records
      rw [buildSet_append_of_lt plugin fun i hi => h.lt_of_mem_loaded hi]
      exact h.published

theorem Sound.recordFailure (h : s.Sound) (soPath error : Bytes) :
    Sound { s with
      records := s.records ++ [{ soPath := soPath, error := error, enabled := false }] } := by
  refine ⟨h.counted.move rfl rfl rfl rfl ?_ (List.Perm.refl _),
    ⟨h.linked.kinds, h.linked.calls, h.linked.cached⟩, ?_⟩
  · simp only [pluginHolders, PluginHost.setOf, loaded_append]
    simp [loaded]
  · show s.setOf s.snapshot = _
    rw [h.published, buildSet, buildSet, List.foldl_append]
    rfl

/-- A mutation moves plugins between the records, the loads and the unloads and then
publishes a new snapshot. -/
theorem Sound.mutate (h : s.Sound) {records : List Record} {loading : List Nat}
    {dropped : List (List Nat)}
    (hperm : (loaded s.records ++ s.loading ++ s.dropped.flatten).Perm
      (loaded records ++ loading ++ dropped.flatten)) :
    (rebuild { s with records := records, loading := loading, dropped := dropped }).Sound := by
  apply Sound.of_rebuild
  · refine h.counted.move rfl rfl rfl rfl ?_ (List.Perm.refl _)
    rw [List.perm_iff_count] at hperm ⊢
    intro k
    have hk := hperm k
    simp only [pluginHolders, PluginHost.setOf, List.count_append] at hk ⊢
    omega
  · exact ⟨h.linked.kinds, h.linked.calls, h.linked.cached⟩

theorem Sound.publish (h : s.Sound) {k : Nat} (hstep : s.publish k = some t) : t.Sound := by
  obtain ⟨i, hi, rfl⟩ := Option.map_eq_some_iff.mp hstep
  obtain ⟨hk, rfl⟩ := List.getElem?_eq_some_iff.mp hi
  apply h.mutate
  rw [loaded_append, List.append_assoc (loaded s.records) (loaded _)]
  exact (((List.getElem_cons_eraseIdx_perm hk).symm).append_left _).append_right _

theorem Sound.unloadPlugin (h : s.Sound) (name : Bytes) : (s.unloadPlugin name).Sound := by
  unfold PluginHost.unloadPlugin
  split
  case h_1 => exact h
  case h_2 r hr =>
    apply h.mutate
    have hperm := loaded_perm_eraseP hr
    rw [List.perm_iff_count] at hperm ⊢
    intro k
    have hk := hperm k
    simp only [List.count_append, List.flatten_append, List.flatten_singleton] at hk ⊢
    omega

theorem Sound.unloadAll (h : s.Sound) : s.unloadAll.Sound := by
  apply h.mutate
  rw [List.perm_iff_count]
  intro k
  have hnone : (loaded []).count k = 0 := rfl
  simp only [List.count_append, List.flatten_append, List.flatten_singleton, hnone]
  omega

theorem Sound.setEnabled (h : s.Sound) (name : Bytes) (enabled : Bool) :
    (s.setEnabled name enabled).Sound := by
  unfold PluginHost.setEnabled
  split
  · apply h.mutate
    rw [loaded_enableFirst]
  · exact h

theorem Sound.release (h : s.Sound) {k : Nat} (hstep : s.release k = some t) : t.Sound := by
  obtain ⟨plugins, hplugins, rfl⟩ := Option.map_eq_some_iff.mp hstep
  obtain ⟨hk, rfl⟩ := List.getElem?_eq_some_iff.mp hplugins
  refine ⟨⟨?_, h.counted.sets⟩, ⟨h.linked.kinds, h.linked.calls, h.linked.cached⟩, h.published⟩
  apply RefCount.Pool.Sound.releaseAll
  apply h.counted.plugins.perm
  have hperm := (List.getElem_cons_eraseIdx_perm hk).flatten
  rw [List.perm_iff_count] at hperm ⊢
  intro m
  have hm := hperm m
  simp only [pluginHolders, PluginHost.setOf, List.count_append, List.flatten_cons,
    List.append_nil] at hm ⊢
  omega

theorem map_plugins_modify (calls : List PluginCall) (c : Nat) (phase : CallPhase) :
    (calls.modify c fun call => { call with phase := phase }).map PluginCall.plugins =
      calls.map PluginCall.plugins := by
  apply List.ext_getElem?
  intro k
  rw [List.getElem?_map, List.getElem?_map, List.getElem?_modify]
  cases calls[k]? with
  | none => rfl
  | some call => by_cases hck : c = k <;> simp [hck]

theorem setHolders_setPhase (s : PluginHost) (c : Nat) (phase : CallPhase) :
    (s.setPhase c phase).setHolders = s.setHolders := by
  simp only [setHolders, setPhase, map_plugins_modify]

theorem mem_setHolders_of_call {c : Nat} {call : PluginCall} (hcall : s.calls[c]? = some call) :
    call.plugins ∈ s.setHolders := by
  simp only [setHolders, List.mem_cons, List.mem_append, List.mem_map]
  exact .inr (.inr ⟨call, List.mem_of_getElem? hcall, rfl⟩)

theorem Sound.setPhase (h : s.Sound) {c : Nat} {call : PluginCall} {phase : CallPhase}
    (hcall : s.calls[c]? = some call) (htargets : phase.targets ⊆ (s.setOf call.plugins).all) :
    (s.setPhase c phase).Sound where
  counted := h.counted.move rfl rfl rfl rfl (List.Perm.refl _)
    (List.Perm.of_eq (by rw [setHolders_setPhase]))
  linked := by
    refine ⟨h.linked.kinds, fun call' hcall' => ?_, h.linked.cached⟩
    obtain ⟨k, hk⟩ := List.mem_iff_getElem?.mp hcall'
    simp only [PluginHost.setPhase, List.getElem?_modify] at hk
    by_cases hck : c = k
    · subst hck
      rw [hcall] at hk
      obtain rfl : { call with phase := phase } = call' := by simpa using hk
      exact htargets
    · have hkeep : s.calls[k]? = some call' := by simpa [hck] using hk
      exact h.linked.calls call' (List.mem_of_getElem? hkeep)
  published := h.published

theorem Sound.begin_ (h : s.Sound) {phase : CallPhase}
    (htargets : phase.targets ⊆ (s.setOf s.snapshot).all) : (s.begin_ phase).Sound where
  counted := by
    refine ⟨h.counted.plugins, ?_⟩
    apply (h.counted.sets.acquire (k := s.snapshot) (by simp [setHolders])).perm
    rw [List.perm_iff_count]
    intro k
    simp only [setHolders, PluginHost.begin_, List.count_append, List.count_cons, List.map_append,
      List.map_cons, List.map_nil, List.count_nil]
    omega
  linked := by
    refine ⟨h.linked.kinds, fun call hcall => ?_, h.linked.cached⟩
    rcases List.mem_append.mp hcall with hcall | hcall
    · exact h.linked.calls call hcall
    · rw [List.mem_singleton.mp hcall]
      exact htargets
  published := h.published

theorem Sound.finish (h : s.Sound) {c : Nat} {call : PluginCall}
    (hcall : s.calls[c]? = some call) :
    (releaseSet { s with calls := s.calls.eraseIdx c } call.plugins).Sound where
  counted := by
    obtain ⟨hc, rfl⟩ := List.getElem?_eq_some_iff.mp hcall
    apply Counted.releaseSet
    refine h.counted.move rfl rfl rfl rfl (List.Perm.refl _) ?_
    have hperm := (List.getElem_cons_eraseIdx_perm hc).map PluginCall.plugins
    rw [List.perm_iff_count] at hperm ⊢
    intro k
    have hk := hperm k
    simp only [setHolders, List.count_append, List.count_cons, List.count_nil,
      List.map_cons] at hk ⊢
    omega
  linked := ⟨h.linked.kinds, fun call' hcall' => h.linked.calls call' (List.mem_of_mem_eraseIdx
    hcall'), h.linked.cached⟩
  published := h.published

/-- The cache holds the snapshot of the call from now on. -/
theorem openCache_cacheGeneration (s : PluginHost) (j : Nat) :
    (s.openCache j).cacheGeneration = some j := by
  unfold openCache
  split
  case isTrue heq => exact heq
  case isFalse => cases s.cacheGeneration <;> rfl

theorem openCache_calls (s : PluginHost) (j : Nat) : (s.openCache j).calls = s.calls := by
  unfold openCache
  split
  · rfl
  · cases s.cacheGeneration <;> rfl

theorem openCache_setOf (s : PluginHost) (j k : Nat) : (s.openCache j).setOf k = s.setOf k := by
  unfold openCache
  split
  · rfl
  · cases s.cacheGeneration <;> rfl

theorem Sound.openCache (h : s.Sound) (hj : j ∈ s.setHolders) : (s.openCache j).Sound := by
  have hpoint : ∀ call ∈ s.calls, call.phase.targets ⊆ (s.setOf call.plugins).all :=
    h.linked.calls
  have hacquired := h.counted.sets.acquire (List.mem_append_left [] hj)
  unfold PluginHost.openCache
  split
  case isTrue => exact h
  case isFalse =>
    have hcounted : Counted { s with
        setPool := s.setPool.acquire j
        cacheGeneration := some j
        collectorCache := [] } [] s.cacheGeneration.toList := by
      refine ⟨h.counted.plugins, hacquired.perm ?_⟩
      rw [List.perm_iff_count]
      intro k
      simp only [setHolders, List.count_append, List.count_cons, Option.toList_some,
        List.count_nil]
      omega
    split
    case h_1 hnone =>
      rw [hnone] at hcounted
      exact ⟨hcounted, ⟨h.linked.kinds, hpoint, fun _ hentry => absurd hentry List.not_mem_nil⟩,
        h.published⟩
    case h_2 old hold =>
      rw [hold] at hcounted
      exact ⟨hcounted.releaseSet,
        ⟨h.linked.kinds, hpoint, fun _ hentry => absurd hentry List.not_mem_nil⟩, h.published⟩

/-- The best collector is one of those that were asked. -/
theorem mem_of_bestCollector (s : PluginHost) (source : Bytes) (collectors : List Nat)
    (bestScore : Int) (best : Option Nat)
    (hi : i ∈ s.bestCollector source collectors bestScore best) : i ∈ collectors ∨ i ∈ best := by
  induction collectors generalizing bestScore best with
  | nil => exact .inr hi
  | cons k collectors ih =>
      simp only [bestCollector] at hi
      split at hi
      · rcases ih _ _ hi with hmem | hmem
        · exact .inl (List.mem_cons_of_mem k hmem)
        · rw [← Option.some.inj hmem]
          exact .inl List.mem_cons_self
      · exact (ih _ _ hi).imp (List.mem_cons_of_mem k) id

theorem mem_of_lookup_eq_some {cache : List (Bytes × Option Nat)} {source : Bytes}
    {best : Option Nat} (hlookup : cache.lookup source = some best) : (source, best) ∈ cache := by
  induction cache with
  | nil => cases hlookup
  | cons entry cache ih =>
      rw [List.lookup_cons] at hlookup
      split at hlookup
      case h_1 heq =>
        cases hlookup
        rw [eq_of_beq heq]
        exact List.mem_cons_self
      case h_2 => exact List.mem_cons_of_mem entry (ih hlookup)

theorem Sound.pick (h : s.Sound) {c : Nat} {source : Bytes}
    (hcall : s.calls[c]? = some ⟨j, .picking source⟩) : (s.pick c j source).Sound := by
  have hopen : (s.openCache j).Sound := h.openCache (mem_setHolders_of_call hcall)
  have hcall' : (s.openCache j).calls[c]? = some ⟨j, .picking source⟩ := by
    rw [openCache_calls]
    exact hcall
  unfold PluginHost.pick
  simp only
  split
  case h_1 best hbest =>
    apply hopen.setPhase hcall'
    intro i hi
    obtain ⟨k, hk, hmem⟩ := hopen.linked.cached _ (mem_of_lookup_eq_some hbest) i
      (Option.mem_toList.mp hi)
    rw [openCache_cacheGeneration] at hk
    rw [← Option.some.inj hk] at hmem
    exact hmem
  case h_2 =>
    have hbest : ∀ i ∈ (s.openCache j).bestCollector source ((s.openCache j).setOf j).collectors 0
        none, i ∈ ((s.openCache j).setOf j).all := by
      intro i hi
      rcases mem_of_bestCollector _ _ _ _ _ hi with hmem | hmem
      · exact (hopen.linked.kinds_setOf j).1 hmem
      · cases hmem
    have hcached : Sound { s.openCache j with
        collectorCache := (s.openCache j).collectorCache ++ [(source,
          (s.openCache j).bestCollector source ((s.openCache j).setOf j).collectors 0 none)] } := by
      refine ⟨hopen.counted.move rfl rfl rfl rfl (List.Perm.refl _) (List.Perm.refl _),
        ⟨hopen.linked.kinds, hopen.linked.calls, fun entry hentry i hi => ?_⟩, hopen.published⟩
      rcases List.mem_append.mp hentry with hentry | hentry
      · exact hopen.linked.cached entry hentry i hi
      · rw [List.mem_singleton.mp hentry] at hi
        exact ⟨j, openCache_cacheGeneration s j, hbest i hi⟩
    apply hcached.setPhase hcall'
    intro i hi
    exact hbest i (Option.mem_toList.mp hi)

theorem step_sound (h : s.Sound) {a : Action} (hstep : s.step a = some t) : t.Sound := by
  cases a with
  | load plugin => exact Option.some.inj hstep ▸ h.load plugin
  | recordFailure soPath error => exact Option.some.inj hstep ▸ h.recordFailure soPath error
  | publish k => exact h.publish hstep
  | unloadPlugin name => exact Option.some.inj hstep ▸ h.unloadPlugin name
  | unloadAll => exact Option.some.inj hstep ▸ h.unloadAll
  | setEnabled name enabled => exact Option.some.inj hstep ▸ h.setEnabled name enabled
  | release k => exact h.release hstep
  | processRaw source => exact Option.some.inj hstep ▸ h.begin_ (List.nil_subset _)
  | processEntries =>
      exact Option.some.inj hstep ▸ h.begin_ (h.linked.kinds_setOf s.snapshot).2.1
  | pick c =>
      simp only [step] at hstep
      split at hstep
      case h_1 j source hcall => exact Option.some.inj hstep ▸ h.pick hcall
      case h_2 => cases hstep
  | parse c =>
      simp only [step] at hstep
      split at hstep
      case h_1 j collector hcall =>
        exact Option.some.inj hstep ▸ h.setPhase hcall (h.linked.kinds_setOf j).2.1
      case h_2 => cases hstep
  | analyze c =>
      simp only [step] at hstep
      split at hstep
      case h_1 j i rest hcall =>
        have hrest := h.linked.calls _ (List.mem_of_getElem? hcall)
        exact Option.some.inj hstep ▸
          h.setPhase hcall fun _ hk => hrest (List.mem_cons_of_mem i hk)
      case h_2 j hcall =>
        exact Option.some.inj hstep ▸ h.setPhase hcall (h.linked.kinds_setOf j).2.2
      case h_3 => cases hstep
  | alert c =>
      simp only [step] at hstep
      split at hstep
      case h_1 j i rest hcall =>
        have hrest := h.linked.calls _ (List.mem_of_getElem? hcall)
        exact Option.some.inj hstep ▸
          h.setPhase hcall fun _ hk => hrest (List.mem_cons_of_mem i hk)
      case h_2 j hcall => exact Option.some.inj hstep ▸ h.setPhase hcall (List.nil_subset _)
      case h_3 => cases hstep
  | skip c =>
      obtain ⟨call, hcall, rfl⟩ := Option.map_eq_some_iff.mp hstep
      exact h.setPhase hcall (List.nil_subset _)
  | finish c =>
      simp only [step] at hstep
      split at hstep
      case h_1 j hcall => exact Option.some.inj hstep ▸ h.finish hcall
      case h_2 => cases hstep

theorem sound_init : Sound {} where
  counted := by
    constructor
    · exact ⟨fun _ => rfl, List.nodup_nil, fun _ => Iff.rfl, fun _ hk => absurd hk List.not_mem_nil,
        List.nodup_nil, fun k => ⟨fun hk => absurd hk List.not_mem_nil, fun hk =>
          absurd hk.1 (Nat.not_lt_zero k)⟩⟩
    · refine ⟨fun k => ?_, List.pairwise_singleton _ 0, fun _ => Iff.rfl, fun k hk => ?_,
        List.nodup_nil, fun k => ?_⟩
      · by_cases hk : k = 0 <;> simp [setHolders, hk, Ne.symm]
      · rw [List.mem_singleton.mp hk]
        exact Nat.one_pos
      · simp [setHolders]
  linked := by
    refine ⟨fun set hset => ?_, fun _ hcall => absurd hcall List.not_mem_nil,
      fun _ hentry => absurd hentry List.not_mem_nil⟩
    rw [List.mem_singleton.mp hset]
    exact ⟨List.nil_subset _, List.nil_subset _, List.nil_subset _⟩
  published := rfl

/-- What a step calls is in a snapshot that is held before and after it. -/
theorem exists_set_of_invoked (h : s.Sound) {a : Action} (hstep : s.step a = some t)
    (hi : i ∈ s.invoked a) :
    ∃ j ∈ s.setHolders, i ∈ (s.setOf j).all ∧ j ∈ t.setHolders ∧ i ∈ (t.setOf j).all := by
  have hphase : ∀ (c : Nat) (call : PluginCall) (phase : CallPhase), s.calls[c]? = some call →
      s.setPhase c phase = t → i ∈ call.phase.targets → ∃ j ∈ s.setHolders,
        i ∈ (s.setOf j).all ∧ j ∈ t.setHolders ∧ i ∈ (t.setOf j).all := by
    rintro c call phase hcall rfl hmem
    have hheld := mem_setHolders_of_call hcall
    have hall := h.linked.calls call (List.mem_of_getElem? hcall) hmem
    exact ⟨call.plugins, hheld, hall, (setHolders_setPhase s c phase).symm ▸ hheld, hall⟩
  cases a with
  | pick c =>
      simp only [step, invoked] at hstep hi
      split at hstep
      case h_1 j source hcall =>
        simp only [hcall] at hi
        split at hi
        case isTrue => cases hi
        case isFalse hmiss =>
          have hall := (h.linked.kinds_setOf j).1 hi
          have hnone : (s.openCache j).collectorCache.lookup source = none :=
            Option.not_isSome_iff_eq_none.mp hmiss
          have hopen : (s.openCache j).calls[c]? = some ⟨j, .picking source⟩ := by
            rw [openCache_calls]
            exact hcall
          refine ⟨j, mem_setHolders_of_call hcall, hall, ?_⟩
          rw [← Option.some.inj hstep]
          simp only [pick, hnone, setHolders_setPhase]
          exact ⟨mem_setHolders_of_call hopen, openCache_setOf s j j ▸ hall⟩
      case h_2 => cases hstep
  | parse c =>
      simp only [step, invoked] at hstep hi
      split at hstep
      case h_1 j collector hcall =>
        simp only [hcall] at hi
        exact hphase c _ _ hcall (Option.some.inj hstep) hi
      case h_2 => cases hstep
  | analyze c =>
      simp only [step, invoked] at hstep hi
      split at hstep
      case h_1 j k rest hcall =>
        simp only [hcall, List.mem_singleton] at hi
        exact hphase c _ _ hcall (Option.some.inj hstep) (hi ▸ List.mem_cons_self)
      case h_2 j hcall =>
        simp only [hcall] at hi
        cases hi
      case h_3 => cases hstep
  | alert c =>
      simp only [step, invoked] at hstep hi
      split at hstep
      case h_1 j k rest hcall =>
        simp only [hcall, List.mem_singleton] at hi
        exact hphase c _ _ hcall (Option.some.inj hstep) (hi ▸ List.mem_cons_self)
      case h_2 j hcall =>
        simp only [hcall] at hi
        cases hi
      case h_3 => cases hstep
  | _ => cases hi

theorem run_sound {actions : List Action} (hrun : Transition.run step {} actions = some s) :
    s.Sound :=
  Transition.run_invariant (fun _ _ _ h hstep => step_sound h hstep) sound_init hrun

/-- Whatever a step calls has not been destroyed, before the step and after it. A plugin is
destroyed once, and nobody who could call it holds it then. -/
theorem run_plugins_alive (actions : List Action)
    (hrun : Transition.run step {} actions = some s) :
    (∀ a t, s.step a = some t → ∀ i ∈ s.invoked a,
        i ∉ s.plugins.destroyed ∧ i ∉ t.plugins.destroyed) ∧
      s.plugins.destroyed.Nodup ∧
      (∀ i ∈ s.plugins.destroyed, i < s.instances.length ∧ i ∉ loaded s.records ∧
        i ∉ (s.setOf s.snapshot).all ∧ (∀ j ∈ s.cacheGeneration, i ∉ (s.setOf j).all) ∧
        ∀ call ∈ s.calls, i ∉ (s.setOf call.plugins).all) ∧
      s.setOf s.snapshot =
        { all := loaded s.records
          collectors := enabledPlugins s.instances LoadedPlugin.isCollector s.records
          analyzers := enabledPlugins s.instances LoadedPlugin.isAnalyzer s.records
          alerts := enabledPlugins s.instances LoadedPlugin.isAlert s.records } := by
  have h : s.Sound := run_sound hrun
  have hgone : ∀ i ∈ s.plugins.destroyed, ∀ j ∈ s.setHolders, i ∉ (s.setOf j).all :=
    fun i hi j hj hmem => h.counted.not_destroyed hj hmem hi
  refine ⟨fun a t hstep i hi => ?_, h.counted.plugins.destroyed_nodup, fun i hi => ?_, ?_⟩
  · obtain ⟨j, hj, hall, hj', hall'⟩ := exists_set_of_invoked h hstep hi
    exact ⟨h.counted.not_destroyed hj hall, (step_sound h hstep).counted.not_destroyed hj' hall'⟩
  · obtain ⟨hcreated, hnone⟩ := (h.counted.plugins.mem_destroyed i).mp hi
    refine ⟨hcreated, fun hmem => hnone (by simp [pluginHolders, hmem]), ?_, fun j hj => ?_,
      fun call hcall => ?_⟩
    · apply hgone i hi
      simp [setHolders]
    · apply hgone i hi
      simp [setHolders, Option.mem_def.mp hj]
    · apply hgone i hi
      simp only [setHolders, List.mem_cons, List.mem_append, List.mem_map]
      exact .inr (.inr ⟨call, hcall, rfl⟩)
  · rw [h.published, buildSet_eq]

/-- A collector for every source. -/
def anySource : LoadedPlugin where
  name := ascii "any"
  soPath := ascii "any.so"
  isCollector := true
  matchScore := fun _ => 1

/-- The collector is unloaded between `match` and `parse`. -/
def unloadBeforeParse : List Action :=
  [.load anySource, .publish 0, .processRaw (ascii "app.log"), .pick 0,
    .unloadPlugin (ascii "any"), .release 0]

theorem run_plugins_alive_unload : ∃ s t : PluginHost,
    Transition.run step {} unloadBeforeParse = some s ∧ s.records.length = 0 ∧
      s.step (.parse 0) = some t ∧ s.invoked (.parse 0) = [0] ∧ 0 ∉ t.plugins.destroyed := by
  obtain ⟨s, t, hrun, hrecords, hstep, hinvoked⟩ : ∃ s t : PluginHost,
      Transition.run step {} unloadBeforeParse = some s ∧ s.records.length = 0 ∧
        s.step (.parse 0) = some t ∧ s.invoked (.parse 0) = [0] := ⟨_, _, rfl, rfl, rfl, rfl⟩
  have halive := (run_plugins_alive unloadBeforeParse hrun).1 (.parse 0) t hstep 0
    (hinvoked ▸ List.mem_cons_self)
  exact ⟨s, t, hrun, hrecords, hstep, hinvoked, halive.2⟩

end PluginHost

end LogMind
