import Mathlib.Data.List.Find
import Mathlib.Data.Set.Function
import LogMind.Plugins.Reload

/-!
# The cache of the collectors and the addresses of the snapshots

The cache is keyed by the source alone, and `pick_collector` finds out by the address of
the snapshot whether the cache is of it. An address is free for another snapshot once
its own was destroyed. The snapshot that the cache is of and that of the call are both
held, so equal addresses are equal snapshots, and what is cached is what the collectors
of the snapshot would answer again.
-/

namespace LogMind

/-- A host whose snapshots lie somewhere in memory. -/
structure PlacedHost where
  host : PluginHost := {}
  /-- Where a snapshot was allocated. -/
  address : Nat → Nat

namespace PluginHost

/-- `pick_collector` up to the lookup: `m_cache_generation != plugins` compares pointers. -/
def openCacheAt (address : Nat → Nat) (s : PluginHost) (j : Nat) : PluginHost :=
  if s.cacheGeneration.map address = some (address j) then s
  else
    let t := { s with
      setPool := s.setPool.acquire j
      cacheGeneration := some j
      collectorCache := [] }
    match s.cacheGeneration with
    | none => t
    | some old => t.releaseSet old

/-- `pick_collector`. -/
def pickAt (address : Nat → Nat) (s : PluginHost) (c j : Nat) (source : Bytes) : PluginHost :=
  let s := s.openCacheAt address j
  match s.collectorCache.lookup source with
  | some best => s.setPhase c (.parsing best)
  | none =>
      let best := s.bestCollector source (s.setOf j).collectors 0 none
      { s with collectorCache := s.collectorCache ++ [(source, best)] }.setPhase c (.parsing best)

def stepAt (address : Nat → Nat) (s : PluginHost) : Action → Option PluginHost
  | .pick c =>
      match s.calls[c]? with
      | some ⟨j, .picking source⟩ => some (s.pickAt address c j source)
      | _ => none
  | a => s.step a

end PluginHost

namespace PlacedHost

/-- The first snapshot is that of the constructor. -/
def start (first : Nat) : PlacedHost := { address := fun _ => first }

/-- A step and the address that `make_shared` gets if the step makes a snapshot: that of
no snapshot that still exists. -/
def step (s : PlacedHost) (a : PluginHost.Action × Nat) : Option PlacedHost :=
  (s.host.stepAt s.address a.1).bind fun t =>
    if t.sets.length = s.host.sets.length then some { host := t, address := s.address }
    else if a.2 ∈ s.host.setPool.live.map s.address then none
    else some { host := t, address := Function.update s.address s.host.sets.length a.2 }

end PlacedHost

namespace PluginHost

variable {s t : PluginHost} {i j : Nat}

/-- What `match` of a collector answers. -/
def score (s : PluginHost) (source : Bytes) (i : Nat) : Int :=
  (s.instances[i]?.map fun p => p.matchScore source).getD 0

/-- The first collector with the greatest positive score, without a cache. -/
def uncachedCollector (s : PluginHost) (collectors : List Nat) (source : Bytes) : Option Nat :=
  collectors.find? fun i =>
    0 < s.score source i && collectors.all fun k => s.score source k ≤ s.score source i

/-- The loop keeps what it began with, or ends with the first of the greatest scores. -/
theorem bestCollector_cases (s : PluginHost) (source : Bytes) (collectors : List Nat)
    (bestScore : Int) (best : Option Nat) :
    s.bestCollector source collectors bestScore best = best ∧
        (∀ k ∈ collectors, s.score source k ≤ bestScore) ∨
      ∃ before i after, collectors = before ++ i :: after ∧
        s.bestCollector source collectors bestScore best = some i ∧ bestScore < s.score source i ∧
        (∀ k ∈ before, s.score source k < s.score source i) ∧
        ∀ k ∈ after, s.score source k ≤ s.score source i := by
  induction collectors generalizing bestScore best with
  | nil => exact .inl ⟨rfl, fun _ hk => absurd hk List.not_mem_nil⟩
  | cons i collectors ih =>
      have hcons : s.bestCollector source (i :: collectors) bestScore best =
          if bestScore < s.score source i then
            s.bestCollector source collectors (s.score source i) (some i)
          else s.bestCollector source collectors bestScore best := rfl
      rw [hcons]
      split
      case isTrue hbetter =>
        rcases ih (s.score source i) (some i) with
          ⟨heq, hle⟩ | ⟨before, k, after, rfl, heq, hlt, hbefore, hafter⟩
        · exact .inr ⟨[], i, collectors, rfl, heq, hbetter,
            fun _ hk => absurd hk List.not_mem_nil, hle⟩
        · refine .inr ⟨i :: before, k, after, rfl, heq, hbetter.trans hlt, ?_, hafter⟩
          intro m hm
          rcases List.mem_cons.mp hm with rfl | hm
          · exact hlt
          · exact hbefore m hm
      case isFalse hworse =>
        have hworse := Int.not_lt.mp hworse
        rcases ih bestScore best with
          ⟨heq, hle⟩ | ⟨before, k, after, rfl, heq, hlt, hbefore, hafter⟩
        · refine .inl ⟨heq, fun m hm => ?_⟩
          rcases List.mem_cons.mp hm with rfl | hm
          · exact hworse
          · exact hle m hm
        · refine .inr ⟨i :: before, k, after, rfl, heq, hlt, ?_, hafter⟩
          intro m hm
          rcases List.mem_cons.mp hm with rfl | hm
          · exact Int.lt_of_le_of_lt hworse hlt
          · exact hbefore m hm

theorem bestCollector_eq_uncached (s : PluginHost) (source : Bytes) (collectors : List Nat) :
    s.bestCollector source collectors 0 none = s.uncachedCollector collectors source := by
  symm
  rcases s.bestCollector_cases source collectors 0 none with
    ⟨heq, hle⟩ | ⟨before, i, after, rfl, heq, hpos, hbefore, hafter⟩
  · rw [heq, uncachedCollector, List.find?_eq_none]
    intro k hk hbest
    simp only [Bool.and_eq_true, decide_eq_true_eq] at hbest
    exact Int.not_le.mpr hbest.1 (hle k hk)
  · rw [heq, uncachedCollector, List.find?_eq_some_iff_append]
    refine ⟨?_, before, after, rfl, fun k hk => ?_⟩
    · simp only [Bool.and_eq_true, decide_eq_true_eq, List.all_eq_true]
      refine ⟨hpos, fun k hk => ?_⟩
      rcases List.mem_append.mp hk with hk | hk
      · exact Int.le_of_lt (hbefore k hk)
      · rcases List.mem_cons.mp hk with rfl | hk
        · exact Int.le_refl _
        · exact hafter k hk
    · -- a collector before the answer scores lower than the answer
      have hmem : i ∈ before ++ i :: after :=
        List.mem_append_right before List.mem_cons_self
      have hbeaten := hbefore k hk
      simp only [Bool.not_eq_true', Bool.and_eq_false_iff, List.all_eq_false, decide_eq_true_eq]
      exact .inr ⟨i, hmem, Int.not_le.mpr hbeaten⟩

/-- What was created stays as it is, and no snapshot exists again. -/
structure Extends (s t : PluginHost) : Prop where
  instances : s.instances <+: t.instances
  sets : s.sets <+: t.sets
  live : ∀ j ∈ t.setPool.live, j ∈ s.setPool.live ∨ j = s.sets.length

/-- A step beside `pick_collector`. -/
structure Beside (s t : PluginHost) : Prop extends Extends s t where
  cacheGeneration : t.cacheGeneration = s.cacheGeneration
  collectorCache : t.collectorCache = s.collectorCache

/-- Nothing is created. -/
theorem Extends.of_eq (hinstances : t.instances = s.instances) (hsets : t.sets = s.sets)
    (hlive : t.setPool.live ⊆ s.setPool.live) : Extends s t where
  instances := hinstances ▸ List.prefix_rfl
  sets := hsets ▸ List.prefix_rfl
  live _ hj := .inl (hlive hj)

theorem releaseSet_live (s : PluginHost) (j : Nat) :
    (s.releaseSet j).setPool.live ⊆ s.setPool.live := by
  show (s.setPool.release j).live ⊆ s.setPool.live
  unfold RefCount.Pool.release
  split
  · exact List.erase_subset
  · exact List.Subset.refl _

theorem Beside.rebuild {records : List Record} {loading : List Nat} {dropped : List (List Nat)} :
    Beside s (rebuild { s with records := records, loading := loading, dropped := dropped }) where
  instances := List.prefix_rfl
  sets := List.prefix_append _ _
  live j hj := by
    have hj := releaseSet_live _ _ hj
    exact (List.mem_cons.mp hj).symm
  cacheGeneration := rfl
  collectorCache := rfl

theorem Beside.of_eq (hinstances : t.instances = s.instances) (hsets : t.sets = s.sets)
    (hlive : t.setPool.live ⊆ s.setPool.live) (hgeneration : t.cacheGeneration = s.cacheGeneration)
    (hcache : t.collectorCache = s.collectorCache) : Beside s t where
  toExtends := .of_eq hinstances hsets hlive
  cacheGeneration := hgeneration
  collectorCache := hcache

theorem Beside.refl (s : PluginHost) : Beside s s :=
  .of_eq rfl rfl (List.Subset.refl _) rfl rfl

theorem Beside.load (s : PluginHost) (plugin : LoadedPlugin) : Beside s (s.load plugin) := by
  unfold PluginHost.load
  split
  · exact .refl s
  · exact ⟨⟨List.prefix_append _ _, List.prefix_rfl, fun _ hj => .inl hj⟩, rfl, rfl⟩

theorem step_beside {a : Action} (hpick : ∀ c, a ≠ .pick c) (hstep : s.step a = some t) :
    Beside s t := by
  have hphase : ∀ c phase, Beside s (s.setPhase c phase) :=
    fun _ _ => .of_eq rfl rfl (List.Subset.refl _) rfl rfl
  cases a with
  | load plugin => exact Option.some.inj hstep ▸ .load s plugin
  | recordFailure => exact Option.some.inj hstep ▸ .of_eq rfl rfl (List.Subset.refl _) rfl rfl
  | publish k =>
      obtain ⟨_, _, rfl⟩ := Option.map_eq_some_iff.mp hstep
      exact .rebuild
  | unloadPlugin name =>
      rw [← Option.some.inj hstep]
      unfold PluginHost.unloadPlugin
      split
      · exact .refl s
      · exact .rebuild
  | unloadAll => exact Option.some.inj hstep ▸ .rebuild
  | setEnabled name enabled =>
      rw [← Option.some.inj hstep]
      unfold PluginHost.setEnabled
      split
      · exact .rebuild
      · exact .refl s
  | release k =>
      obtain ⟨_, _, rfl⟩ := Option.map_eq_some_iff.mp hstep
      exact .of_eq rfl rfl (List.Subset.refl _) rfl rfl
  | processRaw => exact Option.some.inj hstep ▸ .of_eq rfl rfl (List.Subset.refl _) rfl rfl
  | processEntries => exact Option.some.inj hstep ▸ .of_eq rfl rfl (List.Subset.refl _) rfl rfl
  | pick c => exact absurd rfl (hpick c)
  | parse c =>
      simp only [step] at hstep
      split at hstep
      case h_1 => exact Option.some.inj hstep ▸ hphase _ _
      case h_2 => cases hstep
  | analyze c =>
      simp only [step] at hstep
      split at hstep
      case h_1 => exact Option.some.inj hstep ▸ hphase _ _
      case h_2 => exact Option.some.inj hstep ▸ hphase _ _
      case h_3 => cases hstep
  | alert c =>
      simp only [step] at hstep
      split at hstep
      case h_1 => exact Option.some.inj hstep ▸ hphase _ _
      case h_2 => exact Option.some.inj hstep ▸ hphase _ _
      case h_3 => cases hstep
  | skip c =>
      obtain ⟨_, _, rfl⟩ := Option.map_eq_some_iff.mp hstep
      exact hphase _ _
  | finish c =>
      simp only [step] at hstep
      split at hstep
      case h_1 => exact Option.some.inj hstep ▸ .of_eq rfl rfl (releaseSet_live _ _) rfl rfl
      case h_2 => cases hstep

theorem openCache_extends (s : PluginHost) (j : Nat) : Extends s (s.openCache j) := by
  obtain ⟨hinstances, -, hsets⟩ := openCache_frame s j
  apply Extends.of_eq hinstances hsets
  unfold openCache
  split
  · exact List.Subset.refl _
  · cases s.cacheGeneration with
    | none => exact List.Subset.refl _
    | some old => exact releaseSet_live _ old

theorem pick_extends (s : PluginHost) (c j : Nat) (source : Bytes) :
    Extends s (s.pick c j source) := by
  have h := openCache_extends s j
  unfold pick
  simp only
  split
  · exact ⟨h.instances, h.sets, h.live⟩
  · exact ⟨h.instances, h.sets, h.live⟩

theorem pick_sets (s : PluginHost) (c j : Nat) (source : Bytes) :
    (s.pick c j source).sets = s.sets := by
  obtain ⟨-, -, hsets⟩ := openCache_frame s j
  unfold pick
  simp only
  split
  · exact hsets
  · exact hsets

theorem step_extends {a : Action} (hstep : s.step a = some t) : Extends s t := by
  by_cases hpick : ∃ c, a = .pick c
  · obtain ⟨c, rfl⟩ := hpick
    simp only [step] at hstep
    split at hstep
    case h_1 j source _ => exact Option.some.inj hstep ▸ pick_extends s c j source
    case h_2 => cases hstep
  · exact (step_beside (fun c hc => hpick ⟨c, hc⟩) hstep).toExtends

theorem Extends.setOf (h : Extends s t) (hj : j < s.sets.length) : t.setOf j = s.setOf j := by
  obtain ⟨later, hlater⟩ := h.sets
  unfold PluginHost.setOf
  rw [← hlater, List.getD_append _ _ _ _ hj]

theorem Extends.score (h : Extends s t) (source : Bytes) (hi : i < s.instances.length) :
    t.score source i = s.score source i := by
  obtain ⟨later, hlater⟩ := h.instances
  unfold PluginHost.score
  rw [← hlater, List.getElem?_append_left hi]

/-- The plugins of a snapshot that somebody holds were created. -/
theorem Sound.lt_of_mem_setOf (h : s.Sound) (hj : j ∈ s.setHolders) (hi : i ∈ (s.setOf j).all) :
    i < s.instances.length := by
  apply h.counted.plugins.held
  have hset : i ∈ s.setPool.live.flatMap fun j => (s.setOf j).all :=
    List.mem_flatMap.mpr ⟨j, h.counted.mem_live hj, hi⟩
  simp [pluginHolders, hset]

/-- The collectors of a snapshot that somebody holds answer as they did. -/
theorem Extends.uncachedCollector (h : Extends s t) (hs : s.Sound) (hj : j ∈ s.setHolders)
    (source : Bytes) :
    t.uncachedCollector (t.setOf j).collectors source =
      s.uncachedCollector (s.setOf j).collectors source := by
  rw [h.setOf (hs.counted.lt_of_holds hj)]
  have hscore : ∀ i ∈ (s.setOf j).collectors, t.score source i = s.score source i :=
    fun i hi => h.score source (hs.lt_of_mem_setOf hj ((hs.linked.kinds_setOf j).1 hi))
  apply List.find?_congr
  intro i hi
  rw [hscore i hi]
  have hall : ((s.setOf j).collectors.all fun k => t.score source k ≤ s.score source i) =
      (s.setOf j).collectors.all fun k => s.score source k ≤ s.score source i := by
    rw [Bool.eq_iff_iff, List.all_eq_true, List.all_eq_true]
    exact forall₂_congr fun k hk => by rw [hscore k hk]
  rw [hall]

/-- What is cached is what the collectors of the snapshot would answer. -/
def CacheValid (s : PluginHost) : Prop :=
  ∀ j ∈ s.cacheGeneration, ∀ entry ∈ s.collectorCache,
    entry.2 = s.uncachedCollector (s.setOf j).collectors entry.1

theorem mem_setHolders_of_cache (hj : j ∈ s.cacheGeneration) : j ∈ s.setHolders := by
  simp only [setHolders, List.mem_cons, List.mem_append, Option.mem_toList]
  exact .inr (.inl hj)

theorem CacheValid.beside (h : s.CacheValid) (hs : s.Sound) (hbeside : Beside s t) :
    t.CacheValid := by
  intro j hj entry hentry
  rw [hbeside.cacheGeneration] at hj
  rw [hbeside.collectorCache] at hentry
  rw [hbeside.uncachedCollector hs (mem_setHolders_of_cache hj)]
  exact h j hj entry hentry

/-- Another snapshot discards the cache. -/
theorem CacheValid.openCache (h : s.CacheValid) (j : Nat) : (s.openCache j).CacheValid := by
  unfold PluginHost.openCache
  split
  case isTrue => exact h
  case isFalse =>
    cases s.cacheGeneration <;> exact fun _ _ _ hentry => absurd hentry List.not_mem_nil

theorem getElem?_setPhase {c : Nat} {call : PluginCall} (hcall : s.calls[c]? = some call)
    (phase : CallPhase) : (s.setPhase c phase).calls[c]? = some { call with phase := phase } := by
  simp [setPhase, hcall]

/-- `pick_collector` answers what it would answer without a cache, and its cache stays
valid. -/
theorem CacheValid.pick (h : s.CacheValid) (hs : s.Sound) {c : Nat} {source : Bytes}
    (hcall : s.calls[c]? = some ⟨j, .picking source⟩) :
    (s.pick c j source).CacheValid ∧ (s.pick c j source).calls[c]? =
      some ⟨j, .parsing (s.uncachedCollector (s.setOf j).collectors source)⟩ := by
  have hvalid : (s.openCache j).CacheValid := h.openCache j
  have hgeneration : (s.openCache j).cacheGeneration = some j := openCache_cacheGeneration s j
  have hanswer : (s.openCache j).uncachedCollector ((s.openCache j).setOf j).collectors source =
      s.uncachedCollector (s.setOf j).collectors source :=
    (openCache_extends s j).uncachedCollector hs (mem_setHolders_of_call hcall) source
  have hcall' : (s.openCache j).calls[c]? = some ⟨j, .picking source⟩ := by
    rw [openCache_calls]
    exact hcall
  rw [← hanswer]
  unfold PluginHost.pick
  simp only
  split
  case h_1 best hbest =>
    have hentry := hvalid j hgeneration _ (mem_of_lookup_eq_some hbest)
    rw [← hentry]
    exact ⟨hvalid, getElem?_setPhase hcall' _⟩
  case h_2 =>
    rw [bestCollector_eq_uncached]
    refine ⟨fun k hk entry hentry => ?_, getElem?_setPhase hcall' _⟩
    obtain rfl : j = k := Option.some.inj (hgeneration.symm.trans hk)
    rcases List.mem_append.mp hentry with hentry | hentry
    · exact hvalid j hgeneration entry hentry
    · rw [List.mem_singleton.mp hentry]
      rfl

/-- Of two snapshots that exist, the addresses tell whether they are the same. -/
theorem openCacheAt_eq {address : Nat → Nat} (hs : s.Sound)
    (hdistinct : Set.InjOn address {j | j ∈ s.setPool.live}) (hj : j ∈ s.setHolders) :
    s.openCacheAt address j = s.openCache j := by
  have hsame : s.cacheGeneration.map address = some (address j) ↔ s.cacheGeneration = some j := by
    constructor
    · intro h
      obtain ⟨k, hk, haddress⟩ := Option.map_eq_some_iff.mp h
      have hlive := hs.counted.mem_live (mem_setHolders_of_cache hk)
      rw [hk, hdistinct hlive (hs.counted.mem_live hj) haddress]
    · intro h
      rw [h]
      rfl
  unfold openCacheAt openCache
  by_cases heq : s.cacheGeneration = some j
  · rw [if_pos (hsame.mpr heq), if_pos heq]
  · exact (if_neg fun h => heq (hsame.mp h)).trans (if_neg heq).symm

theorem stepAt_eq_step {address : Nat → Nat} (hs : s.Sound)
    (hdistinct : Set.InjOn address {j | j ∈ s.setPool.live}) (a : Action) :
    s.stepAt address a = s.step a := by
  cases a with
  | pick c =>
      have hpick : ∀ j source, s.calls[c]? = some ⟨j, .picking source⟩ →
          s.pickAt address c j source = s.pick c j source := by
        intro j source hcall
        unfold pickAt
        rw [openCacheAt_eq hs hdistinct (mem_setHolders_of_call hcall)]
        rfl
      cases hcall : s.calls[c]? with
      | none => simp only [stepAt, step, hcall]
      | some call =>
          obtain ⟨j, phase⟩ := call
          cases phase with
          | picking source => simp only [stepAt, step, hcall, hpick j source hcall]
          | _ => simp only [stepAt, step, hcall]
  | _ => rfl

theorem step_cacheValid (h : s.CacheValid) (hs : s.Sound) {a : Action}
    (hstep : s.step a = some t) : t.CacheValid := by
  by_cases hpick : ∃ c, a = .pick c
  · obtain ⟨c, rfl⟩ := hpick
    simp only [step] at hstep
    split at hstep
    case h_1 j source hcall => exact Option.some.inj hstep ▸ (h.pick hs hcall).1
    case h_2 => cases hstep
  · exact h.beside hs (step_beside (fun c hc => hpick ⟨c, hc⟩) hstep)

end PluginHost

namespace PlacedHost

variable {s t : PlacedHost}

structure Sound (s : PlacedHost) : Prop where
  host : s.host.Sound
  distinct : Set.InjOn s.address {j | j ∈ s.host.setPool.live}
  cache : s.host.CacheValid

theorem sound_start (first : Nat) : (start first).Sound where
  host := PluginHost.sound_init
  distinct _ hj _ hk _ := (List.mem_singleton.mp hj).trans (List.mem_singleton.mp hk).symm
  cache _ hj := nomatch hj

/-- A new snapshot lies where none of those is that exist. -/
theorem Sound.place (h : s.Sound) {t : PluginHost} (hextends : PluginHost.Extends s.host t)
    {a : Nat} (ha : a ∉ s.host.setPool.live.map s.address) :
    Set.InjOn (Function.update s.address s.host.sets.length a) {j | j ∈ t.setPool.live} := by
  have hold : ∀ j ∈ s.host.setPool.live, j ≠ s.host.sets.length := fun j hj heq =>
    Nat.lt_irrefl _ (heq ▸ h.host.counted.sets.held j ((h.host.counted.sets.mem_live j).mp hj))
  have hfree : ∀ j ∈ s.host.setPool.live, s.address j ≠ a :=
    fun j hj heq => ha (List.mem_map.mpr ⟨j, hj, heq⟩)
  intro j hj k hk heq
  rcases hextends.live j hj with hj | rfl
  · rw [Function.update_of_ne (hold j hj)] at heq
    rcases hextends.live k hk with hk | rfl
    · rw [Function.update_of_ne (hold k hk)] at heq
      exact h.distinct hj hk heq
    · rw [Function.update_self] at heq
      exact absurd heq (hfree j hj)
  · rcases hextends.live k hk with hk | rfl
    · rw [Function.update_of_ne (hold k hk), Function.update_self] at heq
      exact absurd heq.symm (hfree k hk)
    · rfl

/-- Comparing addresses is as good as comparing snapshots, and the snapshots that exist
keep addresses of their own. -/
theorem step_simulates (h : s.Sound) {a : PluginHost.Action × Nat} (hstep : s.step a = some t) :
    s.host.step a.1 = some t.host ∧ t.Sound := by
  obtain ⟨u, hu, ht⟩ := Option.bind_eq_some_iff.mp hstep
  rw [PluginHost.stepAt_eq_step h.host h.distinct] at hu
  have hsound : u.Sound := PluginHost.step_sound h.host hu
  have hcache : u.CacheValid := PluginHost.step_cacheValid h.cache h.host hu
  have hextends : PluginHost.Extends s.host u := PluginHost.step_extends hu
  split at ht
  case isTrue hlength =>
    obtain rfl := Option.some.inj ht
    refine ⟨hu, hsound, fun j hj k hk heq => ?_, hcache⟩
    have hold : ∀ j ∈ u.setPool.live, j ∈ s.host.setPool.live := by
      intro j hj
      have hlt := hsound.counted.sets.held j ((hsound.counted.sets.mem_live j).mp hj)
      exact (hextends.live j hj).resolve_right fun heq => by omega
    exact h.distinct (hold j hj) (hold k hk) heq
  case isFalse =>
    split at ht
    case isTrue => cases ht
    case isFalse hfree =>
      obtain rfl := Option.some.inj ht
      exact ⟨hu, hsound, h.place hextends hfree, hcache⟩

/-- The run is one of the host that compares snapshots. -/
theorem run_simulates {first : Nat} {actions : List (PluginHost.Action × Nat)}
    (hrun : Transition.run step (start first) actions = some s) :
    Transition.run PluginHost.step {} (actions.map Prod.fst) = some s.host ∧ s.Sound :=
  Transition.run_simulates (fun _ _ _ h hstep => step_simulates h hstep) (sound_start first) hrun

/-- In every run, `pick_collector` answers with the first collector of its snapshot that has
the greatest positive score. -/
theorem pickCollector_uncached {first : Nat} {actions : List (PluginHost.Action × Nat)}
    (hrun : Transition.run step (start first) actions = some s) {c j : Nat} {source : Bytes}
    (hcall : s.host.calls[c]? = some ⟨j, .picking source⟩) (a : Nat) :
    ∃ t, s.step (.pick c, a) = some t ∧ t.host.calls[c]? =
      some ⟨j, .parsing (s.host.uncachedCollector (s.host.setOf j).collectors source)⟩ := by
  have h : s.Sound := (run_simulates hrun).2
  have hpick : s.host.stepAt s.address (.pick c) = some (s.host.pick c j source) := by
    rw [PluginHost.stepAt_eq_step h.host h.distinct]
    simp only [PluginHost.step, hcall]
  have hsets : (s.host.pick c j source).sets.length = s.host.sets.length := by
    rw [PluginHost.pick_sets]
  refine ⟨⟨s.host.pick c j source, s.address⟩, ?_, (h.cache.pick h.host hcall).2⟩
  simp only [step, hpick, Option.bind_some, hsets, if_pos]

/-- The second snapshot is pinned by the cache when the plugin is disabled; the third one is
allocated where the first one was. -/
def reusedAddress : List (PluginHost.Action × Nat) :=
  [(.load PluginHost.anySource, 0), (.publish 0, 1), (.processRaw (ascii "app.log"), 0),
    (.pick 0, 0), (.skip 0, 0), (.finish 0, 0), (.setEnabled (ascii "any") false, 0),
    (.processRaw (ascii "app.log"), 0)]

theorem pickCollector_uncached_disabled : ∃ s t : PlacedHost,
    Transition.run step (start 0) reusedAddress = some s ∧
      s.host.collectorCache = [(ascii "app.log", some 0)] ∧ s.address 2 = s.address 0 ∧
      s.step (.pick 0, 0) = some t ∧ t.host.calls[0]? = some ⟨2, .parsing none⟩ := by
  obtain ⟨s, hrun, hcache, haddress, hcall, hnone⟩ : ∃ s : PlacedHost,
      Transition.run step (start 0) reusedAddress = some s ∧
        s.host.collectorCache = [(ascii "app.log", some 0)] ∧ s.address 2 = s.address 0 ∧
        s.host.calls[0]? = some ⟨2, .picking (ascii "app.log")⟩ ∧
        s.host.uncachedCollector (s.host.setOf 2).collectors (ascii "app.log") = none :=
    ⟨_, rfl, rfl, rfl, rfl, rfl⟩
  obtain ⟨t, hstep, ht⟩ := pickCollector_uncached hrun hcall 0
  rw [hnone] at ht
  exact ⟨s, t, hrun, hcache, haddress, hstep, ht⟩

end PlacedHost

end LogMind
