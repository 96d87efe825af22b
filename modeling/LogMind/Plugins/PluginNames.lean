import LogMind.Plugins.LoaderCalls

/-!
# Plugins and their names

Files are told apart by their paths and plugins by their names, and every operation on a
name stops at the first record of it. Two files that report one name therefore share it,
and the operations miss the second plugin.
-/

namespace LogMind

namespace PluginHost

variable {s t : PluginHost} {name : Bytes}

/-- The records of the loaded plugins with this name. -/
def named (s : PluginHost) (name : Bytes) : List Record := s.records.filter (s.isNamed name)

/-- The records that an operation on the name does not reach. -/
def others (s : PluginHost) (name : Bytes) : List Record := (s.named name).tail

/-- The published snapshot. -/
def publishedSet (s : PluginHost) : PluginSet := s.setOf s.snapshot

/-- The plugin has an interface that the pipeline calls. -/
def hasInterface (p : LoadedPlugin) : Bool := p.isCollector || p.isAnalyzer || p.isAlert

def offers (s : PluginHost) (r : Record) : Bool := r.plugin.any (is s.instances hasInterface)

def hasName (s : PluginHost) (name : Bytes) (i : Nat) : Bool :=
  is s.instances (fun p => p.name == name) i

/-- The plugin stands in the snapshot under each of its interfaces. -/
def Listed (s : PluginHost) (i : Nat) : Prop :=
  (is s.instances LoadedPlugin.isCollector i → i ∈ s.publishedSet.collectors) ∧
    (is s.instances LoadedPlugin.isAnalyzer i → i ∈ s.publishedSet.analyzers) ∧
    (is s.instances LoadedPlugin.isAlert i → i ∈ s.publishedSet.alerts)

/-- What a name promises: behind a call with a result, the plugins of the name are the ones
that the call was about. -/
def NamesPlugin : LoaderCall → PluginHost → Bool → Prop
  | .setEnabled name false, t, ok =>
      ok → ∀ i ∈ t.publishedSet.collectors ++ t.publishedSet.analyzers ++ t.publishedSet.alerts,
        ¬ t.hasName name i
  | .setEnabled name true, t, ok => ok → ∀ i ∈ loaded t.records, t.hasName name i → t.Listed i
  | .unloadPlugin name, t, _ => t.find name = none
  | _, _, _ => True

/-- No plugin that a call does not reach stands against what the name promises. -/
def Clear (s : PluginHost) : LoaderCall → Prop
  | .setEnabled name enabled => ∀ r ∈ s.others name, s.offers r → r.enabled = enabled
  | .unloadPlugin name => s.others name = []
  | _ => True

/-! ## The snapshot -/

theorem mem_enabledPlugins {instances : List LoadedPlugin} {kind : LoadedPlugin → Bool}
    {records : List Record} {i : Nat} :
    i ∈ enabledPlugins instances kind records ↔
      ∃ r ∈ records, r.enabled = true ∧ r.plugin = some i ∧ is instances kind i = true := by
  simp only [enabledPlugins, loaded, List.mem_filter, List.mem_filterMap]
  constructor
  · rintro ⟨⟨r, ⟨hr, henabled⟩, hplugin⟩, hkind⟩
    exact ⟨r, hr, henabled, hplugin, hkind⟩
  · rintro ⟨r, hr, henabled, hplugin, hkind⟩
    exact ⟨⟨r, ⟨hr, henabled⟩, hplugin⟩, hkind⟩

theorem is_hasInterface {instances : List LoadedPlugin} {i : Nat} :
    is instances hasInterface i = true ↔
      is instances LoadedPlugin.isCollector i = true ∨
        is instances LoadedPlugin.isAnalyzer i = true ∨
        is instances LoadedPlugin.isAlert i = true := by
  unfold is
  cases instances[i]? with
  | none => simp
  | some p => simp [hasInterface, or_assoc]

theorem mem_loaded {records : List Record} {i : Nat} :
    i ∈ loaded records ↔ ∃ r ∈ records, r.plugin = some i := List.mem_filterMap

theorem isNamed_iff {r : Record} :
    s.isNamed name r = true ↔ ∃ i, r.plugin = some i ∧ s.hasName name i = true := by
  simp [isNamed, hasName, Option.any_eq_true]

theorem mem_named {r : Record} :
    r ∈ s.named name ↔ r ∈ s.records ∧ s.isNamed name r = true := List.mem_filter

/-- A plugin stands somewhere in the snapshot when it is enabled and has an interface. -/
theorem Sound.mem_published (h : s.Sound) {i : Nat} :
    i ∈ s.publishedSet.collectors ++ s.publishedSet.analyzers ++ s.publishedSet.alerts ↔
      ∃ r ∈ s.records, r.enabled = true ∧ r.plugin = some i ∧ s.offers r = true := by
  rw [publishedSet, h.published, buildSet_eq]
  simp only [List.mem_append, mem_enabledPlugins]
  constructor
  · rintro ((⟨r, hr, he, hp, hk⟩ | ⟨r, hr, he, hp, hk⟩) | ⟨r, hr, he, hp, hk⟩)
    · exact ⟨r, hr, he, hp, by simp [offers, hp, is_hasInterface, hk]⟩
    · exact ⟨r, hr, he, hp, by simp [offers, hp, is_hasInterface, hk]⟩
    · exact ⟨r, hr, he, hp, by simp [offers, hp, is_hasInterface, hk]⟩
  · rintro ⟨r, hr, he, hp, ho⟩
    rw [offers, hp, Option.any_some, is_hasInterface] at ho
    rcases ho with hk | hk | hk
    · exact Or.inl (Or.inl ⟨r, hr, he, hp, hk⟩)
    · exact Or.inl (Or.inr ⟨r, hr, he, hp, hk⟩)
    · exact Or.inr ⟨r, hr, he, hp, hk⟩

/-- No plugin of the name stands in the snapshot. -/
theorem Sound.none_published_iff (h : s.Sound) :
    (∀ i ∈ s.publishedSet.collectors ++ s.publishedSet.analyzers ++ s.publishedSet.alerts,
      ¬ s.hasName name i) ↔ ∀ r ∈ s.named name, s.offers r → r.enabled = false := by
  simp only [h.mem_published, mem_named, isNamed_iff]
  constructor
  · rintro hnone r ⟨hr, i, hplugin, hname⟩ hoffers
    rw [← Bool.not_eq_true]
    intro henabled
    exact hnone i ⟨r, hr, henabled, hplugin, hoffers⟩ hname
  · rintro hdisabled i ⟨r, hr, henabled, hplugin, hoffers⟩ hname
    have hfalse := hdisabled r ⟨hr, i, hplugin, hname⟩ hoffers
    rw [henabled] at hfalse
    cases hfalse

theorem listed_of_enabled (h : s.Sound) {r : Record} {i : Nat} (hr : r ∈ s.records)
    (hplugin : r.plugin = some i) (henabled : s.offers r → r.enabled = true) : s.Listed i := by
  have hkind : ∀ kind : LoadedPlugin → Bool, is s.instances kind i = true →
      is s.instances hasInterface i = true → i ∈ enabledPlugins s.instances kind s.records := by
    intro kind hk hi
    have ho : s.offers r = true := by simp [offers, hplugin, hi]
    exact mem_enabledPlugins.mpr ⟨r, hr, henabled ho, hplugin, hk⟩
  rw [Listed, publishedSet, h.published, buildSet_eq]
  refine ⟨fun hk => hkind _ hk ?_, fun hk => hkind _ hk ?_, fun hk => hkind _ hk ?_⟩
  · exact is_hasInterface.mpr (Or.inl hk)
  · exact is_hasInterface.mpr (Or.inr (Or.inl hk))
  · exact is_hasInterface.mpr (Or.inr (Or.inr hk))

/-- A plugin has one record. -/
theorem record_unique {records : List Record} (h : (loaded records).Nodup) {r r' : Record}
    (hr : r ∈ records) (hr' : r' ∈ records) {i : Nat} (hplugin : r.plugin = some i)
    (hplugin' : r'.plugin = some i) : r = r' := by
  induction records with
  | nil => cases hr
  | cons q records ih =>
      have htail : (loaded records).Nodup := h.sublist ((List.sublist_cons_self q _).filterMap _)
      have hhead : ∀ x ∈ records, x.plugin = some i → q.plugin ≠ some i := by
        intro x hx hxi hqi
        rw [loaded, List.filterMap_cons, hqi] at h
        exact (List.nodup_cons.mp h).1 (mem_loaded.mpr ⟨x, hx, hxi⟩)
      rcases List.mem_cons.mp hr with rfl | hrest
      · rcases List.mem_cons.mp hr' with rfl | hrest'
        · rfl
        · exact absurd hplugin (hhead r' hrest' hplugin')
      · rcases List.mem_cons.mp hr' with rfl | hrest'
        · exact absurd hplugin' (hhead r hrest hplugin)
        · exact ih htail hrest hrest'

/-- Every plugin of the name stands in the snapshot. -/
theorem AtRest.all_listed_iff (h : s.AtRest) :
    (∀ i ∈ loaded s.records, s.hasName name i → s.Listed i) ↔
      ∀ r ∈ s.named name, s.offers r → r.enabled = true := by
  constructor
  · intro hall r hr hoffers
    obtain ⟨hmem, hnamed⟩ := mem_named.mp hr
    obtain ⟨i, hplugin, hname⟩ := isNamed_iff.mp hnamed
    have hlisted := hall i (mem_loaded.mpr ⟨r, hmem, hplugin⟩) hname
    have hsomewhere : i ∈ s.publishedSet.collectors ++ s.publishedSet.analyzers ++
        s.publishedSet.alerts := by
      rw [offers, hplugin, Option.any_some, is_hasInterface] at hoffers
      simp only [List.mem_append]
      rcases hoffers with hk | hk | hk
      · exact Or.inl (Or.inl (hlisted.1 hk))
      · exact Or.inl (Or.inr (hlisted.2.1 hk))
      · exact Or.inr (hlisted.2.2 hk)
    obtain ⟨r', hr', henabled, hplugin', _⟩ := h.sound.mem_published.mp hsomewhere
    rw [record_unique h.nodup hmem hr' hplugin hplugin']
    exact henabled
  · intro henabled i hi hname
    obtain ⟨r, hr, hplugin⟩ := mem_loaded.mp hi
    exact listed_of_enabled h.sound hr hplugin
      (henabled r (mem_named.mpr ⟨hr, isNamed_iff.mpr ⟨i, hplugin, hname⟩⟩))

/-- `find` answers for every name that a loaded plugin has. -/
theorem find_eq_none_iff : s.find name = none ↔ s.named name = [] := by
  unfold find named
  rw [List.filter_eq_nil_iff, ← List.find?_eq_none]
  cases hfound : s.records.find? (s.isNamed name) with
  | none => simp
  | some r =>
      obtain ⟨i, hplugin, _⟩ := isNamed_iff.mp (List.find?_some hfound)
      simp [hplugin]

/-! ## What a call does to the plugins of a name -/

/-- Only the first record of a name is enabled or disabled. -/
theorem filter_enableFirst {named : Record → Bool} {enabled : Bool}
    (hnamed : ∀ r, named { r with enabled := enabled } = named r) (records : List Record) :
    (enableFirst named enabled records).filter named =
      ((records.filter named).take 1).map (fun r => { r with enabled := enabled }) ++
        (records.filter named).tail := by
  induction records with
  | nil => rfl
  | cons r records ih =>
      rw [enableFirst]
      by_cases hr : named r = true
      · rw [if_pos hr, List.filter_cons_of_pos ((hnamed r).trans hr), List.filter_cons_of_pos hr]
        rfl
      · rw [if_neg hr, List.filter_cons_of_neg hr, List.filter_cons_of_neg hr, ih]

/-- Only the first record of a name is erased. -/
theorem filter_eraseP {named : Record → Bool} (records : List Record) :
    (records.eraseP named).filter named = (records.filter named).tail := by
  induction records with
  | nil => rfl
  | cons r records ih =>
      by_cases hr : named r = true
      · rw [List.eraseP_cons_of_pos hr, List.filter_cons_of_pos hr, List.tail_cons]
      · rw [List.eraseP_cons_of_neg hr, List.filter_cons_of_neg hr, List.filter_cons_of_neg hr, ih]

theorem isNamed_of_instances (h : t.instances = s.instances) : t.isNamed = s.isNamed := by
  funext name r
  rw [isNamed, isNamed, h]

theorem offers_of_instances (h : t.instances = s.instances) : t.offers = s.offers := by
  funext r
  rw [offers, offers, h]

theorem setEnabled_named (s : PluginHost) (name : Bytes) (enabled : Bool) :
    (s.setEnabled name enabled).named name =
      ((s.named name).take 1).map (fun r => { r with enabled := enabled }) ++ s.others name := by
  rw [named, isNamed_of_instances (setEnabled_instances s name enabled), setEnabled_records,
    filter_enableFirst (fun _ => rfl)]
  rfl

/-- Behind `set_enabled` the plugins of the name agree when those behind the first did. -/
theorem setEnabled_agree_iff (s : PluginHost) (name : Bytes) (enabled : Bool) :
    (∀ r ∈ (s.setEnabled name enabled).named name,
        (s.setEnabled name enabled).offers r → r.enabled = enabled) ↔
      ∀ r ∈ s.others name, s.offers r → r.enabled = enabled := by
  rw [setEnabled_named, offers_of_instances (setEnabled_instances s name enabled)]
  constructor
  · exact fun hall r hr => hall r (List.mem_append_right _ hr)
  · intro hothers r hr hoffers
    rcases List.mem_append.mp hr with hfirst | hr
    · obtain ⟨q, _, rfl⟩ := List.mem_map.mp hfirst
      rfl
    · exact hothers r hr hoffers

theorem others_eq_nil_of_not_any (h : s.records.any (s.isNamed name) = false) :
    s.others name = [] := by
  have hnone : s.named name = [] := by
    rw [named, List.filter_eq_nil_iff]
    simpa using h
  rw [others, hnone]
  rfl

/-- A name keeps what it promises in a call exactly when no plugin of the name that the
call does not reach stands against it. -/
theorem AtRest.namesPlugin_iff (h : s.AtRest) {c : LoaderCall} {ok : Bool}
    (hcall : s.call c = some (t, ok)) : NamesPlugin c t ok ↔ s.Clear c := by
  cases c with
  | loadPlugin file => exact Iff.rfl
  | loadDirectory files => exact Iff.rfl
  | unloadAll => exact Iff.rfl
  | unloadPlugin name =>
      obtain ⟨u, hunload, _, hinstances, hrecords⟩ := h.unloadAndRelease name
      rw [PluginHost.call, hunload] at hcall
      obtain ⟨rfl, -⟩ := Prod.mk.inj (Option.some.inj hcall)
      show u.find name = none ↔ s.others name = []
      rw [find_eq_none_iff, named, isNamed_of_instances hinstances, hrecords, filter_eraseP]
      rfl
  | setEnabled name enabled =>
      obtain ⟨rfl, rfl⟩ := Prod.mk.inj (Option.some.inj hcall)
      have hrest := h.setEnabled name enabled
      cases hany : s.records.any (s.isNamed name) with
      | false =>
          have hnone := others_eq_nil_of_not_any hany
          refine iff_of_true ?_ (by simp [Clear, hnone])
          cases enabled <;> exact fun hok => absurd hok (by simp)
      | true =>
          rw [Clear, ← setEnabled_agree_iff]
          cases enabled with
          | false => exact (forall_prop_of_true rfl).trans hrest.sound.none_published_iff
          | true => exact (forall_prop_of_true rfl).trans hrest.all_listed_iff

/-! ## Whole runs -/

/-- Whatever the call returns, the name keeps its promise. -/
def KeepsNames (s : PluginHost) (c : LoaderCall) : Prop :=
  ∀ t ok, s.call c = some (t, ok) → NamesPlugin c t ok

theorem AtRest.keepsNames_iff (h : s.AtRest) (c : LoaderCall) : s.KeepsNames c ↔ s.Clear c := by
  obtain ⟨t, ok, hcall, _⟩ := h.call c
  constructor
  · exact fun hkeeps => (h.namesPlugin_iff hcall).mp (hkeeps t ok hcall)
  · exact fun hclear u ok' hu => (h.namesPlugin_iff hu).mpr hclear

theorem AtRest.callStep (h : s.AtRest) (c : LoaderCall) :
    ∃ t, s.callStep c = some t ∧ t.AtRest := by
  obtain ⟨t, ok, hcall, ht⟩ := h.call c
  exact ⟨t, by rw [PluginHost.callStep, hcall]; rfl, ht⟩

theorem AtRest.of_callStep (h : s.AtRest) {c : LoaderCall} (hstep : s.callStep c = some t) :
    t.AtRest := by
  obtain ⟨u, hu, hrest⟩ := h.callStep c
  rw [hu] at hstep
  exact Option.some.inj hstep ▸ hrest

/-- Every sequence of calls comes to its end, and the names keep what they promise in all
of them exactly when no call meets a plugin of its name behind the first one that stands
against it. -/
theorem run_keepsNames_iff (calls : List LoaderCall) :
    (∃ s, Transition.run callStep {} calls = some s) ∧
      (Transition.Meets callStep KeepsNames {} calls ↔
        Transition.Meets callStep Clear {} calls) := by
  constructor
  · obtain ⟨s, hrun, _⟩ :=
      Transition.run_total (fun s c (h : AtRest s) => h.callStep c) calls atRest_init
    exact ⟨s, hrun⟩
  · exact Transition.meets_congr (fun _ _ _ h _ hstep => AtRest.of_callStep h hstep)
      (fun _ c h => AtRest.keepsNames_iff h c) atRest_init calls

/-- A file with a collector of the name `app`. -/
def appCollector (soPath : Bytes) : SharedObject where
  soPath := soPath
  created := some { name := ascii "app", soPath := soPath, isCollector := true }

/-- Two files of one directory report the name `app`. -/
theorem two_plugins_of_one_name :
    let files := [appCollector (ascii "plugins/a.so"), appCollector (ascii "plugins/old/b.so")]
    ∃ s t u, Transition.run callStep {} [.loadDirectory (some files)] = some s ∧
      s.call (.setEnabled (ascii "app") false) = some (t, true) ∧
      ¬ NamesPlugin (.setEnabled (ascii "app") false) t true ∧
      s.call (.unloadPlugin (ascii "app")) = some (u, true) ∧
      ¬ NamesPlugin (.unloadPlugin (ascii "app")) u true := by
  obtain ⟨s, t, u, hrun, hdisable, hcollectors, hname, hunload, hfind⟩ : ∃ s t u,
      Transition.run callStep {} [.loadDirectory (some [appCollector (ascii "plugins/a.so"),
        appCollector (ascii "plugins/old/b.so")])] = some s ∧
      s.call (.setEnabled (ascii "app") false) = some (t, true) ∧
      t.publishedSet.collectors = [1] ∧ t.hasName (ascii "app") 1 = true ∧
      s.call (.unloadPlugin (ascii "app")) = some (u, true) ∧ u.find (ascii "app") = some 1 :=
    ⟨_, _, _, rfl, rfl, rfl, rfl, rfl, rfl⟩
  refine ⟨s, t, u, hrun, hdisable, fun hnames => ?_, hunload, fun hnames => ?_⟩
  · exact hnames rfl 1 (by simp [hcollectors]) hname
  · rw [NamesPlugin, hfind] at hnames
    cases hnames

end PluginHost

end LogMind
