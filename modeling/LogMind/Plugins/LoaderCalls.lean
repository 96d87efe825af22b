import LogMind.Plugins.Lifetime

/-!
# The calls of the loader

`load_plugin` opens a file, checks its interface version, creates the plugin and has it
read its configuration; every check that fails leaves a record with its error.
`load_directory` does this for every file of a directory tree. A call is a sequence of
the steps of the host, performed without others in between.
-/

namespace LogMind

/-- `LOGMIND_ABI_VERSION`. -/
def abiVersion : Int := 2

/-- What `load_plugin` meets when it opens a file. -/
structure SharedObject where
  soPath : Bytes
  /-- `dlopen` succeeds. -/
  opens : Bool := true
  dlError : Option Bytes := none
  /-- What `plugin_abi_version` returns; `none` without the symbol. -/
  pluginAbi : Option Int := some abiVersion
  /-- What `create_plugin` returns. -/
  created : Option LoadedPlugin
  /-- What `on_load` returns. -/
  onLoad : Bool := true

namespace SharedObject

/-- The checks of `load_plugin`, with the error of the first one that fails. -/
def load (file : SharedObject) : Except Bytes LoadedPlugin :=
  if !file.opens then .error (file.dlError.getD (ascii "unknown dlopen error"))
  else
    match file.pluginAbi with
    | none => .error (ascii "missing plugin_abi_version symbol")
    | some abi =>
        if abi ≠ abiVersion then
          .error (ascii "ABI mismatch: plugin=" ++ ascii (toString abi) ++ ascii ", daemon=" ++
            ascii (toString abiVersion))
        else
          match file.created with
          | none => .error (ascii "create_plugin missing or returned null")
          | some plugin =>
              if file.onLoad then .ok { plugin with soPath := file.soPath }
              else .error (ascii "on_load returned false")

theorem soPath_of_load {file : SharedObject} {plugin : LoadedPlugin}
    (h : file.load = .ok plugin) : plugin.soPath = file.soPath := by
  unfold load at h
  split at h
  · cases h
  · split at h
    · cases h
    · split at h
      · cases h
      · split at h
        · cases h
        · split at h
          · cases h
            rfl
          · cases h

/-- `path::filename()`. -/
def filename (path : Bytes) : Bytes := (path.reverse.takeWhile (· ≠ 47)).reverse

/-- `path::extension()`: what begins with the last dot of a name that has more in front. -/
def extension (path : Bytes) : Bytes :=
  let name := filename path
  if name = ascii "." ∨ name = ascii ".." then []
  else
    let suffix := (name.reverse.takeWhile (· ≠ 46)).reverse
    if name.length ≤ suffix.length + 1 then [] else 46 :: suffix

end SharedObject

namespace PluginHost

/-- `load_plugin`. -/
def loadPlugin (s : PluginHost) (file : SharedObject) : Option (PluginHost × Bool) :=
  if s.records.any fun r => r.plugin.isSome && r.soPath == file.soPath then some (s, true)
  else
    match file.load with
    | .error error => (s.step (.recordFailure file.soPath error)).map fun t => (t, false)
    | .ok plugin =>
        (Transition.run step s [.load plugin, .publish s.loading.length]).map fun t => (t, true)

/-- The loop of `load_directory`. -/
def loadEntries (s : PluginHost) (anyLoaded : Bool) :
    List SharedObject → Option (PluginHost × Bool)
  | [] => some (s, anyLoaded)
  | file :: files =>
      if SharedObject.extension file.soPath = ascii ".so" then
        (s.loadPlugin file).bind fun (t, ok) => t.loadEntries (anyLoaded || ok) files
      else s.loadEntries anyLoaded files

/-- `load_directory`, with what the directory tree holds; `none` for no directory. -/
def loadDirectory (s : PluginHost) : Option (List SharedObject) → Option (PluginHost × Bool)
  | none => some (s, false)
  | some files => s.loadEntries false files

/-- `unload_plugin` to its end, where `dropped` goes out of scope. -/
def unloadAndRelease (s : PluginHost) (name : Bytes) : Option PluginHost :=
  if s.records.any (s.isNamed name) then
    Transition.run step s [.unloadPlugin name, .release s.dropped.length]
  else s.step (.unloadPlugin name)

/-- `unload_all` to its end. -/
def unloadAllAndRelease (s : PluginHost) : Option PluginHost :=
  Transition.run step s [.unloadAll, .release s.dropped.length]

/-- `find`. -/
def find (s : PluginHost) (name : Bytes) : Option Nat :=
  (s.records.find? (s.isNamed name)).bind Record.plugin

inductive LoaderCall where
  | loadPlugin (file : SharedObject)
  | loadDirectory (files : Option (List SharedObject))
  | setEnabled (name : Bytes) (enabled : Bool)
  | unloadPlugin (name : Bytes)
  | unloadAll

/-- What a call does and returns. The result of a call without one is `true`. -/
def call (s : PluginHost) : LoaderCall → Option (PluginHost × Bool)
  | .loadPlugin file => s.loadPlugin file
  | .loadDirectory files => s.loadDirectory files
  | .setEnabled name enabled =>
      (s.step (.setEnabled name enabled)).map fun t => (t, s.records.any (s.isNamed name))
  | .unloadPlugin name => (s.unloadAndRelease name).map fun t => (t, true)
  | .unloadAll => s.unloadAllAndRelease.map fun t => (t, true)

def callStep (s : PluginHost) (c : LoaderCall) : Option PluginHost := (s.call c).map Prod.fst

/-! ## Between two calls -/

/-- No plugin is being loaded and every plugin has one record. -/
structure AtRest (s : PluginHost) : Prop where
  sound : s.Sound
  loading : s.loading = []
  nodup : (loaded s.records).Nodup

variable {s t : PluginHost}

theorem atRest_init : AtRest {} := ⟨sound_init, rfl, List.nodup_nil⟩

/-- The state behind the load of a file that passes every check. -/
def pushed (s : PluginHost) (plugin : LoadedPlugin) : PluginHost :=
  rebuild { s with
    instances := s.instances ++ [plugin]
    plugins := s.plugins.allocate s.instances.length
    loading := []
    records := s.records ++ [{ plugin := some s.instances.length, soPath := plugin.soPath }] }

theorem load_publish_eq (h : s.loading = []) {plugin : LoadedPlugin}
    (hnew : (s.records.any fun r => r.plugin.isSome && r.soPath == plugin.soPath) = false) :
    Transition.run step s [.load plugin, .publish s.loading.length] = some (s.pushed plugin) := by
  simp [Transition.run, step, PluginHost.load, hnew, publish, h, pushed]

theorem AtRest.pushed (h : s.AtRest) {plugin : LoadedPlugin}
    (hnew : (s.records.any fun r => r.plugin.isSome && r.soPath == plugin.soPath) = false) :
    (s.pushed plugin).AtRest where
  sound := by
    have hrun := load_publish_eq h.loading hnew
    exact Transition.run_invariant (fun _ _ _ hs hstep => step_sound hs hstep) h.sound hrun
  loading := rfl
  nodup := by
    show (loaded (s.records ++ [_])).Nodup
    rw [loaded_append]
    apply List.nodup_append.mpr
    refine ⟨h.nodup, List.pairwise_singleton _ _, fun i hi j hj => ?_⟩
    have hlt := h.sound.lt_of_mem_loaded hi
    have hj' : j = s.instances.length := by simpa [loaded] using hj
    omega

/-- What `load_plugin` can do with a file. -/
theorem AtRest.loadPlugin_cases (h : s.AtRest) (file : SharedObject) :
    s.loadPlugin file = some (s, true) ∨
      (∃ error, s.loadPlugin file = some ({ s with
        records := s.records ++ [{ soPath := file.soPath, error := error, enabled := false }] },
        false)) ∨
      ∃ plugin, file.load = .ok plugin ∧
        (s.records.any fun r => r.plugin.isSome && r.soPath == plugin.soPath) = false ∧
        s.loadPlugin file = some (s.pushed plugin, true) := by
  unfold loadPlugin
  by_cases hloaded : (s.records.any fun r => r.plugin.isSome && r.soPath == file.soPath) = true
  · exact Or.inl (if_pos hloaded)
  · rw [if_neg hloaded]
    rw [Bool.not_eq_true] at hloaded
    cases hfile : file.load with
    | error error => exact Or.inr (Or.inl ⟨error, rfl⟩)
    | ok plugin =>
        rw [← SharedObject.soPath_of_load hfile] at hloaded
        refine Or.inr (Or.inr ⟨plugin, rfl, hloaded, ?_⟩)
        simp only [load_publish_eq h.loading hloaded, Option.map_some]

theorem AtRest.loadPlugin (h : s.AtRest) (file : SharedObject) :
    ∃ t ok, s.loadPlugin file = some (t, ok) ∧ t.AtRest := by
  rcases h.loadPlugin_cases file with hsame | ⟨error, hfailed⟩ | ⟨plugin, _, hnew, hpushed⟩
  · exact ⟨s, true, hsame, h⟩
  · refine ⟨_, false, hfailed, h.sound.recordFailure _ _, h.loading, ?_⟩
    show (loaded (s.records ++ [_])).Nodup
    rw [loaded_append]
    simpa [loaded] using h.nodup
  · exact ⟨_, true, hpushed, h.pushed hnew⟩

theorem AtRest.loadEntries (h : s.AtRest) (anyLoaded : Bool) (files : List SharedObject) :
    ∃ t ok, s.loadEntries anyLoaded files = some (t, ok) ∧ t.AtRest := by
  induction files generalizing s anyLoaded with
  | nil => exact ⟨s, anyLoaded, rfl, h⟩
  | cons file files ih =>
      rw [PluginHost.loadEntries]
      split
      · obtain ⟨t, ok, hload, ht⟩ := h.loadPlugin file
        rw [hload, Option.bind_some]
        exact ih ht _
      · exact ih h _

theorem AtRest.loadDirectory (h : s.AtRest) (files : Option (List SharedObject)) :
    ∃ t ok, s.loadDirectory files = some (t, ok) ∧ t.AtRest := by
  cases files with
  | none => exact ⟨s, false, rfl, h⟩
  | some files => exact h.loadEntries false files

theorem enableFirst_of_not_any {named : Record → Bool} {records : List Record}
    (hnone : records.any named = false) (enabled : Bool) :
    enableFirst named enabled records = records := by
  induction records with
  | nil => rfl
  | cons r records ih =>
      rw [List.any_cons, Bool.or_eq_false_iff] at hnone
      rw [enableFirst, hnone.1, ih hnone.2]
      rfl

theorem setEnabled_instances (s : PluginHost) (name : Bytes) (enabled : Bool) :
    (s.setEnabled name enabled).instances = s.instances := by
  unfold PluginHost.setEnabled
  split <;> rfl

theorem setEnabled_records (s : PluginHost) (name : Bytes) (enabled : Bool) :
    (s.setEnabled name enabled).records = enableFirst (s.isNamed name) enabled s.records := by
  unfold PluginHost.setEnabled
  split
  · rfl
  · rename_i hnone
    rw [Bool.not_eq_true] at hnone
    exact (enableFirst_of_not_any hnone enabled).symm

theorem AtRest.setEnabled (h : s.AtRest) (name : Bytes) (enabled : Bool) :
    (s.setEnabled name enabled).AtRest where
  sound := h.sound.setEnabled name enabled
  loading := by
    unfold PluginHost.setEnabled
    split
    · exact h.loading
    · exact h.loading
  nodup := by
    rw [setEnabled_records, loaded_enableFirst]
    exact h.nodup

/-- `unload_plugin` takes away the first record of the name and nothing else. -/
theorem AtRest.unloadAndRelease (h : s.AtRest) (name : Bytes) :
    ∃ t, s.unloadAndRelease name = some t ∧ t.AtRest ∧ t.instances = s.instances ∧
      t.records = s.records.eraseP (s.isNamed name) := by
  unfold PluginHost.unloadAndRelease
  by_cases hany : s.records.any (s.isNamed name) = true
  · rw [if_pos hany]
    obtain ⟨r, hr⟩ := Option.isSome_iff_exists.mp
      (List.find?_isSome.mpr (List.any_eq_true.mp hany))
    have hunload : s.unloadPlugin name = rebuild { s with
        records := s.records.eraseP (s.isNamed name)
        dropped := s.dropped ++ [r.plugin.toList] } := by
      rw [unloadPlugin, hr]
    have hdropped : (s.unloadPlugin name).dropped[s.dropped.length]? = some r.plugin.toList := by
      rw [hunload]
      show (s.dropped ++ [r.plugin.toList])[s.dropped.length]? = _
      simp
    have hrun : Transition.run step s [.unloadPlugin name, .release s.dropped.length] =
        some { s.unloadPlugin name with
          dropped := (s.unloadPlugin name).dropped.eraseIdx s.dropped.length
          plugins := (s.unloadPlugin name).plugins.releaseAll r.plugin.toList } := by
      simp [Transition.run, step, release, hdropped]
    refine ⟨_, hrun, ⟨?_, ?_, ?_⟩, ?_, ?_⟩
    · exact Transition.run_invariant (fun _ _ _ hs hstep => step_sound hs hstep) h.sound hrun
    · rw [hunload]
      exact h.loading
    · rw [hunload]
      exact h.nodup.sublist ((List.eraseP_sublist).filterMap _)
    · rw [hunload]
      rfl
    · rw [hunload]
      rfl
  · rw [if_neg hany]
    have hnone : ∀ r ∈ s.records, ¬ s.isNamed name r = true := by
      simpa using hany
    have hunload : s.unloadPlugin name = s := by
      rw [unloadPlugin, List.find?_eq_none.mpr hnone]
    refine ⟨s, by rw [step, hunload], h, rfl, ?_⟩
    rw [List.eraseP_of_forall_not hnone]

theorem AtRest.unloadAllAndRelease (h : s.AtRest) :
    ∃ t, s.unloadAllAndRelease = some t ∧ t.AtRest ∧ t.instances = s.instances ∧
      t.records = [] := by
  have hdropped : s.unloadAll.dropped[s.dropped.length]? = some (loaded s.records) := by
    show (s.dropped ++ [loaded s.records])[s.dropped.length]? = _
    simp
  have hrun : s.unloadAllAndRelease = some { s.unloadAll with
      dropped := s.unloadAll.dropped.eraseIdx s.dropped.length
      plugins := s.unloadAll.plugins.releaseAll (loaded s.records) } := by
    simp [PluginHost.unloadAllAndRelease, Transition.run, step, release, hdropped]
  refine ⟨_, hrun, ⟨?_, h.loading, List.nodup_nil⟩, rfl, rfl⟩
  exact Transition.run_invariant (fun _ _ _ hs hstep => step_sound hs hstep) h.sound hrun

/-- Every call comes to its end and leaves the loader at rest. -/
theorem AtRest.call (h : s.AtRest) (c : LoaderCall) :
    ∃ t ok, s.call c = some (t, ok) ∧ t.AtRest := by
  cases c with
  | loadPlugin file => exact h.loadPlugin file
  | loadDirectory files => exact h.loadDirectory files
  | setEnabled name enabled => exact ⟨_, _, rfl, h.setEnabled name enabled⟩
  | unloadPlugin name =>
      obtain ⟨t, hunload, ht, _⟩ := h.unloadAndRelease name
      exact ⟨t, true, by rw [PluginHost.call, hunload]; rfl, ht⟩
  | unloadAll =>
      obtain ⟨t, hunload, ht, _⟩ := h.unloadAllAndRelease
      exact ⟨t, true, by rw [PluginHost.call, hunload]; rfl, ht⟩

end PluginHost

end LogMind
