import LogMind.Plugins.LoaderCalls

/-!
# Starting, reloading and stopping

`DaemonCore` goes through its states by assignments that nothing guards. `start()`,
`reload_plugins()` and `stop()` are called from `main`, from the handler of the signals and
over D-Bus, in any order. Each of them runs to its end here: no handler comes on top of
another call. What they meet outside the daemon is an argument of the call.
-/

namespace LogMind

inductive DaemonState where
  | init
  | loading
  | starting
  | running
  | reloading
  | stopping
  | stopped
  | failed
  deriving DecidableEq

structure DaemonCore where
  state : DaemonState := .init
  /-- The `state_changed` signals, oldest first. -/
  changes : List (DaemonState × DaemonState) := []
  pluginLoader : PluginHost := {}
  /-- The workers of the pipeline; without any it is synchronous. -/
  workers : Nat := 0
  /-- `FileWatcher::is_running()`. -/
  watching : Bool := false
  /-- `m_dbus_adaptor` is set. -/
  dbusAdaptor : Bool := false
  healthTimer : Bool := false
  vectorStoreReady : Bool := false
  /-- How often `finished` was emitted. -/
  finished : Nat := 0

namespace DaemonCore

/-- What `start()` meets: the plugin directory, the configured `worker_threads`, the answers
of the session bus and of `VectorStore::open`. -/
structure Startup where
  plugins : Option (List SharedObject)
  workerThreads : Int := 0
  registerService : Bool := true
  registerObject : Bool := true
  storeOpens : Bool := true

def transitionTo (d : DaemonCore) (state : DaemonState) : DaemonCore :=
  { d with state := state, changes := d.changes ++ [(d.state, state)] }

def doLoadPlugins (d : DaemonCore) (plugins : Option (List SharedObject)) :
    Option (DaemonCore × Bool) :=
  let d := d.transitionTo .loading
  (d.pluginLoader.loadDirectory plugins).map fun (loader, ok) =>
    ({ d with pluginLoader := loader }, ok)

def doInitPipeline (d : DaemonCore) (workerThreads : Int) : DaemonCore :=
  let threads := (min (max workerThreads 0) 64).toNat
  -- `start_workers` leaves running workers alone
  if 1 < threads ∧ d.workers = 0 then { d with workers := threads } else d

def doRegisterDbus (d : DaemonCore) (registerService registerObject : Bool) :
    DaemonCore × Bool :=
  let d := d.transitionTo .starting
  if !registerService then (d, false)
  else ({ d with dbusAdaptor := true }, registerObject)

/-- `start()` behind `do_load_plugins()`, whose failure it only reports. -/
def startLoaded (d : DaemonCore) (env : Startup) : DaemonCore :=
  let (d, registered) :=
    (d.doInitPipeline env.workerThreads).doRegisterDbus env.registerService env.registerObject
  if !registered then d.transitionTo .failed
  else
    let d := { d with vectorStoreReady := env.storeOpens, watching := true }
    { d.transitionTo .running with healthTimer := true }

def start (d : DaemonCore) (env : Startup) : Option DaemonCore :=
  (d.doLoadPlugins env.plugins).map fun (d, _) => d.startLoaded env

def doStop (d : DaemonCore) : Option DaemonCore :=
  d.pluginLoader.unloadAllAndRelease.map fun loader =>
    { d with
      watching := false
      workers := 0
      healthTimer := false
      dbusAdaptor := false
      pluginLoader := loader
      vectorStoreReady := false }

def stop (d : DaemonCore) : Option DaemonCore :=
  (d.transitionTo .stopping).doStop.map fun d =>
    { d.transitionTo .stopped with finished := d.finished + 1 }

def reloadPlugins (d : DaemonCore) (plugins : Option (List SharedObject)) :
    Option (DaemonCore × Bool) :=
  let d := d.transitionTo .reloading
  d.pluginLoader.unloadAllAndRelease.bind fun loader =>
    (doLoadPlugins { d with pluginLoader := loader } plugins).map fun (d, ok) =>
      (d.transitionTo (if ok then .running else .failed), ok)

inductive Call where
  | start (env : Startup)
  /-- `SIGHUP` or `ReloadPlugins` on D-Bus. -/
  | reloadPlugins (plugins : Option (List SharedObject))
  /-- `SIGTERM` or `SIGINT`. -/
  | stop

def call (d : DaemonCore) : Call → Option DaemonCore
  | .start env => d.start env
  | .reloadPlugins plugins => (d.reloadPlugins plugins).map Prod.fst
  | .stop => d.stop

inductive Signal where
  | hup
  | term
  | int

/-- What `signal_handler` calls, as long as `g_daemon` is set. -/
def signalHandler (plugins : Option (List SharedObject)) : Signal → Call
  | .hup => .reloadPlugins plugins
  | .term => .stop
  | .int => .stop

/-- The states that lead to a running daemon. -/
def Active (state : DaemonState) : Prop :=
  state = .loading ∨ state = .starting ∨ state = .running

/-- A call enters no active state and creates no plugin. -/
def Quiet (d : DaemonCore) (c : Call) : Prop :=
  ∀ e, d.call c = some e →
    (∀ change ∈ e.changes.drop d.changes.length, ¬ Active change.2) ∧
      e.pluginLoader.instances = d.pluginLoader.instances

variable {d e : DaemonCore}

/-! ## What each call does to the states -/

@[simp] theorem transitionTo_changes (d : DaemonCore) (state : DaemonState) :
    (d.transitionTo state).changes = d.changes ++ [(d.state, state)] := rfl

@[simp] theorem transitionTo_pluginLoader (d : DaemonCore) (state : DaemonState) :
    (d.transitionTo state).pluginLoader = d.pluginLoader := rfl

theorem doLoadPlugins_eq (h : d.pluginLoader.AtRest) (plugins : Option (List SharedObject)) :
    ∃ loader ok, loader.AtRest ∧ d.doLoadPlugins plugins =
      some ({ d.transitionTo .loading with pluginLoader := loader }, ok) := by
  obtain ⟨loader, ok, hload, hrest⟩ := h.loadDirectory plugins
  refine ⟨loader, ok, hrest, ?_⟩
  simp [doLoadPlugins, hload]

theorem doInitPipeline_changes (d : DaemonCore) (workerThreads : Int) :
    (d.doInitPipeline workerThreads).changes = d.changes := by
  unfold doInitPipeline
  dsimp only
  split <;> rfl

theorem doInitPipeline_pluginLoader (d : DaemonCore) (workerThreads : Int) :
    (d.doInitPipeline workerThreads).pluginLoader = d.pluginLoader := by
  unfold doInitPipeline
  dsimp only
  split <;> rfl

theorem doRegisterDbus_pluginLoader (d : DaemonCore) (registerService registerObject : Bool) :
    (d.doRegisterDbus registerService registerObject).1.pluginLoader = d.pluginLoader := by
  unfold doRegisterDbus
  dsimp only
  split <;> rfl

theorem doRegisterDbus_changes (d : DaemonCore) (registerService registerObject : Bool) :
    (d.doRegisterDbus registerService registerObject).1.changes =
      d.changes ++ [(d.state, .starting)] := by
  unfold doRegisterDbus
  dsimp only
  split <;> rfl

/-- What follows the plugins only adds to the signals. -/
theorem startLoaded_spec (d : DaemonCore) (env : Startup) :
    (d.startLoaded env).pluginLoader = d.pluginLoader ∧
      ∃ rest, (d.startLoaded env).changes = d.changes ++ rest := by
  have hloader := doRegisterDbus_pluginLoader (d.doInitPipeline env.workerThreads)
    env.registerService env.registerObject
  have hchanges := doRegisterDbus_changes (d.doInitPipeline env.workerThreads)
    env.registerService env.registerObject
  rw [doInitPipeline_pluginLoader] at hloader
  rw [doInitPipeline_changes] at hchanges
  unfold startLoaded
  dsimp only
  split
  · refine ⟨hloader, ?_⟩
    rw [transitionTo_changes, hchanges, List.append_assoc]
    exact ⟨_, rfl⟩
  · refine ⟨hloader, ?_⟩
    simp only [transitionTo_changes, hchanges, List.append_assoc]
    exact ⟨_, rfl⟩

/-- `start()` enters `LOADING` first of all. -/
theorem start_spec (h : d.pluginLoader.AtRest) (env : Startup) :
    ∃ e rest, d.start env = some e ∧ e.pluginLoader.AtRest ∧
      e.changes = d.changes ++ (d.state, .loading) :: rest := by
  obtain ⟨loader, ok, hrest, hload⟩ := doLoadPlugins_eq h env.plugins
  obtain ⟨hloader, rest, hchanges⟩ :=
    startLoaded_spec { d.transitionTo .loading with pluginLoader := loader } env
  refine ⟨_, rest, by rw [start, hload]; rfl, ?_, ?_⟩
  · rw [hloader]
    exact hrest
  · rw [hchanges]
    simp

/-- `reload_plugins()` enters `LOADING` behind `RELOADING`. -/
theorem reloadPlugins_spec (h : d.pluginLoader.AtRest) (plugins : Option (List SharedObject)) :
    ∃ e ok rest, d.reloadPlugins plugins = some (e, ok) ∧ e.pluginLoader.AtRest ∧
      e.changes =
        d.changes ++ (d.state, .reloading) :: (.reloading, .loading) :: rest := by
  obtain ⟨unloaded, hunload, hrest, _⟩ := h.unloadAllAndRelease
  let emptied : DaemonCore := { d.transitionTo .reloading with pluginLoader := unloaded }
  obtain ⟨loader, ok, hrest', hload⟩ := doLoadPlugins_eq (d := emptied) hrest plugins
  let filled : DaemonCore := { emptied.transitionTo .loading with pluginLoader := loader }
  refine ⟨filled.transitionTo (if ok then .running else .failed), ok,
    [(.loading, if ok then .running else .failed)], ?_, hrest', ?_⟩
  · rw [reloadPlugins, transitionTo_pluginLoader, hunload, Option.bind_some, hload]
    rfl
  · simp [filled, emptied, transitionTo]

/-- `stop()` enters the two states of its own. -/
theorem stop_spec (h : d.pluginLoader.AtRest) :
    ∃ e, d.stop = some e ∧ e.pluginLoader.AtRest ∧ e.state = .stopped ∧
      e.changes = d.changes ++ [(d.state, .stopping), (.stopping, .stopped)] ∧
      e.pluginLoader.instances = d.pluginLoader.instances := by
  obtain ⟨loader, hunload, hrest, hinstances, _⟩ := h.unloadAllAndRelease
  refine ⟨_, by rw [stop, doStop, transitionTo_pluginLoader, hunload]; rfl, hrest, rfl, ?_,
    hinstances⟩
  simp [transitionTo]

/-! ## Runs -/

theorem call_spec (h : d.pluginLoader.AtRest) (c : Call) :
    ∃ e, d.call c = some e ∧ e.pluginLoader.AtRest := by
  cases c with
  | start env =>
      obtain ⟨e, _, hstart, hrest, _⟩ := start_spec h env
      exact ⟨e, hstart, hrest⟩
  | reloadPlugins plugins =>
      obtain ⟨e, ok, _, hreload, hrest, _⟩ := reloadPlugins_spec h plugins
      exact ⟨e, by rw [call, hreload]; rfl, hrest⟩
  | stop =>
      obtain ⟨e, hstop, hrest, _⟩ := stop_spec h
      exact ⟨e, hstop, hrest⟩

theorem atRest_of_call (h : d.pluginLoader.AtRest) {c : Call} (hcall : d.call c = some e) :
    e.pluginLoader.AtRest := by
  obtain ⟨f, hf, hrest⟩ := call_spec h c
  rw [hf] at hcall
  exact Option.some.inj hcall ▸ hrest

/-- Of the three calls only `stop()` is quiet. -/
theorem quiet_iff (h : d.pluginLoader.AtRest) (c : Call) : d.Quiet c ↔ c = .stop := by
  constructor
  · intro hquiet
    cases c with
    | stop => rfl
    | start env =>
        obtain ⟨e, rest, hstart, _, hchanges⟩ := start_spec h env
        refine absurd (Or.inl rfl) ((hquiet e hstart).1 (d.state, .loading) ?_)
        simp [hchanges]
    | reloadPlugins plugins =>
        obtain ⟨e, ok, rest, hreload, _, hchanges⟩ := reloadPlugins_spec h plugins
        have hcall : d.call (.reloadPlugins plugins) = some e := by rw [call, hreload]; rfl
        refine absurd (Or.inl rfl) ((hquiet e hcall).1 (.reloading, .loading) ?_)
        simp [hchanges]
  · rintro rfl e hcall
    obtain ⟨f, hstop, _, _, hchanges, hinstances⟩ := stop_spec h
    have hstopped : d.stop = some e := hcall
    rw [hstop] at hstopped
    obtain rfl := Option.some.inj hstopped
    refine ⟨?_, hinstances⟩
    simp [hchanges, Active]

theorem meets_quiet_iff (h : d.pluginLoader.AtRest) (calls : List Call) :
    Transition.Meets call Quiet d calls ↔ ∀ c ∈ calls, c = .stop := by
  induction calls generalizing d with
  | nil => exact iff_of_true trivial (by simp)
  | cons c calls ih =>
      obtain ⟨e, hcall, hrest⟩ := call_spec h c
      rw [Transition.meets_cons_iff, quiet_iff h, List.forall_mem_cons]
      apply and_congr_right
      intro _
      constructor
      · exact fun hall => (ih hrest).mp (hall e hcall)
      · exact fun hall u hu => (ih (atRest_of_call h hu)).mpr hall

/-- Behind the first `stop()` of a sequence of calls every call is quiet exactly when every
one of them is `stop()` again. -/
theorem stop_final_iff (calls : List Call) :
    (∀ before later, calls = before ++ .stop :: later →
        ∃ d, Transition.run call {} (before ++ [.stop]) = some d ∧ d.state = .stopped ∧
          Transition.Meets call Quiet d later) ↔
      ∀ before later, calls = before ++ .stop :: later → ∀ c ∈ later, c = .stop := by
  have hrun : ∀ before : List Call, ∃ d, Transition.run call {} (before ++ [.stop]) = some d ∧
      d.state = .stopped ∧ d.pluginLoader.AtRest := by
    intro before
    obtain ⟨d, hbefore, hrest⟩ := Transition.run_total (s := ({} : DaemonCore))
      (fun d c (h : d.pluginLoader.AtRest) => call_spec h c) before PluginHost.atRest_init
    obtain ⟨e, hstop, hrest', hstate, _⟩ := stop_spec hrest
    refine ⟨e, ?_, hstate, hrest'⟩
    rw [Transition.run_append, hbefore]
    exact Transition.run_cons_eq_some.mpr ⟨e, hstop, rfl⟩
  constructor
  · intro hquiet before later hcalls
    obtain ⟨d, hd, _, hmeets⟩ := hquiet before later hcalls
    obtain ⟨e, he, _, hrest⟩ := hrun before
    rw [he] at hd
    obtain rfl := Option.some.inj hd
    exact (meets_quiet_iff hrest later).mp hmeets
  · intro hstops before later hcalls
    obtain ⟨d, hd, hstate, hrest⟩ := hrun before
    exact ⟨d, hd, hstate, (meets_quiet_iff hrest later).mpr (hstops before later hcalls)⟩

/-- A `SIGHUP` behind a `SIGTERM` brings the daemon back with a new plugin. -/
theorem reload_behind_stop :
    ∃ d e, Transition.run call {} [.start { plugins := some [] }, signalHandler none .term] =
        some d ∧
      d.call (signalHandler (some [{
        soPath := ascii "plugins/a.so"
        created := some { name := ascii "app", soPath := ascii "plugins/a.so" } }]) .hup) = some e ∧
      d.changes.getLast? = some (.stopping, .stopped) ∧
      e.changes.drop d.changes.length =
        [(.stopped, .reloading), (.reloading, .loading), (.loading, .running)] ∧
      d.pluginLoader.instances.length = 0 ∧ e.pluginLoader.instances.length = 1 :=
  ⟨_, _, rfl, rfl, rfl, rfl, rfl, rfl⟩

end DaemonCore

end LogMind
