import LogMind.Daemon.Lifecycle

/-!
# What a started daemon holds

`main` calls `start()` once and first. The states that follow are a path in a fixed graph, but
they say little about what the daemon still holds: the watcher, the workers, the adaptor, the
timer and the store are set up by `start()` alone and given up by `stop()` for good, while
`reload_plugins()` ends in `RUNNING` from wherever it begins.
-/

namespace LogMind

namespace DaemonCore

/-- The transitions of a daemon that is started once. -/
def Allowed : DaemonState → DaemonState → Prop
  | .init, next => next = .loading
  | .loading, next => next = .starting ∨ next = .running ∨ next = .failed
  | .starting, next => next = .running ∨ next = .failed
  | .reloading, next => next = .loading
  | .stopping, next => next = .stopped
  | _, next => next = .reloading ∨ next = .stopping

/-- The signals lead from one state to another, each from where the last has ended. -/
def Path : DaemonState → List (DaemonState × DaemonState) → DaemonState → Prop
  | first, [], last => first = last
  | first, (old, new) :: changes, last => old = first ∧ Allowed old new ∧ Path new changes last

/-- No call is under way. -/
def Rests (state : DaemonState) : Prop :=
  state = .running ∨ state = .failed ∨ state = .stopped

def Call.isStart : Call → Bool
  | .start _ => true
  | _ => false

def Call.isStop : Call → Bool
  | .stop => true
  | _ => false

/-- The workers for a configured number of threads. -/
def workersOf (threads : Int) : Nat :=
  let threads := (min (max threads 0) 64).toNat
  if 1 < threads then threads else 0

def Startup.registered (env : Startup) : Bool := env.registerService && env.registerObject

/-- What `start()` has set up is still there. -/
structure Holding (env : Startup) (d : DaemonCore) : Prop where
  workers : d.workers = workersOf env.workerThreads
  watching : d.watching = env.registered
  dbusAdaptor : d.dbusAdaptor = env.registerService
  healthTimer : d.healthTimer = env.registered
  vectorStoreReady : d.vectorStoreReady = (env.registered && env.storeOpens)

/-- Nothing is left of what `start()` has set up. -/
structure Released (d : DaemonCore) : Prop where
  workers : d.workers = 0
  watching : d.watching = false
  dbusAdaptor : d.dbusAdaptor = false
  healthTimer : d.healthTimer = false
  vectorStoreReady : d.vectorStoreReady = false

variable {d e : DaemonCore} {env : Startup} {calls : List Call}
  {first middle last : DaemonState}

theorem Path.append {before after : List (DaemonState × DaemonState)}
    (hbefore : Path first before middle) (hafter : Path middle after last) :
    Path first (before ++ after) last := by
  induction before generalizing first with
  | nil =>
      obtain rfl : first = middle := hbefore
      exact hafter
  | cons change before ih =>
      obtain ⟨hold, hallowed, hrest⟩ := hbefore
      exact ⟨hold, hallowed, ih hrest⟩

/-- From where a daemon rests it is reloaded or stopped. -/
theorem Rests.allowed {state next : DaemonState} (h : Rests state)
    (hnext : next = .reloading ∨ next = .stopping) : Allowed state next := by
  rcases h with rfl | rfl | rfl <;> exact hnext

theorem doInitPipeline_eq (hworkers : d.workers = 0) (threads : Int) :
    d.doInitPipeline threads = { d with workers := workersOf threads } := by
  unfold doInitPipeline workersOf
  dsimp only
  by_cases hmany : 1 < (min (max threads 0) 64).toNat
  · rw [if_pos ⟨hmany, hworkers⟩, if_pos hmany]
  · rw [if_neg fun h => hmany h.1, if_neg hmany, ← hworkers]

/-- The start of a daemon that has just been constructed. -/
theorem start_holding (env : Startup) :
    ∃ d, start {} env = some d ∧ d.pluginLoader.AtRest ∧ Path .init d.changes d.state ∧
      Rests d.state ∧ Holding env d ∧ d.finished = 0 := by
  obtain ⟨loader, ok, hrest, hload⟩ :=
    doLoadPlugins_eq (d := {}) PluginHost.atRest_init env.plugins
  let loaded : DaemonCore :=
    { (({} : DaemonCore).transitionTo .loading) with pluginLoader := loader }
  have hstart : start {} env = some (loaded.startLoaded env) := by
    rw [start, hload]
    rfl
  have hinit : loaded.doInitPipeline env.workerThreads =
      { loaded with workers := workersOf env.workerThreads } := doInitPipeline_eq rfl _
  refine ⟨loaded.startLoaded env, hstart, ?_, ?_⟩
  · rw [(startLoaded_spec loaded env).1]
    exact hrest
  unfold startLoaded doRegisterDbus
  rw [hinit]
  cases hservice : env.registerService <;> cases hobject : env.registerObject
  all_goals
    refine ⟨?_, ?_, ⟨rfl, ?_, ?_, ?_, ?_⟩, rfl⟩
    all_goals simp [Path, Allowed, Rests, loaded, transitionTo, Startup.registered, hservice,
      hobject]

/-- A reload holds on to what it finds. -/
theorem reloadPlugins_holding (h : d.pluginLoader.AtRest) (hrests : Rests d.state)
    (plugins : Option (List SharedObject)) :
    ∃ (loader : PluginHost) (ok : Bool) (rest : List (DaemonState × DaemonState)),
      loader.AtRest ∧ Path d.state rest (if ok then .running else .failed) ∧
      d.call (.reloadPlugins plugins) = some { d with
        state := if ok then .running else .failed
        changes := d.changes ++ rest
        pluginLoader := loader } := by
  obtain ⟨unloaded, hunload, hrest, -⟩ := h.unloadAllAndRelease
  obtain ⟨loader, ok, hrest', hload⟩ := doLoadPlugins_eq
    (d := { d.transitionTo .reloading with pluginLoader := unloaded }) hrest plugins
  refine ⟨loader, ok, [(d.state, .reloading), (.reloading, .loading),
    (.loading, if ok then .running else .failed)], hrest', ?_, ?_⟩
  · refine ⟨rfl, hrests.allowed (.inl rfl), rfl, rfl, rfl, ?_, rfl⟩
    cases ok
    · exact .inr (.inr rfl)
    · exact .inr (.inl rfl)
  · rw [call, reloadPlugins, transitionTo_pluginLoader, hunload, Option.bind_some, hload]
    simp [transitionTo]

theorem stop_released (h : d.pluginLoader.AtRest) (hrests : Rests d.state) :
    ∃ e rest, d.call .stop = some e ∧ e.pluginLoader.AtRest ∧ e.state = .stopped ∧
      e.changes = d.changes ++ rest ∧ Path d.state rest .stopped ∧ Released e ∧
      e.finished = d.finished + 1 := by
  obtain ⟨loader, hunload, hrest, -⟩ := h.unloadAllAndRelease
  refine ⟨_, [(d.state, .stopping), (.stopping, .stopped)],
    by rw [call, stop, doStop, transitionTo_pluginLoader, hunload]; rfl, hrest, rfl, ?_,
    ⟨rfl, hrests.allowed (.inr rfl), rfl, rfl, rfl⟩, ⟨rfl, rfl, rfl, rfl, rfl⟩, rfl⟩
  simp [transitionTo]

/-- The relation between the daemon and the calls since it was started. -/
structure Runs (env : Startup) (calls : List Call) (d : DaemonCore) : Prop where
  loader : d.pluginLoader.AtRest
  path : Path .init d.changes d.state
  rests : Rests d.state
  finished : d.finished = calls.countP Call.isStop
  holding : calls.countP Call.isStop = 0 → Holding env d
  released : 0 < calls.countP Call.isStop → Released d

theorem Runs.call (h : Runs env calls d) (c : Call) (hc : c.isStart = false) :
    ∃ e, d.call c = some e ∧ Runs env (calls ++ [c]) e := by
  cases c with
  | start env => cases hc
  | reloadPlugins plugins =>
      obtain ⟨loader, ok, rest, hloader, hpath, hcall⟩ :=
        reloadPlugins_holding h.loader h.rests plugins
      have hcount : (calls ++ [Call.reloadPlugins plugins]).countP Call.isStop =
          calls.countP Call.isStop := by
        rw [List.countP_append, List.countP_singleton]
        rfl
      refine ⟨_, hcall, hloader, h.path.append hpath, ?_, ?_, fun hzero => ?_, fun hpos => ?_⟩
      · cases ok
        · exact .inr (.inl rfl)
        · exact .inl rfl
      · rw [hcount]
        exact h.finished
      · obtain ⟨hworkers, hwatching, hadaptor, htimer, hstore⟩ := h.holding (hcount ▸ hzero)
        exact ⟨hworkers, hwatching, hadaptor, htimer, hstore⟩
      · obtain ⟨hworkers, hwatching, hadaptor, htimer, hstore⟩ := h.released (hcount ▸ hpos)
        exact ⟨hworkers, hwatching, hadaptor, htimer, hstore⟩
  | stop =>
      obtain ⟨e, rest, hcall, hloader, hstate, hchanges, hpath, hreleased, hfinished⟩ :=
        stop_released h.loader h.rests
      have hcount : (calls ++ [Call.stop]).countP Call.isStop = calls.countP Call.isStop + 1 := by
        rw [List.countP_append, List.countP_singleton]
        rfl
      refine ⟨e, hcall, hloader, ?_, .inr (.inr hstate), ?_, fun hzero => ?_, fun _ => hreleased⟩
      · rw [hchanges, hstate]
        exact h.path.append hpath
      · rw [hcount, hfinished, h.finished]
      · exact absurd (hcount.symm.trans hzero) (Nat.succ_ne_zero _)

theorem Runs.run (h : Runs env calls d) (later : List Call)
    (hlater : ∀ c ∈ later, c.isStart = false) :
    ∃ e, Transition.run DaemonCore.call d later = some e ∧ Runs env (calls ++ later) e := by
  induction later generalizing d calls with
  | nil => exact ⟨d, rfl, by rwa [List.append_nil]⟩
  | cons c later ih =>
      obtain ⟨e, hcall, hnext⟩ := h.call c (hlater c List.mem_cons_self)
      obtain ⟨f, hrun, hf⟩ := ih hnext fun a ha => hlater a (List.mem_cons_of_mem c ha)
      refine ⟨f, Transition.run_cons_eq_some.mpr ⟨e, hcall, hrun⟩, ?_⟩
      rwa [List.append_assoc] at hf

/-- A daemon that is started first, and then reloaded and stopped in any order, always comes to
rest in `RUNNING`, `FAILED` or `STOPPED`, and its signals are a path in the graph from `INIT` to
there. Up to the first `stop()` it holds what `start()` has set up, reloads or not, and from then
on none of it, also when a reload has brought it back to `RUNNING`. Every `stop()` emits
`finished` once. -/
theorem run_holds_until_stop (env : Startup) (calls : List Call)
    (hcalls : ∀ c ∈ calls, c.isStart = false) :
    ∃ d, Transition.run call {} (.start env :: calls) = some d ∧ Path .init d.changes d.state ∧
      Rests d.state ∧ d.finished = calls.countP Call.isStop ∧
      (calls.countP Call.isStop = 0 → Holding env d) ∧
      (0 < calls.countP Call.isStop → Released d) := by
  obtain ⟨d, hstart, hloader, hpath, hrests, hholding, hfinished⟩ := start_holding env
  have hruns : Runs env [] d :=
    ⟨hloader, hpath, hrests, hfinished, fun _ => hholding, fun hpos => absurd hpos (by simp)⟩
  obtain ⟨e, hrun, he⟩ := hruns.run calls hcalls
  rw [List.nil_append] at he
  exact ⟨e, Transition.run_cons_eq_some.mpr ⟨d, hstart, hrun⟩, he.path, he.rests, he.finished,
    he.holding, he.released⟩

/-- A daemon that is stopped and reloaded: it says `RUNNING` and watches nothing. -/
theorem run_holds_until_stop_reload :
    let calls : List Call := [.stop, .reloadPlugins (some [])]
    ∃ d, Transition.run call {} (.start { plugins := some [] } :: calls) = some d ∧
      Path .init d.changes d.state ∧ Rests d.state ∧ d.finished = calls.countP Call.isStop ∧
      (calls.countP Call.isStop = 0 → Holding { plugins := some [] } d) ∧
      (0 < calls.countP Call.isStop → Released d) :=
  run_holds_until_stop { plugins := some [] } _ (by decide)

end DaemonCore

end LogMind
