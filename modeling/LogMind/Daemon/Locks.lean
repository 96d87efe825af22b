import LogMind.Library.LockOrder

/-!
# The mutexes of the daemon

Which mutex each function takes and what it calls while it holds it. Everything else a function
does is left out, a branch is a choice and a loop may have any number of rounds. The code of a
plugin is a parameter: most of it is called with no mutex held, but `match` runs under the mutex
of the collector cache, and so may `on_unload` and `destroy_plugin`, when the cache gives up the
last owner of a plugin; `manifest` runs under the mutex of the loader. The handler of the signals
runs on top of whatever a thread does.
-/

namespace LogMind

open LockOrder (Prog Mode)

inductive Lock where
  /-- `Pipeline::m_cache_mutex`. -/
  | cache
  /-- `FileWatcher::m_config_mutex`. -/
  | config
  /-- `Worker::mutex` of one shard. -/
  | worker (i : Nat)
  /-- `PluginLoader::m_mutex`. -/
  | loader
  /-- `Pipeline::m_alert_mutex`. -/
  | alert
  /-- `Pipeline::m_output_mutex`. -/
  | output
  /-- `VectorStore::Impl::mutex`. -/
  | store
  /-- `LogBuffer::m_mutex`. -/
  | buffer
  /-- `IPlugin::m_manifest_once` of a plugin: a second caller waits for the first. -/
  | manifestOnce (p : Nat)
  /-- The mutex a plugin may have of its own. -/
  | plugin (p : Nat)
  /-- `Pipeline::m_stats_mutex`. -/
  | stats

namespace Lock

/-- The order in which the mutexes are nested. -/
def rank : Lock → Nat
  | cache => 0
  | config => 1
  | worker _ => 2
  | loader => 3
  | alert => 4
  | output => 5
  | store => 6
  | buffer => 7
  | manifestOnce _ => 8
  | plugin _ => 9
  | stats => 10

/-- A `lock_guard` around a block. -/
def guard (l : Lock) (body : Prog Lock) : Prog Lock := .lock .exclusive l body

/-- A `shared_lock` around a block. -/
def sharedGuard (l : Lock) (body : Prog Lock) : Prog Lock := .lock .shared l body

/-- A section in which nothing else is locked. -/
def enter (l : Lock) : Prog Lock := .visit .exclusive l

end Lock

/-- The functions of a plugin. -/
structure PluginCode where
  create : Prog Lock := .skip
  destroy : Prog Lock := .skip
  manifest : Prog Lock := .skip
  onLoad : Prog Lock := .skip
  onUnload : Prog Lock := .skip
  matchScore : Prog Lock := .skip
  watchPatterns : Prog Lock := .skip
  parseLine : Prog Lock := .skip
  analyze : Prog Lock := .skip
  send : Prog Lock := .skip

/-- What the callers of a plugin hold is below what it locks. -/
structure PluginCode.Disciplined (code : PluginCode) : Prop where
  create : code.create.Ordered Lock.rank 0
  onLoad : code.onLoad.Ordered Lock.rank 0
  watchPatterns : code.watchPatterns.Ordered Lock.rank 0
  parseLine : code.parseLine.Ordered Lock.rank 0
  analyze : code.analyze.Ordered Lock.rank 0
  send : code.send.Ordered Lock.rank 0
  /-- Under the mutex of the cache. -/
  matchScore : code.matchScore.Ordered Lock.rank 1
  onUnload : code.onUnload.Ordered Lock.rank 1
  destroy : code.destroy.Ordered Lock.rank 1
  /-- Under the mutex of the loader and in the one call that caches it. -/
  manifest : code.manifest.Ordered Lock.rank 9

/-- The plugins that may ever be loaded, and the callback of the log buffer. -/
structure DaemonCode where
  plugins : Nat → PluginCode
  onEntry : Prog Lock := .skip

/-- The callback runs behind the section of the buffer, but inside that of the output. -/
structure DaemonCode.Disciplined (code : DaemonCode) : Prop where
  plugins : ∀ p, (code.plugins p).Disciplined
  onEntry : code.onEntry.Ordered Lock.rank 6

namespace DaemonCode

open Lock

variable (code : DaemonCode)

/-- Some plugins, one by one. -/
def eachPlugin (f : PluginCode → Prog Lock) : Prog Lock :=
  .loop (.any fun p => f (code.plugins p))

/-- `IPlugin::name()` and the other members of the cached manifest. -/
def name : Prog Lock := .any fun p => .maybe (guard (manifestOnce p) (code.plugins p).manifest)

/-- `LoadedPlugin::~LoadedPlugin` of the plugins whose last owner is gone. -/
def dropOwners : Prog Lock := code.eachPlugin fun plugin => .block [plugin.onUnload, plugin.destroy]

/-! ## `PluginLoader` -/

/-- `snapshot()` and what is done with it; the copy may be the last owner of plugins. -/
def withSnapshot (body : Prog Lock) : Prog Lock :=
  .block [sharedGuard loader .skip, body, code.dropOwners]

def recordFailure : Prog Lock := enter loader

/-- `rebuild_snapshot_locked` drops the old set, whose plugins the records still own or the
caller has taken out of them. -/
def loadPlugin : Prog Lock :=
  .block [sharedGuard loader .skip, .maybe (.choice recordFailure (.block [
    .any fun p => (code.plugins p).create,
    .choice recordFailure (.block [
      sharedGuard loader .skip,
      code.name,
      .any fun p => (code.plugins p).onLoad,
      .choice
        (.block [code.name, .any fun p => (code.plugins p).destroy, recordFailure])
        (.block [enter loader, code.name])])]))]

def loadDirectory : Prog Lock := .loop code.loadPlugin

def unloadPlugin : Prog Lock := .block [guard loader (.loop code.name), code.dropOwners]

def unloadAll : Prog Lock := .block [enter loader, code.dropOwners]

def setEnabled : Prog Lock := guard loader (.loop code.name)

def find : Prog Lock := sharedGuard loader (.loop code.name)

def listPlugins : Prog Lock := sharedGuard loader (code.eachPlugin PluginCode.manifest)

def loadedCount : Prog Lock := sharedGuard loader .skip

/-! ## `Pipeline` -/

def countError : Prog Lock := enter stats

/-- The new generation of the cache takes the place of the old one, and with it of the plugins
that nothing else owns any more. -/
def pickCollector : Prog Lock :=
  guard cache (.block [.maybe code.dropOwners, code.eachPlugin PluginCode.matchScore])

def runCollectors : Prog Lock :=
  .block [code.pickCollector,
    .maybe (.block [.any fun p => (code.plugins p).parseLine,
      .maybe (.block [code.name, .maybe countError])])]

def runAnalyzers : Prog Lock :=
  code.eachPlugin fun plugin => .block [plugin.analyze, .maybe (.block [code.name, countError])]

def selectAlerting : Prog Lock := guard alert (.maybe (enter stats))

def alertRule : Prog Lock := enter alert

def runAlerts : Prog Lock :=
  .maybe (.block [selectAlerting, .maybe (.block [alertRule,
    code.eachPlugin fun plugin => .block [plugin.send, .maybe (.block [code.name, countError])],
    enter stats])])

/-- `LogBuffer::push`: the callback is called behind the section. -/
def push : Prog Lock := .block [enter buffer, .maybe code.onEntry]

def storeEmbedding : Prog Lock := .maybe (enter store)

/-- The output callback, once for each entry. -/
def outputCallback : Prog Lock := .loop (.block [storeEmbedding, code.push])

def noteProcessed : Prog Lock := enter stats

/-- What `process_raw_now` and `process_entries` have in common. -/
def processCollected : Prog Lock :=
  .block [code.runAnalyzers, .maybe (.block [code.runAlerts,
    guard output (.maybe code.outputCallback), noteProcessed])]

def processRawNow : Prog Lock :=
  code.withSnapshot (.block [code.runCollectors, .maybe code.processCollected])

def processEntries : Prog Lock := .maybe (code.withSnapshot code.processCollected)

def processRaw : Prog Lock :=
  .choice (.any fun i => guard (worker i) (.maybe (enter stats))) code.processRawNow

def workerLoop (i : Nat) : Prog Lock :=
  .loop (.block [enter (worker i), code.processRawNow, enter (worker i)])

/-- A wait gives the mutex back and takes it again. -/
def flush : Prog Lock := .loop (.any fun i => enter (worker i))

def stopWorkers : Prog Lock := .loop (.any fun i => enter (worker i))

/-! ## `FileWatcher` -/

def registerPattern : Prog Lock := enter config

def matching : Prog Lock := enter config

def flushPending : Prog Lock := .loop code.processRaw

def drainFile : Prog Lock := .loop code.flushPending

def scanDirectory : Prog Lock := .loop (.block [matching, .maybe code.drainFile])

def startWatcher : Prog Lock := .block [enter config, .loop code.scanDirectory]

def inotifyLoop : Prog Lock :=
  .loop (.choice (.block [.loop code.scanDirectory, .loop code.drainFile])
    (.block [matching, .maybe code.drainFile]))

def pollLoop : Prog Lock :=
  .loop (.block [enter config, .loop code.scanDirectory, .loop code.drainFile])

/-! ## `DaemonCore` and `DaemonAdaptor` -/

def doLoadPlugins : Prog Lock := .block [code.loadDirectory, code.withSnapshot .skip, loadedCount]

def reloadPlugins : Prog Lock := .block [flush, code.unloadAll, code.doLoadPlugins]

def getStats : Prog Lock :=
  .block [enter stats, loadedCount, enter buffer, enter buffer, enter store]

def getStatus : Prog Lock := .block [loadedCount, enter buffer, enter buffer]

def healthTick : Prog Lock := .block [enter stats, enter buffer, enter store]

/-- One call over the bus or a tick of the health timer. -/
def request : Prog Lock :=
  .choice code.processRaw <| .choice (enter buffer) <| .choice (enter store) <|
    .choice code.listPlugins <| .choice (.block [code.find, code.name]) <|
    .choice code.setEnabled <| .choice code.reloadPlugins <|
    .choice getStats <| .choice getStatus healthTick

/-- The constructor installs the callback of the buffer and the configuration of the loader. -/
def construct : Prog Lock := .block [enter buffer, enter loader]

def doStartWatcher : Prog Lock :=
  code.withSnapshot (.block [code.eachPlugin PluginCode.watchPatterns, .loop registerPattern,
    code.startWatcher])

/-- The alert rule, the workers, the output callback and the store are set up in this order. -/
def start : Prog Lock :=
  .block [code.doLoadPlugins, enter alert, enter output, enter store, code.doStartWatcher]

def stop : Prog Lock := .block [flush, stopWorkers, code.unloadAll, enter store]

/-- `signal_handler`; before `g_daemon` is set it does nothing. -/
def signalHandler : Prog Lock := .maybe (.choice code.reloadPlugins code.stop)

/-- The threads of the daemon, and one that calls the rest of the public functions. -/
inductive Role where
  | main
  | inotify
  | poll
  | worker (i : Nat)
  | caller

def program : Role → Prog Lock
  | .main => .block [construct, code.start, .loop code.request, code.stop]
  | .inotify => code.inotifyLoop
  | .poll => code.pollLoop
  | .worker i => code.workerLoop i
  | .caller => .loop <| .choice code.processEntries <| .choice code.unloadPlugin <|
      .choice (enter alert) code.request

/-! ## Every function nests its mutexes in order -/

variable {code : DaemonCode}

@[simp] theorem ordered_guard {low : Nat} {l : Lock} {body : Prog Lock} :
    (guard l body).Ordered rank low ↔ low ≤ rank l ∧ body.Ordered rank (rank l + 1) :=
  Iff.rfl

@[simp] theorem ordered_sharedGuard {low : Nat} {l : Lock} {body : Prog Lock} :
    (sharedGuard l body).Ordered rank low ↔ low ≤ rank l ∧ body.Ordered rank (rank l + 1) :=
  Iff.rfl

@[simp] theorem ordered_enter {low : Nat} {l : Lock} :
    (enter l).Ordered rank low ↔ low ≤ rank l :=
  LockOrder.Prog.ordered_visit

@[simp] theorem ordered_eachPlugin {low : Nat} {f : PluginCode → Prog Lock} :
    (code.eachPlugin f).Ordered rank low ↔ ∀ p, (f (code.plugins p)).Ordered rank low :=
  Iff.rfl

namespace Disciplined

theorem name (h : code.Disciplined) {low : Nat} (hlow : low ≤ 8) :
    code.name.Ordered rank low := by
  intro p
  rw [LockOrder.Prog.ordered_maybe]
  exact ⟨hlow, (h.plugins p).manifest⟩

theorem dropOwners (h : code.Disciplined) {low : Nat} (hlow : low ≤ 1) :
    code.dropOwners.Ordered rank low := by
  have hunload : ∀ p, (code.plugins p).onUnload.Ordered rank low := fun p =>
    (h.plugins p).onUnload.mono hlow
  have hdestroy : ∀ p, (code.plugins p).destroy.Ordered rank low := fun p =>
    (h.plugins p).destroy.mono hlow
  simp [DaemonCode.dropOwners, hunload, hdestroy]

theorem withSnapshot (h : code.Disciplined) {body : Prog Lock} (hbody : body.Ordered rank 0) :
    (code.withSnapshot body).Ordered rank 0 := by
  simp [DaemonCode.withSnapshot, hbody, h.dropOwners]

theorem loadPlugin (h : code.Disciplined) : code.loadPlugin.Ordered rank 0 := by
  have hdestroy : ∀ p, (code.plugins p).destroy.Ordered rank 0 := fun p =>
    (h.plugins p).destroy.mono (Nat.zero_le _)
  simp [DaemonCode.loadPlugin, recordFailure, h.name, hdestroy, (h.plugins _).create,
    (h.plugins _).onLoad]

theorem unloadAll (h : code.Disciplined) : code.unloadAll.Ordered rank 0 := by
  simp [DaemonCode.unloadAll, h.dropOwners]

theorem unloadPlugin (h : code.Disciplined) : code.unloadPlugin.Ordered rank 0 := by
  simp [DaemonCode.unloadPlugin, h.dropOwners, h.name, rank]

theorem listPlugins (h : code.Disciplined) : code.listPlugins.Ordered rank 0 := by
  have hmanifest : ∀ p, (code.plugins p).manifest.Ordered rank (rank loader + 1) := fun p =>
    (h.plugins p).manifest.mono (by decide)
  simp [DaemonCode.listPlugins, hmanifest]

/-- `match` and the functions of a plugin that goes away run under the mutex of the cache. -/
theorem pickCollector (h : code.Disciplined) : code.pickCollector.Ordered rank 0 := by
  simp [DaemonCode.pickCollector, h.dropOwners, rank, (h.plugins _).matchScore]

theorem runCollectors (h : code.Disciplined) : code.runCollectors.Ordered rank 0 := by
  simp [DaemonCode.runCollectors, countError, h.pickCollector, h.name, (h.plugins _).parseLine]

theorem runAnalyzers (h : code.Disciplined) : code.runAnalyzers.Ordered rank 0 := by
  simp [DaemonCode.runAnalyzers, countError, h.name, (h.plugins _).analyze]

theorem runAlerts (h : code.Disciplined) : code.runAlerts.Ordered rank 0 := by
  simp [DaemonCode.runAlerts, countError, selectAlerting, alertRule, h.name, (h.plugins _).send,
    rank]

/-- The store and the buffer are entered inside the section of the output. -/
theorem outputCallback (h : code.Disciplined) :
    code.outputCallback.Ordered rank (rank output + 1) := by
  show code.outputCallback.Ordered rank 6
  simp [DaemonCode.outputCallback, storeEmbedding, push, h.onEntry, rank]

theorem processCollected (h : code.Disciplined) : code.processCollected.Ordered rank 0 := by
  simp [DaemonCode.processCollected, noteProcessed, h.runAnalyzers, h.runAlerts, h.outputCallback]

theorem processRawNow (h : code.Disciplined) : code.processRawNow.Ordered rank 0 :=
  h.withSnapshot (by simp [h.runCollectors, h.processCollected])

theorem processRaw (h : code.Disciplined) : code.processRaw.Ordered rank 0 := by
  simp [DaemonCode.processRaw, h.processRawNow, rank]

theorem scanDirectory (h : code.Disciplined) : code.scanDirectory.Ordered rank 0 := by
  simp [DaemonCode.scanDirectory, matching, drainFile, flushPending, h.processRaw]

theorem doLoadPlugins (h : code.Disciplined) : code.doLoadPlugins.Ordered rank 0 := by
  simp [DaemonCode.doLoadPlugins, loadDirectory, loadedCount, h.loadPlugin, h.withSnapshot]

theorem reloadPlugins (h : code.Disciplined) : code.reloadPlugins.Ordered rank 0 := by
  simp [DaemonCode.reloadPlugins, flush, h.doLoadPlugins, h.unloadAll]

theorem request (h : code.Disciplined) : code.request.Ordered rank 0 := by
  simp [DaemonCode.request, getStats, getStatus, healthTick, loadedCount, setEnabled, find,
    h.processRaw, h.listPlugins, h.reloadPlugins, h.name, rank]

theorem start (h : code.Disciplined) : code.start.Ordered rank 0 := by
  have hwatcher : code.doStartWatcher.Ordered rank 0 := by
    refine h.withSnapshot ?_
    simp [startWatcher, registerPattern, h.scanDirectory, (h.plugins _).watchPatterns]
  simp [DaemonCode.start, h.doLoadPlugins, hwatcher]

theorem stop (h : code.Disciplined) : code.stop.Ordered rank 0 := by
  simp [DaemonCode.stop, flush, stopWorkers, h.unloadAll]

theorem signalHandler (h : code.Disciplined) : code.signalHandler.Ordered rank 0 := by
  simp [DaemonCode.signalHandler, h.reloadPlugins, h.stop]

theorem program (h : code.Disciplined) (role : Role) :
    (code.program role).Ordered rank 0 := by
  cases role with
  | main => simp [DaemonCode.program, construct, h.start, h.request, h.stop]
  | inotify => simp [DaemonCode.program, inotifyLoop, matching, drainFile, flushPending,
      h.scanDirectory, h.processRaw]
  | poll => simp [DaemonCode.program, pollLoop, drainFile, flushPending, h.scanDirectory,
      h.processRaw]
  | worker i => simp [DaemonCode.program, workerLoop, h.processRawNow]
  | caller => simp [DaemonCode.program, processEntries, h.withSnapshot, h.processCollected,
      h.unloadPlugin, h.request]

end Disciplined

/-- The threads of a daemon at their start, with any number of each role. -/
def threads (code : DaemonCode) {ι : Type} (role : ι → Role) : LockOrder.Threads ι Lock :=
  fun i => [.run (code.program (role i))]

/-- A signal in a section of the loader: the handler comes to `unload_all`, and its thread waits
for itself. -/
theorem signal_under_loader {ι : Type} [DecidableEq ι] {s : LockOrder.Threads ι Lock} {i : ι}
    {mode : Mode} (hheld : LockOrder.Holds (s i) mode loader) :
    ∃ t, Relation.ReflTransGen LockOrder.Step (LockOrder.interrupted code.signalHandler s i) t ∧
      LockOrder.CircularWait t := by
  let rest : List (LockOrder.Frame Lock) :=
    [.run (.seq code.dropOwners .skip), .run (.seq code.doLoadPlugins .skip)] ++ s i
  -- the handler is `reload_plugins`, and there are no workers to flush
  have hsteps : ∀ {k k'}, LockOrder.Moves (fun _ _ => False) k k' →
      LockOrder.Step (Function.update s i k) (Function.update s i k') := by
    intro k k' hmoves
    refine ⟨i, k', ?_, by rw [Function.update_idem]⟩
    rw [Function.update_self]
    cases hmoves with
    | skip => exact .skip
    | lock h => exact absurd h id
    | release => exact .release
    | seq => exact .seq
    | any => exact .any
    | again => exact .again
    | done => exact .done
  refine ⟨Function.update s i (.run (enter loader) :: rest), ?_, ?_⟩
  · refine .head (hsteps (.any (n := 0))) <| .head (hsteps (.any (n := 0))) <|
      .head (hsteps .seq) <| .head (hsteps .done) <| .head (hsteps .seq) <|
      .single (hsteps .seq)
  · have hstill : LockOrder.Holds (Function.update s i (.run (enter loader) :: rest) i) mode
        loader := by
      rw [Function.update_self]
      exact List.mem_cons_of_mem _ (List.mem_append_right _ hheld)
    exact LockOrder.circularWait_self (Function.update_self _ _ _) hstill

/-! ## The plugins of the repository -/

end DaemonCode

end LogMind
