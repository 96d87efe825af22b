import LogMind.Core.Bytes
import LogMind.Library.RefCount
import LogMind.Library.Transition

/-!
# Loading and unloading plugins

The loader keeps its plugins in records and publishes a snapshot of them. A line takes
the snapshot when it begins and calls the plugins of it through raw pointers; the cache
of the collectors holds the snapshot that its pointers are from. Plugins and snapshots
are shared, and every copy or drop of a `shared_ptr` counts. An object is known by its
number, in the order of creation.

Every section under a mutex is one step, and so is every call of a plugin. What
`unload_plugin` and `unload_all` drop is released in a step of its own, behind the lock,
and a plugin that is being loaded is held by `load_plugin` until its record is pushed.
-/

namespace LogMind

structure LoadedPlugin where
  name : Bytes
  soPath : Bytes
  isCollector : Bool := false
  isAnalyzer : Bool := false
  isAlert : Bool := false
  matchScore : Bytes → Int := fun _ => 0

structure Record where
  /-- `none` for a file that could not be loaded. -/
  plugin : Option Nat := none
  soPath : Bytes
  error : Bytes := []
  enabled : Bool := true

structure PluginSet where
  all : List Nat := []
  collectors : List Nat := []
  analyzers : List Nat := []
  alerts : List Nat := []

inductive CallPhase where
  /-- Before `pick_collector`. -/
  | picking (source : Bytes)
  | parsing (collector : Option Nat)
  | analyzing (rest : List Nat)
  | alerting (rest : List Nat)
  | finishing

structure PluginCall where
  plugins : Nat
  phase : CallPhase

structure PluginHost where
  instances : List LoadedPlugin := []
  plugins : RefCount.Pool Nat := { refs := fun _ => 0 }
  /-- The snapshots that were made so far; the first one is that of the constructor. -/
  sets : List PluginSet := [{}]
  setPool : RefCount.Pool Nat := { refs := fun j => if j = 0 then 1 else 0, live := [0] }
  records : List Record := []
  snapshot : Nat := 0
  cacheGeneration : Option Nat := none
  collectorCache : List (Bytes × Option Nat) := []
  calls : List PluginCall := []
  /-- The plugins whose records are still to be pushed. -/
  loading : List Nat := []
  /-- What the calls of `unload_plugin` and `unload_all` are about to drop. -/
  dropped : List (List Nat) := []

namespace PluginHost

def setOf (s : PluginHost) (j : Nat) : PluginSet := s.sets.getD j {}

def is (instances : List LoadedPlugin) (kind : LoadedPlugin → Bool) (i : Nat) : Bool :=
  instances[i]?.any kind

/-- The loop of `rebuild_snapshot_locked` for one record. -/
def addRecord (instances : List LoadedPlugin) (set : PluginSet) (r : Record) : PluginSet :=
  match r.plugin with
  | none => set
  | some i =>
      let set := { set with all := set.all ++ [i] }
      if !r.enabled then set
      else
        { set with
          collectors :=
            if is instances LoadedPlugin.isCollector i then set.collectors ++ [i]
            else set.collectors
          analyzers :=
            if is instances LoadedPlugin.isAnalyzer i then set.analyzers ++ [i]
            else set.analyzers
          alerts :=
            if is instances LoadedPlugin.isAlert i then set.alerts ++ [i] else set.alerts }

def buildSet (instances : List LoadedPlugin) (records : List Record) : PluginSet :=
  records.foldl (addRecord instances) {}

/-- A pointer to a snapshot is dropped; with the last one its plugins are. -/
def releaseSet (s : PluginHost) (j : Nat) : PluginHost :=
  { s with
    setPool := s.setPool.release j
    plugins := if s.setPool.refs j = 1 then s.plugins.releaseAll (s.setOf j).all else s.plugins }

def rebuild (s : PluginHost) : PluginHost :=
  let set := buildSet s.instances s.records
  releaseSet { s with
    sets := s.sets ++ [set]
    plugins := s.plugins.acquireAll set.all
    setPool := s.setPool.allocate s.sets.length
    snapshot := s.sets.length } s.snapshot

def loaded (records : List Record) : List Nat := records.filterMap Record.plugin

def isNamed (s : PluginHost) (name : Bytes) (r : Record) : Bool :=
  r.plugin.any fun i => is s.instances (fun p => p.name == name) i

/-- `load_plugin` up to the new `LoadedPlugin`. A file that is loaded is left alone. -/
def load (s : PluginHost) (plugin : LoadedPlugin) : PluginHost :=
  if s.records.any fun r => r.plugin.isSome && r.soPath == plugin.soPath then s
  else
    { s with
      instances := s.instances ++ [plugin]
      plugins := s.plugins.allocate s.instances.length
      loading := s.loading ++ [s.instances.length] }

def publish (s : PluginHost) (k : Nat) : Option PluginHost :=
  s.loading[k]?.map fun i =>
    rebuild { s with
      loading := s.loading.eraseIdx k
      records := s.records ++ [{
        plugin := some i
        soPath := (s.instances[i]?.map LoadedPlugin.soPath).getD [] }] }

def unloadPlugin (s : PluginHost) (name : Bytes) : PluginHost :=
  match s.records.find? (s.isNamed name) with
  | none => s
  | some r =>
      rebuild { s with
        records := s.records.eraseP (s.isNamed name)
        dropped := s.dropped ++ [r.plugin.toList] }

def unloadAll (s : PluginHost) : PluginHost :=
  rebuild { s with records := [], dropped := s.dropped ++ [loaded s.records] }

/-- The first record of a name is enabled or disabled. -/
def enableFirst (named : Record → Bool) (enabled : Bool) : List Record → List Record
  | [] => []
  | r :: records =>
      if named r then { r with enabled := enabled } :: records
      else r :: enableFirst named enabled records

def setEnabled (s : PluginHost) (name : Bytes) (enabled : Bool) : PluginHost :=
  if s.records.any (s.isNamed name) then
    rebuild { s with records := enableFirst (s.isNamed name) enabled s.records }
  else s

def release (s : PluginHost) (k : Nat) : Option PluginHost :=
  s.dropped[k]?.map fun plugins =>
    { s with dropped := s.dropped.eraseIdx k, plugins := s.plugins.releaseAll plugins }

/-- A call begins with a copy of the snapshot. -/
def begin_ (s : PluginHost) (phase : CallPhase) : PluginHost :=
  { s with
    setPool := s.setPool.acquire s.snapshot
    calls := s.calls ++ [{ plugins := s.snapshot, phase := phase }] }

def setPhase (s : PluginHost) (c : Nat) (phase : CallPhase) : PluginHost :=
  { s with calls := s.calls.modify c fun call => { call with phase := phase } }

/-- `pick_collector` up to the lookup: a new snapshot discards the cache. -/
def openCache (s : PluginHost) (j : Nat) : PluginHost :=
  if s.cacheGeneration = some j then s
  else
    let t := { s with
      setPool := s.setPool.acquire j
      cacheGeneration := some j
      collectorCache := [] }
    match s.cacheGeneration with
    | none => t
    | some old => t.releaseSet old

def bestCollector (s : PluginHost) (source : Bytes) : List Nat → Int → Option Nat → Option Nat
  | [], _, best => best
  | i :: collectors, bestScore, best =>
      let score := (s.instances[i]?.map fun p => p.matchScore source).getD 0
      if bestScore < score then bestCollector s source collectors score (some i)
      else bestCollector s source collectors bestScore best

def pick (s : PluginHost) (c j : Nat) (source : Bytes) : PluginHost :=
  let s := s.openCache j
  match s.collectorCache.lookup source with
  | some best => s.setPhase c (.parsing best)
  | none =>
      let best := s.bestCollector source (s.setOf j).collectors 0 none
      { s with collectorCache := s.collectorCache ++ [(source, best)] }.setPhase c (.parsing best)

inductive Action where
  | load (plugin : LoadedPlugin)
  /-- `record_failure`. -/
  | recordFailure (soPath error : Bytes)
  | publish (k : Nat)
  | unloadPlugin (name : Bytes)
  | unloadAll
  | setEnabled (name : Bytes) (enabled : Bool)
  | release (k : Nat)
  | processRaw (source : Bytes)
  | processEntries
  | pick (c : Nat)
  | parse (c : Nat)
  | analyze (c : Nat)
  | alert (c : Nat)
  /-- There is nothing left to process. -/
  | skip (c : Nat)
  /-- The call returns and drops its snapshot. -/
  | finish (c : Nat)

def Action.Begins : Action → Prop
  | .processRaw _ | .processEntries => True
  | _ => False

def step (s : PluginHost) : Action → Option PluginHost
  | .load plugin => some (s.load plugin)
  | .recordFailure soPath error =>
      some { s with
        records := s.records ++ [{ soPath := soPath, error := error, enabled := false }] }
  | .publish k => s.publish k
  | .unloadPlugin name => some (s.unloadPlugin name)
  | .unloadAll => some s.unloadAll
  | .setEnabled name enabled => some (s.setEnabled name enabled)
  | .release k => s.release k
  | .processRaw source => some (s.begin_ (.picking source))
  | .processEntries => some (s.begin_ (.analyzing (s.setOf s.snapshot).analyzers))
  | .pick c =>
      match s.calls[c]? with
      | some ⟨j, .picking source⟩ => some (s.pick c j source)
      | _ => none
  | .parse c =>
      match s.calls[c]? with
      | some ⟨j, .parsing _⟩ => some (s.setPhase c (.analyzing (s.setOf j).analyzers))
      | _ => none
  | .analyze c =>
      match s.calls[c]? with
      | some ⟨_, .analyzing (_ :: rest)⟩ => some (s.setPhase c (.analyzing rest))
      | some ⟨j, .analyzing []⟩ => some (s.setPhase c (.alerting (s.setOf j).alerts))
      | _ => none
  | .alert c =>
      match s.calls[c]? with
      | some ⟨_, .alerting (_ :: rest)⟩ => some (s.setPhase c (.alerting rest))
      | some ⟨_, .alerting []⟩ => some (s.setPhase c .finishing)
      | _ => none
  | .skip c => s.calls[c]?.map fun _ => s.setPhase c .finishing
  | .finish c =>
      match s.calls[c]? with
      | some ⟨j, .finishing⟩ => some (releaseSet { s with calls := s.calls.eraseIdx c } j)
      | _ => none

/-- The plugins that a step calls: `match` of every collector on a miss of the cache, and
the parser, the analyzer or the alert that is next. -/
def invoked (s : PluginHost) : Action → List Nat
  | .pick c =>
      match s.calls[c]? with
      | some ⟨j, .picking source⟩ =>
          if ((s.openCache j).collectorCache.lookup source).isSome then []
          else (s.setOf j).collectors
      | _ => []
  | .parse c =>
      match s.calls[c]? with
      | some ⟨_, .parsing collector⟩ => collector.toList
      | _ => []
  | .analyze c =>
      match s.calls[c]? with
      | some ⟨_, .analyzing (i :: _)⟩ => [i]
      | _ => []
  | .alert c =>
      match s.calls[c]? with
      | some ⟨_, .alerting (i :: _)⟩ => [i]
      | _ => []
  | _ => []

end PluginHost

end LogMind
