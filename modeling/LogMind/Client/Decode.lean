import LogMind.Daemon.DBusService
import LogMind.Daemon.ProcessRaw

/-!
# What the client reads from the bus

The client takes the values out of the maps by key, and a key that is missing or a value
of another type gives the default of the conversion without an error. The daemon sends the
JSON members of an entry as strings, but the client asks for maps, and the client passes
on other members of a plugin than its panel reads.
-/

namespace LogMind

variable {Q F : Type} [DecidableEq Q]

namespace QVariant

def toQString (ext : External Q F) : QVariant Q → Q
  | string s => s
  | uint64 n => ext.fromStdString (ascii (toString n))
  | bool b => ext.fromStdString (if b then ascii "true" else ascii "false")
  | _ => ext.fromStdString []

def toULongLong (bus : Bus Q) : QVariant Q → Nat
  | uint64 n => n
  | string s => bus.toULongLong s
  | bool b => if b then 1 else 0
  | _ => 0

def toBool (bus : Bus Q) : QVariant Q → Bool
  | bool b => b
  | string s => bus.toBool s
  | uint64 n => n ≠ 0
  | _ => false

/-- `toMap()`: a string is no map. -/
def toMap : QVariant Q → QVariantMap Q
  | map members => members
  | _ => []

end QVariant

/-- The value of a key in a list of members. -/
def memberOf {α : Type} (members : List (Q × α)) (key : Q) : Option α :=
  (members.find? fun m => m.1 = key).map Prod.snd

/-- `QVariantMap::value(key)`. -/
def QVariantMap.value (ext : External Q F) (m : QVariantMap Q) (key : String) : QVariant Q :=
  (memberOf m (ext.fromStdString (ascii key))).getD .invalid

/-- `static_cast<qint64>` of a `quint64`. -/
def toQint64 (n : Nat) : Int := if n < 9223372036854775808 then n else (n : Int) - wordBound

structure LogItem (Q : Type) where
  id : Q
  source : Q
  raw : Q
  timestampNs : Int
  level : Q
  message : Q
  module : Q
  fields : QVariantMap Q
  tags : QVariantMap Q
  metaMap : QVariantMap Q

/-- The item that `MainWindow::onLogEntryReceived` builds. -/
def onLogEntryReceived (ext : External Q F) (bus : Bus Q) (entry : QVariantMap Q) : LogItem Q where
  id := (entry.value ext "id").toQString ext
  source := (entry.value ext "source").toQString ext
  raw := (entry.value ext "raw").toQString ext
  timestampNs := toQint64 ((entry.value ext "timestamp").toULongLong bus)
  level := (entry.value ext "level").toQString ext
  message := (entry.value ext "message").toQString ext
  module := (entry.value ext "module").toQString ext
  fields := (entry.value ext "fields").toMap
  tags := (entry.value ext "tags").toMap
  metaMap := (entry.value ext "meta").toMap

namespace QJson

end QJson

/-- A bus on which one list of plugins can be read. -/
def bytesBus (plugins : List PluginInfo) : Bus Bytes where
  dumpIndented := Json.renderIndentedDump
  fromJson text :=
    let sent := Json.array (plugins.map PluginInfo.toJson)
    if Json.renderIndentedDump sent = some text then some (sent.toQJson id) else none
  toULongLong _ := 0
  toBool s := !s.isEmpty

end LogMind
