import LogMind.Daemon.Output

/-!
# What the daemon puts on the bus

A log entry goes out as a map of variants, and the list of plugins as the text of a JSON
array. Both sides of the bus know the other only by the names of the keys and by the types
of the values.
-/

namespace LogMind

/-- The values of a `QVariant` that occur in the messages. -/
inductive QVariant (Q : Type) where
  | invalid
  | string (s : Q)
  | uint64 (n : Nat)
  | bool (b : Bool)
  | map (members : List (Q × QVariant Q))

abbrev QVariantMap (Q : Type) := List (Q × QVariant Q)

/-- A JSON value as `QJsonDocument` holds it. -/
inductive QJson (Q : Type) where
  | null
  | bool (b : Bool)
  | number (n : Int)
  | string (s : Q)
  | array (items : List (QJson Q))
  | object (members : List (Q × QJson Q))

/-- What the bus and the client use of Qt and of the JSON library: `dump(2)`, which may
throw, `QJsonDocument::fromJson`, and the conversions of a string to a number and to a
truth value. -/
structure Bus (Q : Type) where
  dumpIndented : Json → Option Bytes
  fromJson : Q → Option (QJson Q)
  toULongLong : Q → Nat
  toBool : Q → Bool

variable {Q F : Type}

/-- A map with keys from the source. -/
def literalMap {α : Type} (fromStdString : Bytes → Q) (members : List (Bytes × α)) :
    List (Q × α) :=
  members.map fun m => (fromStdString m.1, m.2)

/-- The map that `log_entry_to_varmap` returns. -/
def VarMap.toVariantMap (ext : External Q F) (m : VarMap Q) : QVariantMap Q :=
  literalMap ext.fromStdString
    [(ascii "source", .string m.source), (ascii "raw", .string m.raw),
      (ascii "timestamp", .uint64 m.timestamp), (ascii "level", .string m.level),
      (ascii "message", .string m.message), (ascii "module", .string m.module),
      (ascii "fields", .string m.fields), (ascii "tags", .string m.tags),
      (ascii "meta", .string m.metaJson)]

inductive PluginType where
  | collector
  | analyzer
  | alert
  deriving DecidableEq

/-- `to_string(PluginType)`. -/
def PluginType.name : PluginType → Bytes
  | collector => ascii "Collector"
  | analyzer => ascii "Analyzer"
  | alert => ascii "Alert"

structure PluginInfo where
  name : Bytes := []
  version : Bytes := []
  description : Bytes := []
  author : Bytes := []
  type : PluginType := .collector
  loaded : Bool := false
  enabled : Bool := true
  soPath : Bytes := []
  error : Bytes := []

/-- The object that `ListPlugins` writes for a plugin, in the order of its keys. -/
def PluginInfo.toJson (p : PluginInfo) : Json :=
  .object [(ascii "author", .string p.author), (ascii "description", .string p.description),
    (ascii "enabled", .bool p.enabled), (ascii "error", .string p.error),
    (ascii "loaded", .bool p.loaded), (ascii "name", .string p.name),
    (ascii "so_path", .string p.soPath), (ascii "type", .string p.type.name),
    (ascii "version", .string p.version)]

/-- `DaemonAdaptor::ListPlugins`; `none` is an exception of `dump`. -/
def listPlugins (ext : External Q F) (bus : Bus Q) (plugins : List PluginInfo) : Option Q :=
  (bus.dumpIndented (.array (plugins.map PluginInfo.toJson))).map ext.fromStdString

mutual

/-- The same value with the strings of Qt. -/
def Json.toQJson (fromStdString : Bytes → Q) : Json → QJson Q
  | .null => .null
  | .bool b => .bool b
  | .number n => .number n
  | .string s => .string (fromStdString s)
  | .array items => .array (Json.toQItems fromStdString items)
  | .object members => .object (Json.toQMembers fromStdString members)

def Json.toQItems (fromStdString : Bytes → Q) : List Json → List (QJson Q)
  | [] => []
  | item :: items => item.toQJson fromStdString :: Json.toQItems fromStdString items

def Json.toQMembers (fromStdString : Bytes → Q) : List (Bytes × Json) → List (Q × QJson Q)
  | [] => []
  | (key, value) :: members =>
      (fromStdString key, value.toQJson fromStdString) :: Json.toQMembers fromStdString members

end

end LogMind
