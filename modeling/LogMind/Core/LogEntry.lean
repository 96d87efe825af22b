import LogMind.Core.Json
import LogMind.Core.Strings

/-!
# Log entries

The record every component passes on. The three JSON members hold whatever a
plugin puts there.
-/

namespace LogMind

inductive LogLevel where
  | debug
  | info
  | warn
  | error
  | fatal
  deriving DecidableEq, Repr

namespace LogLevel

/-- The `uint8_t` behind the enumeration, by which levels are compared. -/
def code : LogLevel → Nat
  | debug => 0
  | info => 1
  | warn => 2
  | error => 3
  | fatal => 4

/-- `to_string(LogLevel)`. -/
def name : LogLevel → Bytes
  | debug => ascii "DEBUG"
  | info => ascii "INFO"
  | warn => ascii "WARN"
  | error => ascii "ERROR"
  | fatal => ascii "FATAL"

/-- `log_level_from_string`: an unknown name is `INFO`. -/
def ofString (s : Bytes) : LogLevel :=
  if s = ascii "DEBUG" then debug
  else if s = ascii "INFO" then info
  else if s = ascii "WARN" then warn
  else if s = ascii "ERROR" then error
  else if s = ascii "FATAL" then fatal
  else info

/-- The two conversions agree on every level. -/
theorem ofString_name (l : LogLevel) : ofString l.name = l := by
  cases l <;> decide

/-- The level of the first word of a list that the line contains in any case. -/
def guess (probes : List (Bytes × LogLevel)) (line : Bytes) : LogLevel :=
  match probes.find? fun probe => containsUpper line probe.1 with
  | none => info
  | some probe => probe.2

end LogLevel

structure LogEntry where
  source : Bytes := []
  raw : Bytes := []
  /-- Nanoseconds since the epoch. -/
  timestamp : Int := 0
  level : LogLevel := .info
  message : Bytes := []
  module : Bytes := []
  fields : Json := .null
  tags : Json := .null
  metaJson : Json := .null

end LogMind
