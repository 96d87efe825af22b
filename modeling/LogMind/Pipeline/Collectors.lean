import LogMind.Core.LogEntry

/-!
# Running the collectors

The collector with the highest positive score for a file parses its lines; a file
no collector wants gets a plain entry. A throw of `parse_line` is caught and
counted. The assignment of `source_file` behind it is not inside the `try`, so
its throw is the caller's, and the result is `none`.
-/

namespace LogMind

structure ParseResult where
  entries : List LogEntry := []
  linesRead : Nat := 0
  linesParsed : Nat := 0
  linesSkipped : Nat := 0
  error : Bytes := []

structure Collector where
  name : Bytes
  matchScore : Bytes → Int
  /-- The result for a line read at a time; `none` is a `std::exception`. -/
  parseLine : Int → Bytes → Option ParseResult

namespace Pipeline

/-- The loop of `pick_collector` on a cache miss: the first of the highest scores. -/
def pickCollector (source : Bytes) : List Collector → Int → Option Collector → Option Collector
  | [], _, best => best
  | c :: collectors, bestScore, best =>
      if bestScore < c.matchScore source then
        pickCollector source collectors (c.matchScore source) (some c)
      else pickCollector source collectors bestScore best

/-- The words the entry of last resort takes its level from. -/
def fallbackProbes : List (Bytes × LogLevel) :=
  [(ascii "FATAL", .fatal), (ascii "ERROR", .error), (ascii "WARN", .warn),
    (ascii "DEBUG", .debug)]

def fallback (now : Int) (source line : Bytes) : LogEntry where
  source := source
  raw := line
  message := line
  timestamp := now
  level := LogLevel.guess fallbackProbes line
  module := ascii "fallback"
  metaJson := .object [(ascii "source_file", .string source)]

/-- What `run_collectors` fills in behind the collector. -/
def complete (collector : Collector) (source line : Bytes) (entry : LogEntry) :
    Option LogEntry := do
  let metaJson ← entry.metaJson.setMember (ascii "source_file") (.string source)
  return { entry with
    source := if entry.source.isEmpty then collector.name else entry.source
    raw := if entry.raw.isEmpty then line else entry.raw
    metaJson := metaJson }

/-- `run_collectors`, with `total_errors` before and after. -/
def runCollectors (collectors : List Collector) (now : Int) (source line : Bytes)
    (totalErrors : Nat) : Option (List LogEntry × Nat) :=
  match pickCollector source collectors 0 none with
  | none => some ([fallback now source line], totalErrors)
  | some collector =>
      match collector.parseLine now line with
      | none => some ([], totalErrors + 1)
      | some result =>
          (result.entries.mapM (complete collector source line)).map fun entries =>
            (entries, totalErrors)

end Pipeline

end LogMind
