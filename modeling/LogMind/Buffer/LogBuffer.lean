import LogMind.Buffer.Tokenize
import LogMind.Library.BoundedScan
import Mathlib.Data.List.AList

/-!
# The log buffer

A ring of the newest entries with an inverted index cut into segments. Every
entry gets the next global identifier; a segment covers a range of identifiers
and maps a token to the identifiers of its range whose message has that token.
The ring drops entries one by one from the front, the index only whole segments,
so a segment may still list identifiers that have left the ring.
-/

namespace LogMind

/-- One segment of the index, for the identifiers from `firstId` to `lastId`. -/
structure Segment where
  firstId : Nat := 0
  lastId : Nat := 0
  index : AList (fun _ : Bytes => List Nat) := ∅

namespace Segment

/-- The list of a token; a token that is not in the map has none. -/
def postings (seg : Segment) (token : Bytes) : List Nat := (seg.index.lookup token).getD []

/-- `postings.push_back(id)` unless the list already ends in `id`. -/
def addPosting (id : Nat) (seg : Segment) (token : Bytes) : Segment :=
  let postings := seg.postings token
  let extended := if postings.getLast? = some id then postings else postings ++ [id]
  { seg with index := seg.index.insert token extended }

/-- Whether the segment already spans as many identifiers as it may. -/
def isFull (span : Nat) (seg : Segment) : Bool :=
  span ≤ (sub64 seg.lastId seg.firstId + 1) % wordBound

end Segment

structure LogBuffer where
  items : List LogEntry := []
  segments : List Segment := []
  capacity : Nat
  segmentSpan : Nat
  oldestId : Nat := 1
  nextId : Nat := 1
  totalPushed : Nat := 0
  totalDiscarded : Nat := 0

namespace LogBuffer

/-- The constructor: a capacity of zero counts as one. -/
def new (capacity : Nat) : LogBuffer :=
  let effective := if capacity = 0 then 1 else capacity
  { capacity := effective, segmentSpan := max 1024 (effective / 8) }

/-- The closed segments and the one that takes the entry `id`. -/
def openSegment (span : Nat) (segments : List Segment) (id : Nat) : List Segment × Segment :=
  match segments.getLast? with
  | none => (segments, { firstId := id, lastId := id })
  | some back =>
      if back.isFull span then (segments, { firstId := id, lastId := id })
      else (segments.dropLast, { back with lastId := id })

def indexEntryLocked (b : LogBuffer) (message : Bytes) (id : Nat) : LogBuffer :=
  let (closed, seg) := openSegment b.segmentSpan b.segments id
  { b with segments := closed ++ [(tokenize message).foldl (Segment.addPosting id) seg] }

/-- The loop that pops the front of the ring, with the counters it moves. -/
def discardFront (capacity : Nat) : List LogEntry → Nat → Nat → List LogEntry × Nat × Nat
  | [], oldest, discarded => ([], oldest, discarded)
  | e :: items, oldest, discarded =>
      if capacity < (e :: items).length then
        discardFront capacity items ((oldest + 1) % wordBound) ((discarded + 1) % wordBound)
      else (e :: items, oldest, discarded)

def discardOverflow (b : LogBuffer) : LogBuffer :=
  let (items, oldest, discarded) := discardFront b.capacity b.items b.oldestId b.totalDiscarded
  { b with items := items, oldestId := oldest, totalDiscarded := discarded }

/-- Whole segments are dropped while all their identifiers have left the ring. -/
def dropStale (oldest : Nat) : List Segment → List Segment
  | front :: next :: rest =>
      if front.lastId < oldest then dropStale oldest (next :: rest) else front :: next :: rest
  | segments => segments

def evictSegmentsLocked (b : LogBuffer) : LogBuffer :=
  { b with segments := dropStale b.oldestId b.segments }

def push (b : LogBuffer) (entry : LogEntry) : LogBuffer :=
  let id := b.nextId
  let stored := { b with
    nextId := (b.nextId + 1) % wordBound
    oldestId := if b.items.isEmpty then id else b.oldestId
    items := b.items ++ [entry] }
  let indexed := stored.indexEntryLocked entry.message id
  let counted := { indexed with totalPushed := (indexed.totalPushed + 1) % wordBound }
  counted.discardOverflow.evictSegmentsLocked

def entryForLocked (b : LogBuffer) (id : Nat) : Option LogEntry :=
  if id < b.oldestId then none else b.items[sub64 id b.oldestId]?

/-- The first loop of `lookup_segment`. A list is named by its token, as the
source names it by its address; `none` is the early return of no match. -/
def findShortest (seg : Segment) : List Bytes → Option Bytes → Option (Option Bytes)
  | [], shortest => some shortest
  | token :: tokens, shortest =>
      match seg.index.lookup token with
      | none => none
      | some found =>
          match shortest with
          | none => findShortest seg tokens (some token)
          | some best =>
              if found.length < (seg.postings best).length then
                findShortest seg tokens (some token)
              else findShortest seg tokens (some best)

/-- The second loop of `lookup_segment`: every other token filters the result. -/
def filterPostings (seg : Segment) (shortest : Bytes) : List Bytes → List Nat → List Nat
  | [], result => result
  | token :: tokens, result =>
      if token = shortest then filterPostings seg shortest tokens result
      else
        let kept := result.filter (fun id => (seg.postings token).contains id)
        if kept.isEmpty then kept else filterPostings seg shortest tokens kept

def lookupSegment (seg : Segment) (tokens : List Bytes) : List Nat :=
  match findShortest seg tokens none with
  | some (some shortest) => filterPostings seg shortest tokens (seg.postings shortest)
  | _ => []

/-- The answer from the index, newest segment first and newest entry first. -/
def searchIndex (b : LogBuffer) (tokens : List Bytes) (limit : Nat) : List LogEntry :=
  BoundedScan.collectBlocks limit b.entryForLocked
    (fun seg => (lookupSegment seg tokens).reverse) b.segments.reverse []

/-- The linear scan that answers when the index finds nothing. -/
def searchScan (b : LogBuffer) (query : Bytes) (limit : Nat) : List LogEntry :=
  BoundedScan.collect limit
    (fun e => if containsCi e.message (toLower query) then some e else none) b.items.reverse []

def search (b : LogBuffer) (query : Bytes) (limit : Nat) : List LogEntry :=
  if limit = 0 ∨ b.items.isEmpty then []
  else if query.isEmpty then BoundedScan.collect limit some b.items.reverse []
  else
    let tokens := tokenize query
    if tokens.isEmpty then b.searchScan query limit
    else
      let result := b.searchIndex tokens limit
      if result.isEmpty then b.searchScan query limit else result

/-- The buffer after a sequence of pushes. -/
def after (capacity : Nat) (history : List LogEntry) : LogBuffer :=
  history.foldl push (new capacity)

end LogBuffer

end LogMind
