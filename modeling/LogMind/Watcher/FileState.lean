import LogMind.Core.Bytes
import LogMind.Library.Lines

/-!
# The state of one tracked file

`FileState` is what the watcher keeps for a path between two drains. The parts
of `drain_file` that do not touch the file system are functions on it: comparing
with a fresh `stat`, taking in what one read returned, and handing out the
finished lines. The elements of a line are arbitrary and read through `byte`,
because the code only ever looks for LF and CR; with `id` they are the bytes
themselves, and a run may also carry the origin of every byte along.
-/

namespace LogMind

def lf : UInt8 := 10

def cr : UInt8 := 13

/-- A longer unfinished line is handed out without its end. -/
def kMaxLineBytes : Nat := 1048576

/-- The size of one read. -/
def kReadChunk : Nat := 65536

structure FileState (β : Type*) where
  offset : Nat := 0
  inode : Nat := 0
  pending : List β := []

namespace FileState

variable {β : Type*} (byte : β → UInt8)

/-- The separator of lines. -/
def isLf (c : β) : Bool := byte c == lf

/-- A line without the CR in front of its LF. -/
def stripCr (line : List β) : List β :=
  if line.getLast?.map byte = some cr then line.dropLast else line

/-- The loop of `flush_pending` from position `i` on: the lines it hands out and
where the unfinished one starts. -/
def flushScan (pending : List β) : List β → Nat → Nat → List (List β) × Nat
  | [], _, start => ([], start)
  | c :: rest, i, start =>
      if isLf byte c then
        let stop := if start < i ∧ pending[i - 1]?.map byte = some cr then i - 1 else i
        let (lines, last) := flushScan pending rest (i + 1) (i + 1)
        ((pending.drop start).take (stop - start) :: lines, last)
      else flushScan pending rest (i + 1) start

/-- `flush_pending`: the lines passed to `process_raw` and the new residue. -/
def flushPending (pending : List β) : List (List β) × List β :=
  let (lines, start) := flushScan byte pending pending 0 0
  let residue := pending.drop start
  if kMaxLineBytes < residue.length then (lines ++ [residue], []) else (lines, residue)

/-- `drain_file` after `stat`: a different inode or a shorter file starts over. -/
def noteStat (state : FileState β) (inode size : Nat) : FileState β :=
  if state.inode ≠ 0 ∧ state.inode ≠ inode then { offset := 0, inode := inode, pending := [] }
  else if size < state.offset then { offset := 0, inode := inode, pending := [] }
  else { state with inode := inode }

/-- One round of the read loop: the bytes read move the offset and are flushed. -/
def receive (state : FileState β) (got : List β) : List (List β) × FileState β :=
  let (lines, residue) := flushPending byte (state.pending ++ got)
  (lines, { state with offset := state.offset + got.length, pending := residue })

theorem noteStat_inode (state : FileState β) (inode size : Nat) :
    (state.noteStat inode size).inode = inode := by
  unfold noteStat
  split
  · rfl
  · split <;> rfl

/-- On a file that keeps its inode and does not shrink a `stat` changes nothing
but the recorded inode. -/
theorem noteStat_eq (state : FileState β) {inode size : Nat}
    (hinode : state.inode = 0 ∨ state.inode = inode) (hsize : state.offset ≤ size) :
    state.noteStat inode size = { state with inode := inode } := by
  have hsame : ¬ (state.inode ≠ 0 ∧ state.inode ≠ inode) := by tauto
  rw [noteStat, if_neg hsame, if_neg (by omega)]

/-! ## What the loop hands out -/

/-- The substring handed out at an LF is the open line without its CR. -/
theorem take_stop (pre rest : List β) (c : β) {start : Nat} (hstart : start ≤ pre.length) :
    ((pre ++ c :: rest).drop start).take
        ((if start < pre.length ∧ (pre ++ c :: rest)[pre.length - 1]?.map byte = some cr then
          pre.length - 1 else pre.length) - start) =
      stripCr byte (pre.drop start) := by
  rw [List.drop_append_of_le_length hstart]
  have hlen : (pre.drop start).length = pre.length - start := List.length_drop
  by_cases hopen : start < pre.length
  · have hlast : (pre ++ c :: rest)[pre.length - 1]? = (pre.drop start).getLast? := by
      rw [List.getElem?_append_left (by omega), List.getLast?_drop, if_neg (by omega),
        List.getLast?_eq_getElem?]
    rw [hlast, stripCr]
    by_cases hcr : (pre.drop start).getLast?.map byte = some cr
    · rw [if_pos ⟨hopen, hcr⟩, if_pos hcr, List.take_append_of_le_length (by omega),
        List.dropLast_eq_take, hlen]
      congr 1
      omega
    · rw [if_neg (fun h => hcr h.2), if_neg hcr, List.take_append_of_le_length (by omega),
        List.take_of_length_le (by omega)]
  · have hnil : pre.drop start = [] := List.drop_of_length_le (by omega)
    rw [if_neg (fun h => hopen h.1), hnil, stripCr]
    simp [show pre.length - start = 0 by omega]

theorem flushScan_eq (pre rest : List β) (start : Nat) (hstart : start ≤ pre.length)
    (hopen : ∀ c ∈ pre.drop start, isLf byte c = false) :
    (flushScan byte (pre ++ rest) rest pre.length start).1 =
        (Lines.lines (isLf byte) (pre.drop start ++ rest)).map (stripCr byte) ∧
      (pre ++ rest).drop (flushScan byte (pre ++ rest) rest pre.length start).2 =
        Lines.tail (isLf byte) (pre.drop start ++ rest) := by
  induction rest generalizing pre start with
  | nil =>
      rw [List.append_nil, List.append_nil, Lines.lines_of_forall_not _ hopen,
        Lines.tail_of_forall_not _ hopen]
      exact ⟨rfl, rfl⟩
  | cons c rest ih =>
      have hsplit : pre ++ c :: rest = (pre ++ [c]) ++ rest := by simp
      have hlen : (pre ++ [c]).length = pre.length + 1 := by simp
      by_cases hc : isLf byte c = true
      · have hfresh : (pre ++ [c]).drop (pre.length + 1) = [] := by simp
        have hrest := ih (pre ++ [c]) (pre.length + 1) (by simp) (by rw [hfresh]; simp)
        rw [hfresh, List.nil_append, hlen, ← hsplit] at hrest
        rw [flushScan, if_pos hc, Lines.lines_append_sep _ hopen hc,
          Lines.tail_append_sep _ hopen hc, List.map_cons, ← hrest.1,
          ← take_stop byte pre rest c hstart]
        exact ⟨rfl, hrest.2⟩
      · have hdrop : (pre ++ [c]).drop start = pre.drop start ++ [c] :=
          List.drop_append_of_le_length hstart
        have hrest := ih (pre ++ [c]) start (by omega) (by
          rw [hdrop]
          intro d hd
          rcases List.mem_append.mp hd with hd | hd
          · exact hopen d hd
          · rw [List.mem_singleton.mp hd]
            exact Bool.eq_false_iff.mpr hc)
        rw [hdrop, hlen, ← hsplit, List.append_assoc, List.singleton_append] at hrest
        rw [flushScan, if_neg hc]
        exact hrest

/-- A flush hands out the finished lines and keeps the unfinished one, unless it
has become too long. -/
theorem flushPending_eq (pending : List β) :
    flushPending byte pending =
      if kMaxLineBytes < (Lines.tail (isLf byte) pending).length then
        ((Lines.lines (isLf byte) pending).map (stripCr byte) ++
          [Lines.tail (isLf byte) pending], [])
      else ((Lines.lines (isLf byte) pending).map (stripCr byte),
        Lines.tail (isLf byte) pending) := by
  obtain ⟨hlines, htail⟩ := flushScan_eq byte [] pending 0 (Nat.le_refl 0) (by simp)
  simp only [List.nil_append, List.drop_nil, List.length_nil] at hlines htail
  unfold flushPending
  rw [← hlines, ← htail]

/-- While no line is too long, a read hands out exactly the lines it finishes. -/
theorem receive_eq (state : FileState β) (got : List β)
    (hshort : (Lines.tail (isLf byte) (state.pending ++ got)).length ≤ kMaxLineBytes) :
    receive byte state got =
      ((Lines.lines (isLf byte) (state.pending ++ got)).map (stripCr byte),
        { state with
          offset := state.offset + got.length
          pending := Lines.tail (isLf byte) (state.pending ++ got) }) := by
  unfold receive
  rw [flushPending_eq, if_neg (by omega)]

theorem stripCr_sublist (line : List β) : (stripCr byte line).Sublist line := by
  unfold stripCr
  split
  · exact List.dropLast_sublist line
  · exact List.Sublist.refl line

theorem flatten_map_stripCr_sublist (ls : List (List β)) :
    (ls.map (stripCr byte)).flatten.Sublist ls.flatten := by
  induction ls with
  | nil => exact List.Sublist.refl _
  | cons line ls ih => exact (stripCr_sublist byte line).append ih

/-- The lines of a flush are taken from the front of the bytes, and the rest is kept. -/
theorem flushPending_spec (pending : List β) :
    ∃ consumed, pending = consumed ++ (flushPending byte pending).2 ∧
      (flushPending byte pending).1.flatten.Sublist consumed := by
  obtain ⟨front, hfront, hsub, -⟩ := Lines.exists_front (isLf byte) pending
  have hlines := (flatten_map_stripCr_sublist byte (Lines.lines (isLf byte) pending)).trans hsub
  rw [flushPending_eq]
  split
  · refine ⟨pending, (List.append_nil _).symm, ?_⟩
    rw [List.flatten_append, List.flatten_singleton]
    exact (hlines.append (List.Sublist.refl _)).trans (hfront ▸ List.Sublist.refl _)
  · exact ⟨front, hfront, hlines⟩

end FileState

end LogMind
