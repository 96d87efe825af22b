import LogMind.Library.Transition
import LogMind.Watcher.FileState

/-!
# Tailing one growing file

A file that keeps its inode and only grows, and the drains of the watcher on it.
The writer may append at any moment, also between the `stat` of a drain and each
of its reads, so a drain is a `stat` step followed by read steps. `bytesRead`
and `emitted` record what the reads returned and what was passed to
`process_raw`.
-/

namespace LogMind

structure Tail where
  content : Bytes
  file : FileState UInt8
  /-- A drain is between its reads, with the stream at the offset. -/
  reading : Bool := false
  bytesRead : Bytes := []
  emitted : List Bytes := []

namespace Tail

inductive Action where
  | append (bytes : Bytes)
  | drain (opened : Bool)
  | read

/-- A file tracked from `start` on. The inode is known to the watcher when the
file has been scanned and not yet known when it was announced by an event. -/
def start (scanned : Bool) (inode : Nat) (content : Bytes) (start : Nat) : Tail :=
  { content := content
    file := { offset := start, inode := if scanned then inode else 0 } }

/-- What the next read of the open stream returns. -/
def available (t : Tail) : Bytes := (t.content.drop t.file.offset).take kReadChunk

def step (inode : Nat) (t : Tail) : Action → Option Tail
  | .append bytes => some { t with content := t.content ++ bytes }
  | .drain opened =>
      if t.reading then none
      else
        let file := t.file.noteStat inode t.content.length
        some { t with
          file := file
          reading := opened && file.offset < t.content.length }
  | .read =>
      if t.reading then
        let got := t.available
        if got.isEmpty then some { t with reading := false }
        else
          let (lines, file) := FileState.receive id t.file got
          -- a short read has met the end of the file and ends the loop
          some { t with
            file := file
            reading := got.length == kReadChunk
            bytesRead := t.bytesRead ++ got
            emitted := t.emitted ++ lines }
      else none

/-- The lines of a byte string that an LF ends, each without one trailing CR. -/
def terminatedLines (bytes : Bytes) : List Bytes :=
  (Lines.lines (FileState.isLf id) bytes).map (FileState.stripCr id)

/-- What follows the last LF. -/
def unterminated (bytes : Bytes) : Bytes := Lines.tail (FileState.isLf id) bytes

/-- No line of the byte string, finished or not, is longer than the limit. -/
def ShortLines (bytes : Bytes) : Prop := Lines.Within (FileState.isLf id) kMaxLineBytes bytes

/-- The relation between what was read, what is kept and what was handed out. -/
structure Exact (inode first : Nat) (t : Tail) : Prop where
  inode_eq : t.file.inode = 0 ∨ t.file.inode = inode
  first_le : first ≤ t.content.length
  offset_eq : t.file.offset = first + t.bytesRead.length
  read_prefix : t.bytesRead <+: t.content.drop first
  lines_eq : ShortLines (t.content.drop first) →
    t.emitted = terminatedLines t.bytesRead ∧ t.file.pending = unterminated t.bytesRead

theorem start_exact (scanned : Bool) (inode : Nat) (content : Bytes) {first : Nat}
    (hfirst : first ≤ content.length) :
    Exact inode first (start scanned inode content first) := by
  refine ⟨?_, hfirst, rfl, List.nil_prefix, fun _ => ⟨rfl, rfl⟩⟩
  cases scanned
  · exact Or.inl rfl
  · exact Or.inr rfl

namespace Exact

variable {inode first : Nat} {t : Tail}

theorem append (h : Exact inode first t) (bytes : Bytes) :
    Exact inode first { t with content := t.content ++ bytes } := by
  have hdrop : (t.content ++ bytes).drop first = t.content.drop first ++ bytes :=
    List.drop_append_of_le_length h.first_le
  refine ⟨h.inode_eq, ?_, h.offset_eq, ?_, ?_⟩
  · have hle := h.first_le
    rw [List.length_append]
    omega
  · rw [hdrop]
    exact h.read_prefix.trans (List.prefix_append _ _)
  · intro hshort
    rw [hdrop] at hshort
    exact h.lines_eq (Lines.Within.of_append _ hshort)

theorem drain (h : Exact inode first t) (reading : Bool) :
    Exact inode first { t with
      file := t.file.noteStat inode t.content.length, reading := reading } := by
  have hsize : t.file.offset ≤ t.content.length := by
    have hle := h.read_prefix.length_le
    rw [List.length_drop] at hle
    have hfirst := h.first_le
    rw [h.offset_eq]
    omega
  rw [FileState.noteStat_eq t.file h.inode_eq hsize]
  exact ⟨Or.inr rfl, h.first_le, h.offset_eq, h.read_prefix, h.lines_eq⟩

/-- What a read returns continues what was read before. -/
theorem read_prefix_append (h : Exact inode first t) :
    t.bytesRead ++ t.available <+: t.content.drop first := by
  obtain ⟨rest, hrest⟩ := h.read_prefix
  have hdrop : t.content.drop t.file.offset = rest := by
    rw [h.offset_eq, ← List.drop_drop, ← hrest, List.drop_left]
  rw [available, hdrop, ← hrest]
  exact (List.prefix_append_right_inj _).mpr (List.take_prefix _ _)

theorem read (h : Exact inode first t) (reading : Bool) :
    Exact inode first { t with
      file := (FileState.receive id t.file t.available).2
      reading := reading
      bytesRead := t.bytesRead ++ t.available
      emitted := t.emitted ++ (FileState.receive id t.file t.available).1 } := by
  have hprefix := h.read_prefix_append
  refine ⟨h.inode_eq, h.first_le, ?_, hprefix, ?_⟩
  · change t.file.offset + t.available.length = _
    rw [h.offset_eq, List.length_append, Nat.add_assoc]
  · intro hshort
    obtain ⟨hemitted, hpending⟩ := h.lines_eq hshort
    obtain ⟨rest, hrest⟩ := hprefix
    have hread : ShortLines (t.bytesRead ++ t.available) := by
      rw [← hrest] at hshort
      exact Lines.Within.of_append _ hshort
    have htail : Lines.tail (FileState.isLf id) (t.file.pending ++ t.available) =
        unterminated (t.bytesRead ++ t.available) := by
      rw [hpending, unterminated, unterminated, ← Lines.tail_append]
    rw [FileState.receive_eq id t.file t.available (by rw [htail]; exact hread.2)]
    refine ⟨?_, htail⟩
    rw [hemitted, hpending, terminatedLines, terminatedLines, unterminated, ← List.map_append,
      ← Lines.lines_append]

theorem step (h : Exact inode first t) {action : Action} {t' : Tail}
    (hstep : t.step inode action = some t') : Exact inode first t' := by
  cases action with
  | append bytes =>
      obtain rfl := Option.some.inj hstep
      exact h.append bytes
  | drain opened =>
      simp only [Tail.step] at hstep
      split at hstep
      · simp at hstep
      · obtain rfl := Option.some.inj hstep
        exact h.drain _
  | read =>
      simp only [Tail.step] at hstep
      split at hstep
      · split at hstep
        · obtain rfl := Option.some.inj hstep
          exact ⟨h.inode_eq, h.first_le, h.offset_eq, h.read_prefix, h.lines_eq⟩
        · obtain rfl := Option.some.inj hstep
          exact h.read _
      · simp at hstep

end Exact

/-- In every run of appends, drains and reads from an offset inside the file, the
bytes read are those behind the offset, the lines handed out are exactly the
finished lines of the bytes read, and the residue is their unfinished tail. -/
theorem run_exact (scanned : Bool) (inode : Nat) (content : Bytes) (first : Nat)
    (hfirst : first ≤ content.length) (actions : List Action) (t : Tail)
    (hrun : Transition.run (step inode) (start scanned inode content first) actions = some t)
    (hshort : ShortLines (t.content.drop first)) :
    t.bytesRead <+: t.content.drop first ∧
      t.file.offset = first + t.bytesRead.length ∧
      t.emitted = terminatedLines t.bytesRead ∧
      t.file.pending = unterminated t.bytesRead := by
  have h : Exact inode first t :=
    Transition.run_invariant (fun _ _ _ h hstep => h.step hstep)
      (start_exact scanned inode content hfirst) hrun
  exact ⟨h.read_prefix, h.offset_eq, h.lines_eq hshort⟩

/-- A line whose CR and LF are read by two different drains. -/
theorem run_exact_split :
    let t : Tail :=
      { content := [120, 97, 13, 10, 98], file := ⟨5, 7, [98]⟩,
        bytesRead := [97, 13, 10, 98], emitted := [[97]] }
    t.bytesRead <+: t.content.drop 1 ∧
      t.file.offset = 1 + t.bytesRead.length ∧
      t.emitted = terminatedLines t.bytesRead ∧
      t.file.pending = unterminated t.bytesRead :=
  run_exact true 7 [120] 1 (by decide)
    [.append [97, 13], .drain true, .read, .append [10, 98], .drain true, .read] _ rfl
    (by unfold ShortLines Lines.Within; decide)

end Tail

end LogMind
