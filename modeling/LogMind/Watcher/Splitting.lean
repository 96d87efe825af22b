import LogMind.Watcher.FileState

/-!
# Splitting conserves bytes

What `flush_pending` hands out over a run of reads, with lines of any length. An over-long
line is cut where a read ends, which may be between a CR and its LF; the CR then stays with
the piece, and the LF ends an empty one.
-/

namespace LogMind

namespace FileState

/-- What stood behind a piece that was handed out. -/
inductive Terminator where
  | lf
  | crlf
  | cut
  deriving DecidableEq

def Terminator.bytes : Terminator → Bytes
  | lf => [LogMind.lf]
  | crlf => [cr, LogMind.lf]
  | cut => []

/-- The chunks are appended to `pending` one after the other, and each is flushed: the pieces
that are handed out and the residue. -/
def flushAll : Bytes → List Bytes → List Bytes × Bytes
  | pending, [] => ([], pending)
  | pending, chunk :: chunks =>
      let (pieces, residue) := flushPending id (pending ++ chunk)
      let (more, last) := flushAll residue chunks
      (pieces ++ more, last)

/-- The pieces with what stood behind them, and the residue, are the bytes. -/
structure Conserves (pieces : List Bytes) (residue input : Bytes) (ends : List Terminator) :
    Prop where
  length_eq : ends.length = pieces.length
  bytes_eq : (List.zipWith (fun piece t => piece ++ t.bytes) pieces ends).flatten ++ residue = input
  pieces_whole : ∀ piece ∈ pieces, lf ∉ piece
  residue_open : lf ∉ residue
  cut_long : ∀ piece, (piece, Terminator.cut) ∈ pieces.zip ends → kMaxLineBytes < piece.length
  residue_le : residue.length ≤ kMaxLineBytes

theorem isLf_iff (c : UInt8) : isLf id c = true ↔ c = lf := by
  simp [isLf]

theorem lf_notMem {xs : Bytes} (h : ∀ c ∈ xs, isLf id c = false) : lf ∉ xs := by
  intro hmem
  have hfalse := h lf hmem
  rw [(isLf_iff lf).mpr rfl] at hfalse
  cases hfalse

/-- What stands behind the text of a line. -/
def lineEnd (line : Bytes) : Terminator := if line.getLast? = some cr then .crlf else .lf

theorem stripCr_append (line : Bytes) :
    stripCr id line ++ (lineEnd line).bytes = line ++ [lf] := by
  unfold stripCr lineEnd
  rw [Option.map_id_fun, id_eq]
  split
  · rename_i hcr
    have hline : line.dropLast ++ [cr] = line := List.dropLast_append_getLast? cr hcr
    calc line.dropLast ++ [cr, lf] = (line.dropLast ++ [cr]) ++ [lf] := by simp
      _ = line ++ [lf] := by rw [hline]
  · rfl

theorem lineEnd_ne_cut (line : Bytes) : lineEnd line ≠ .cut := by
  unfold lineEnd
  split <;> simp

/-! ## One flush -/

/-- The finished lines with their ends. -/
theorem zipWith_lines (ls : List Bytes) :
    (List.zipWith (fun piece t => piece ++ Terminator.bytes t) (ls.map (stripCr id))
      (ls.map lineEnd)).flatten = ls.flatMap (· ++ [lf]) := by
  induction ls with
  | nil => rfl
  | cons line ls ih =>
      rw [List.map_cons, List.map_cons, List.zipWith_cons_cons, List.flatten_cons,
        List.flatMap_cons, ih, stripCr_append]

theorem flush_conserves (pending : Bytes) :
    ∃ ends, Conserves (flushPending id pending).1 (flushPending id pending).2 pending ends := by
  have hbytes := Lines.flatMap_lines (isLf id) isLf_iff pending
  have htail := lf_notMem (Lines.tail_forall_not (isLf id) pending)
  have hpieces : ∀ piece ∈ (Lines.lines (isLf id) pending).map (stripCr id), lf ∉ piece := by
    intro piece hpiece hmem
    obtain ⟨line, hline, rfl⟩ := List.mem_map.mp hpiece
    exact lf_notMem (Lines.lines_forall_not (isLf id) pending line hline)
      ((stripCr_sublist id line).subset hmem)
  have hends : ∀ piece, (piece, Terminator.cut) ∉
      ((Lines.lines (isLf id) pending).map (stripCr id)).zip
        ((Lines.lines (isLf id) pending).map lineEnd) := by
    intro piece hmem
    obtain ⟨line, -, hcut⟩ := List.mem_map.mp (List.of_mem_zip hmem).2
    exact lineEnd_ne_cut line hcut
  rw [flushPending_eq]
  split
  · rename_i hlong
    refine ⟨(Lines.lines (isLf id) pending).map lineEnd ++ [.cut], by simp, ?_, ?_, by simp, ?_,
      Nat.zero_le _⟩
    · rw [List.zipWith_append (by simp), List.flatten_append, zipWith_lines]
      simpa [Terminator.bytes] using hbytes
    · intro piece hpiece
      rcases List.mem_append.mp hpiece with hpiece | hpiece
      · exact hpieces piece hpiece
      · rw [List.mem_singleton.mp hpiece]
        exact htail
    · intro piece hpiece
      rw [List.zip_append (by simp)] at hpiece
      rcases List.mem_append.mp hpiece with hpiece | hpiece
      · exact absurd hpiece (hends piece)
      · have hlast : piece = Lines.tail (isLf id) pending := by simpa using hpiece
        rwa [hlast]
  · rename_i hshort
    refine ⟨(Lines.lines (isLf id) pending).map lineEnd, by simp, ?_, hpieces, htail, ?_,
      Nat.le_of_not_lt hshort⟩
    · rw [zipWith_lines]
      exact hbytes
    · intro piece hpiece
      exact absurd hpiece (hends piece)

/-! ## A run of flushes -/

theorem flushAll_append (pending : Bytes) (chunks : List Bytes) (chunk : Bytes) :
    flushAll pending (chunks ++ [chunk]) =
      ((flushAll pending chunks).1 ++
          (flushPending id ((flushAll pending chunks).2 ++ chunk)).1,
        (flushPending id ((flushAll pending chunks).2 ++ chunk)).2) := by
  induction chunks generalizing pending with
  | nil => simp [flushAll]
  | cons first chunks ih => simp [flushAll, ih]

theorem Conserves.flush {pieces : List Bytes} {residue input : Bytes} {ends : List Terminator}
    (h : Conserves pieces residue input ends) (chunk : Bytes) :
    ∃ ends', Conserves (pieces ++ (flushPending id (residue ++ chunk)).1)
      (flushPending id (residue ++ chunk)).2 (input ++ chunk) ends' := by
  obtain ⟨more, hmore⟩ := flush_conserves (residue ++ chunk)
  refine ⟨ends ++ more, ?_, ?_, ?_, hmore.residue_open, ?_, hmore.residue_le⟩
  · rw [List.length_append, List.length_append, h.length_eq, hmore.length_eq]
  · rw [List.zipWith_append h.length_eq.symm, List.flatten_append, List.append_assoc,
      hmore.bytes_eq, ← List.append_assoc, h.bytes_eq]
  · intro piece hpiece
    rcases List.mem_append.mp hpiece with hpiece | hpiece
    · exact h.pieces_whole piece hpiece
    · exact hmore.pieces_whole piece hpiece
  · intro piece hpiece
    rw [List.zip_append h.length_eq.symm] at hpiece
    rcases List.mem_append.mp hpiece with hpiece | hpiece
    · exact h.cut_long piece hpiece
    · exact hmore.cut_long piece hpiece

/-- Whatever the chunks are, the pieces with their ends and the residue give back the input,
and the residue stays within the bound. -/
theorem flushAll_conserves (chunks : List Bytes) :
    ∃ ends, Conserves (flushAll [] chunks).1 (flushAll [] chunks).2 chunks.flatten ends := by
  induction chunks using List.reverseRecOn with
  | nil => exact ⟨[], rfl, rfl, by simp [flushAll], by simp [flushAll], by simp, Nat.zero_le _⟩
  | append_singleton chunks chunk ih =>
      obtain ⟨ends, hends⟩ := ih
      rw [flushAll_append, List.flatten_append, List.flatten_singleton]
      exact hends.flush chunk

/-- While no line is too long, the pieces are the lines, whatever the chunks are. -/
theorem flushAll_eq {chunks : List Bytes}
    (h : Lines.Within (isLf id) kMaxLineBytes chunks.flatten) :
    flushAll [] chunks = ((Lines.lines (isLf id) chunks.flatten).map (stripCr id),
      Lines.tail (isLf id) chunks.flatten) := by
  induction chunks using List.reverseRecOn with
  | nil => rfl
  | append_singleton chunks chunk ih =>
      rw [List.flatten_append, List.flatten_singleton] at h ⊢
      have hrest : (Lines.tail (isLf id) (chunks.flatten ++ chunk)).length ≤ kMaxLineBytes := h.2
      rw [Lines.tail_append] at hrest
      rw [flushAll_append, ih (h.of_append _), flushPending_eq, if_neg (Nat.not_lt.mpr hrest),
        Lines.lines_append _ chunks.flatten, Lines.tail_append _ chunks.flatten, List.map_append]
end FileState

end LogMind
