import LogMind.Library.Loop
import LogMind.Plugins.SyslogCollector
import LogMind.Watcher.Splitting
import LogMind.Watcher.Tail

/-!
# Reading a whole stream

A collector parses a stream with `parse`, and a single line with `parse_line`. The default of
`parse_line` puts the line into a stream of its own; the syslog collector overrides it. A stream is
cut at its line feeds by `std::getline`, which keeps the CR in front of one, while the watcher
strips it.
-/

namespace LogMind

/-- `std::getline`: a line without its LF, and the rest of the stream. -/
def getline : Bytes → Option (Bytes × Bytes)
  | [] => none
  | c :: cs =>
      if c == lf then some ([], cs)
      else
        match getline cs with
        | none => some ([c], [])
        | some (line, rest) => some (c :: line, rest)

/-- The lines that repeated calls of `std::getline` find: the last one may be without an LF. -/
def streamLines (input : Bytes) : List Bytes :=
  Lines.lines (FileState.isLf id) input ++
    if (Tail.unterminated input).isEmpty then [] else [Tail.unterminated input]

@[simp] theorem streamLines_nil : streamLines [] = [] := rfl

/-- A byte in front of a line. -/
theorem streamLines_cons {c : UInt8} (hc : (c == lf) = false) {cs line : Bytes}
    {lines : List Bytes} (h : streamLines cs = line :: lines) :
    streamLines (c :: cs) = (c :: line) :: lines := by
  have hsplit : Lines.split (FileState.isLf id) (c :: cs) =
      Lines.consPiece c (Lines.split (FileState.isLf id) cs) := by
    rw [Lines.split, if_neg (by rw [FileState.isLf, id, hc]; exact Bool.false_ne_true)]
  unfold streamLines Tail.unterminated Lines.lines Lines.tail at h ⊢
  rw [hsplit]
  rcases hcs : Lines.split (FileState.isLf id) cs with ⟨_ | ⟨first, rest⟩, last⟩
  · rw [hcs] at h
    cases last with
    | nil => cases h
    | cons d last =>
        obtain ⟨rfl, rfl⟩ := List.cons_eq_cons.mp h
        rfl
  · rw [hcs] at h
    obtain ⟨rfl, rfl⟩ := List.cons_eq_cons.mp h
    rfl

theorem streamLines_singleton {c : UInt8} (hc : (c == lf) = false) : streamLines [c] = [[c]] := by
  have hsplit : Lines.split (FileState.isLf id) [c] = ([], [c]) := by
    rw [Lines.split, if_neg (by rw [FileState.isLf, id, hc]; exact Bool.false_ne_true)]
    rfl
  rw [streamLines, Tail.unterminated, Lines.lines, Lines.tail, hsplit]
  rfl

/-- A call finds the first of the lines. -/
theorem getline_cons (c : UInt8) (cs : Bytes) :
    ∃ line rest, getline (c :: cs) = some (line, rest) ∧ rest.length ≤ cs.length ∧
      streamLines (c :: cs) = line :: streamLines rest := by
  induction cs generalizing c with
  | nil =>
      cases hc : c == lf with
      | true =>
          rw [beq_iff_eq.mp hc]
          exact ⟨[], [], rfl, Nat.le_refl _, rfl⟩
      | false =>
          refine ⟨[c], [], ?_, Nat.le_refl _, streamLines_singleton hc⟩
          rw [getline, hc]
          rfl
  | cons d ds ih =>
      cases hc : c == lf with
      | true =>
          rw [beq_iff_eq.mp hc]
          exact ⟨[], d :: ds, rfl, Nat.le_refl _, rfl⟩
      | false =>
          obtain ⟨line, rest, hget, hlength, hlines⟩ := ih d
          refine ⟨c :: line, rest, ?_, Nat.le_succ_of_le hlength, streamLines_cons hc hlines⟩
          rw [getline, hc, hget]
          rfl

namespace SyslogCollector

/-- The locals of `parse`, with the number of times that the clock was read. -/
structure Parsing where
  input : Bytes
  ticks : Nat := 0
  result : ParseResult := {}

/-- The loop of `parse`. -/
def parseBody (clock : Nat → Int) (s : Parsing) : Option (Parsing ⊕ ParseResult) :=
  match getline s.input with
  | none => some (.inr s.result)
  | some (line, rest) =>
      let result := { s.result with linesRead := s.result.linesRead + 1 }
      if line.isEmpty then
        some (.inl { s with
          input := rest
          result := { result with linesSkipped := result.linesSkipped + 1 } })
      else
        (parseOne (clock s.ticks) line).map fun entry => .inl
          { input := rest
            ticks := s.ticks + 1
            result := { result with
              entries := result.entries ++ [entry]
              linesParsed := result.linesParsed + 1 } }

/-- `parse(stream)`. A turn takes a byte at least. -/
def parse (clock : Nat → Int) (input : Bytes) : Option ParseResult :=
  Loop.loop (parseBody clock) (input.length + 1) { input := input }

/-- `ICollector::parse_line`, which the collector overrides. -/
def defaultParseLine (now : Int) (line : Bytes) : Option ParseResult := parse (fun _ => now) line

/-- The result for some lines. -/
structure Accounts (clock : Nat → Int) (lines : List Bytes) (r : ParseResult) : Prop where
  linesRead : r.linesRead = lines.length
  linesParsed : r.linesParsed = r.entries.length
  linesSkipped : r.linesSkipped = lines.countP List.isEmpty
  error : r.error = []
  raws : r.entries.map LogEntry.raw = lines.filter fun line => !line.isEmpty
  entries : ∀ i entry, r.entries[i]? = some entry → parseOne (clock i) entry.raw = some entry

variable {clock : Nat → Int} {lines : List Bytes} {r : ParseResult}

theorem Accounts.skip (h : Accounts clock lines r) :
    Accounts clock (lines ++ [[]]) { r with
      linesRead := r.linesRead + 1, linesSkipped := r.linesSkipped + 1 } where
  linesRead := by rw [List.length_append, List.length_singleton, ← h.linesRead]
  linesParsed := h.linesParsed
  linesSkipped := by
    rw [List.countP_append, ← h.linesSkipped]
    rfl
  error := h.error
  raws := by
    rw [List.filter_append, ← h.raws]
    exact (List.append_nil _).symm
  entries := h.entries

theorem Accounts.parse (h : Accounts clock lines r) {line : Bytes} (hline : line.isEmpty = false)
    {entry : LogEntry} (hentry : parseOne (clock r.entries.length) line = some entry)
    (hraw : entry.raw = line) :
    Accounts clock (lines ++ [line]) { r with
      entries := r.entries ++ [entry]
      linesRead := r.linesRead + 1
      linesParsed := r.linesParsed + 1 } where
  linesRead := by rw [List.length_append, List.length_singleton, ← h.linesRead]
  linesParsed := by rw [List.length_append, List.length_singleton, ← h.linesParsed]
  linesSkipped := by
    rw [List.countP_append, ← h.linesSkipped, List.countP_singleton, hline]
    rfl
  error := h.error
  raws := by
    rw [List.map_append, h.raws, List.filter_append, List.map_singleton, hraw,
      List.filter_cons_of_pos (by rw [hline]; rfl), List.filter_nil]
  entries := by
    intro i found hfound
    have hlt := (List.getElem?_eq_some_iff.mp hfound).1
    rw [List.length_append, List.length_singleton] at hlt
    rcases Nat.lt_succ_iff_lt_or_eq.mp hlt with hi | rfl
    · rw [List.getElem?_append_left hi] at hfound
      exact h.entries i found hfound
    · rw [List.getElem?_concat_length] at hfound
      rw [← Option.some.inj hfound, hraw]
      exact hentry

/-- `parse` ends on every stream without an exception, with the entries of its lines. -/
theorem parse_accounts (clock : Nat → Int) (input : Bytes) :
    ∃ r, parse clock input = some r ∧ Accounts clock (streamLines input) r := by
  refine Loop.loop_spec
    (fun s => ∃ done, streamLines input = done ++ streamLines s.input ∧
      s.ticks = s.result.entries.length ∧ Accounts clock done s.result)
    (fun s => s.input.length) _ ?_ _ _ ?_ (Nat.lt_succ_self _)
  · rintro ⟨rest, ticks, result⟩ ⟨done, hdone, hticks, haccounts⟩
    change ticks = result.entries.length at hticks
    cases rest with
    | nil =>
        rw [streamLines_nil, List.append_nil] at hdone
        exact .inr ⟨result, rfl, hdone ▸ haccounts⟩
    | cons c cs =>
        obtain ⟨line, rest, hget, hlength, hlines⟩ := getline_cons c cs
        have hnext : streamLines input = (done ++ [line]) ++ streamLines rest := by
          rw [hdone, hlines, List.append_assoc, List.singleton_append]
        left
        rw [parseBody, hget]
        dsimp only
        cases hline : line.isEmpty with
        | true =>
            rw [List.isEmpty_iff.mp hline] at hnext
            exact ⟨_, rfl, ⟨_, hnext, hticks, haccounts.skip⟩, Nat.lt_succ_of_le hlength⟩
        | false =>
            obtain ⟨entry, hentry, hraw, -⟩ := parseOne_total (clock ticks) line
            rw [if_neg Bool.false_ne_true, hentry]
            refine ⟨_, rfl, ⟨_, hnext, ?_, haccounts.parse hline (hticks ▸ hentry) hraw⟩,
              Nat.lt_succ_of_le hlength⟩
            rw [List.length_append, List.length_singleton, hticks]
  · exact ⟨[], rfl, rfl, ⟨rfl, rfl, rfl, rfl, rfl, nofun⟩⟩

/-! ## A stream and a file that is followed -/

/-- A line that ends in a CR. -/
def EndsInCr (line : Bytes) : Prop := line.getLast? = some cr

theorem stripCr_length (line : Bytes) :
    (FileState.stripCr id line).length ≤ line.length ∧
      ((FileState.stripCr id line).length = line.length ↔ ¬ EndsInCr line) := by
  unfold FileState.stripCr EndsInCr
  rw [Option.map_id]
  split
  case isTrue hlast =>
    have hne : line ≠ [] := fun hnil => by rw [hnil] at hlast; cases hlast
    have hpos := List.length_pos_of_ne_nil hne
    rw [List.length_dropLast]
    exact ⟨by omega, ⟨fun heq => by omega, fun hnot => absurd hlast hnot⟩⟩
  case isFalse hlast => exact ⟨Nat.le_refl _, iff_of_true rfl hlast⟩

theorem flatten_stripCr_length (lines : List Bytes) :
    (lines.map (FileState.stripCr id)).flatten.length ≤ lines.flatten.length ∧
      ((lines.map (FileState.stripCr id)).flatten.length = lines.flatten.length ↔
        ∀ line ∈ lines, ¬ EndsInCr line) := by
  induction lines with
  | nil => simp
  | cons line lines ih =>
      obtain ⟨hle, hiff⟩ := ih
      obtain ⟨hline, hlineIff⟩ := stripCr_length line
      simp only [List.map_cons, List.flatten_cons, List.length_append, List.forall_mem_cons,
        ← hlineIff, ← hiff]
      omega

theorem flatten_filter (lines : List Bytes) :
    (lines.filter fun line => !line.isEmpty).flatten = lines.flatten := by
  induction lines with
  | nil => rfl
  | cons line lines ih =>
      cases line with
      | nil => exact ih
      | cons c cs => exact congrArg ((c :: cs) ++ ·) ih

/-- Stripping a CR changes the texts. -/
theorem filter_stripCr_iff (lines : List Bytes) :
    (lines.filter fun line => !line.isEmpty) =
        ((lines.map (FileState.stripCr id)).filter fun line => !line.isEmpty) ↔
      ∀ line ∈ lines, ¬ EndsInCr line := by
  constructor
  · intro heq
    have hflatten := congrArg List.flatten heq
    rw [flatten_filter, flatten_filter] at hflatten
    exact (flatten_stripCr_length lines).2.mp (congrArg List.length hflatten.symm)
  · intro hnone
    have hsame : lines.map (FileState.stripCr id) = lines.map id := by
      refine List.map_congr_left fun line hline => ?_
      unfold FileState.stripCr
      rw [Option.map_id]
      exact if_neg (hnone line hline)
    rw [hsame, List.map_id]

/-- The texts of the entries that `parse_line` gives for a line. -/
def lineRaws (now : Int) (line : Bytes) : List Bytes :=
  ((parseLine now line).map fun r => r.entries.map LogEntry.raw).getD []

theorem flatMap_lineRaws (now : Int) (lines : List Bytes) :
    lines.flatMap (lineRaws now) = lines.filter fun line => !line.isEmpty := by
  induction lines with
  | nil => rfl
  | cons line lines ih =>
      rw [List.flatMap_cons, ih, List.filter_cons]
      cases hline : line.isEmpty with
      | true =>
          rw [lineRaws, parseLine, if_pos hline]
          rfl
      | false =>
          obtain ⟨entry, hentry, hraw, -⟩ := parseOne_total now line
          rw [lineRaws, parseLine, hline, if_neg Bool.false_ne_true, hentry]
          simp [hraw]

/-- What `flush_pending` hands out behind each of the reads, and the residue where there is one. -/
def handedOut (chunks : List Bytes) : List Bytes :=
  let (pieces, residue) := FileState.flushAll [] chunks
  pieces ++ if residue.isEmpty then [] else [residue]

/-- `parse` reads any stream to its end without an exception: it counts each line once, as parsed or
as skipped, and gives the entries of the lines that are not empty in order. However a file with
these bytes is read, with lines within the limit the watcher hands out the same texts but for empty
ones, its last line included, exactly if no line ends in CR LF. -/
theorem parse_reads (clock : Nat → Int) (now : Int) (input : Bytes) :
    ∃ r, parse clock input = some r ∧ Accounts clock (streamLines input) r ∧
      ∀ chunks : List Bytes, chunks.flatten = input → Tail.ShortLines input →
        (r.entries.map LogEntry.raw = (handedOut chunks).flatMap (lineRaws now) ↔
          ∀ line ∈ Lines.lines (FileState.isLf id) input, ¬ EndsInCr line) := by
  obtain ⟨r, hparse, haccounts⟩ := parse_accounts clock input
  refine ⟨r, hparse, haccounts, ?_⟩
  rintro chunks rfl hshort
  rw [haccounts.raws, flatMap_lineRaws, handedOut, FileState.flushAll_eq hshort, streamLines,
    List.filter_append, List.filter_append]
  exact (List.append_left_inj _).trans (filter_stripCr_iff _)

/-- The reads may part a CR from its LF. -/
theorem parse_reads_crlf :
    let input : Bytes := [97, cr, lf, 98]
    let chunks : List Bytes := [[97, cr], [lf, 98]]
    handedOut chunks = [[97], [98]] ∧
    ∃ r, parse (fun _ => 0) input = some r ∧ Accounts (fun _ => 0) (streamLines input) r ∧
      r.entries.map LogEntry.raw ≠ (handedOut chunks).flatMap (lineRaws 0) := by
  intro input chunks
  obtain ⟨r, hparse, haccounts, hsame⟩ := parse_reads (fun _ => 0) 0 input
  have hshort : Tail.ShortLines input := by unfold Tail.ShortLines Lines.Within; decide
  refine ⟨by decide, r, hparse, haccounts, fun heq => ?_⟩
  exact (hsame chunks rfl hshort).mp heq [97, cr] (by decide) rfl

theorem notMem_streamLines (input : Bytes) : ∀ line ∈ streamLines input, lf ∉ line := by
  have hnot : ∀ line ∈ streamLines input, ∀ c ∈ line, FileState.isLf id c = false := by
    intro line hline
    rcases List.mem_append.mp hline with hline | hline
    · exact Lines.lines_forall_not _ input line hline
    · split at hline
      · exact absurd hline List.not_mem_nil
      · rw [List.mem_singleton.mp hline]
        exact Lines.tail_forall_not _ input
  exact fun line hline hmem => absurd (hnot line hline lf hmem) (by decide)

theorem streamLines_of_notMem {line : Bytes} (hne : line ≠ []) (h : lf ∉ line) :
    streamLines line = [line] := by
  have hnot : ∀ c ∈ line, FileState.isLf id c = false :=
    fun c hc => beq_eq_false_iff_ne.mpr fun heq => h (heq ▸ hc)
  rw [streamLines, Tail.unterminated, Lines.lines_of_forall_not _ hnot,
    Lines.tail_of_forall_not _ hnot, List.isEmpty_eq_false_iff.mpr hne]
  rfl

/-- The result for one line that is not empty. -/
theorem Accounts.eq_of_singleton {now : Int} {line : Bytes} {entry : LogEntry}
    (h : Accounts (fun _ => now) [line] r) (hne : line ≠ [])
    (hentry : parseOne now line = some entry) :
    r = { entries := [entry], linesRead := 1, linesParsed := 1 } := by
  have hempty : line.isEmpty = false := List.isEmpty_eq_false_iff.mpr hne
  have hraws : r.entries.map LogEntry.raw = [line] := by
    rw [h.raws, List.filter_cons_of_pos (by rw [hempty]; rfl), List.filter_nil]
  obtain ⟨found, hfound, hraw⟩ := List.map_eq_singleton_iff.mp hraws
  have hparsed := h.entries 0 found (by rw [hfound]; rfl)
  rw [hraw, hentry] at hparsed
  obtain rfl := Option.some.inj hparsed
  have hskipped := h.linesSkipped
  have hcount := h.linesParsed
  rw [List.countP_singleton, hempty] at hskipped
  rw [hfound] at hcount
  cases r
  exact ParseResult.mk.injEq .. ▸ ⟨hfound, h.linesRead, hcount, hskipped, h.error⟩

/-- The default of `parse_line` gives what the collector's own one gives for a line that is not
empty and has no LF, as all lines of the watcher but the empty one, and for no other line. The
entries of the empty line are the same too. -/
theorem defaultParseLine_iff (now : Int) (line : Bytes) :
    (defaultParseLine now line = parseLine now line ↔ line ≠ [] ∧ lf ∉ line) ∧
      ((defaultParseLine now line).map ParseResult.entries =
        (parseLine now line).map ParseResult.entries ↔ lf ∉ line) := by
  obtain ⟨r, hparse, haccounts⟩ := parse_accounts (fun _ => now) line
  rw [defaultParseLine, hparse]
  by_cases hne : line = []
  · subst hne
    have hentries : r.entries = [] := List.map_eq_nil_iff.mp haccounts.raws
    refine ⟨iff_of_false (fun heq => ?_) fun h => h.1 rfl, iff_of_true ?_ List.not_mem_nil⟩
    · have hread := congrArg ParseResult.linesRead (Option.some.inj heq)
      rw [haccounts.linesRead] at hread
      exact absurd hread (by decide)
    · exact congrArg some hentries
  · obtain ⟨entry, hentry, hraw, -⟩ := parseOne_total now line
    have hown : parseLine now line =
        some { entries := [entry], linesRead := 1, linesParsed := 1 } := by
      rw [parseLine, List.isEmpty_eq_false_iff.mpr hne, if_neg Bool.false_ne_true, hentry]
      rfl
    rw [hown]
    by_cases hlf : lf ∈ line
    · have hdiffer : ¬ some r.entries = some [entry] := by
        intro heq
        have hraws := haccounts.raws
        rw [Option.some.inj heq, List.map_singleton, hraw] at hraws
        have hmem : line ∈ streamLines line :=
          List.mem_of_mem_filter (hraws ▸ List.mem_singleton_self line)
        exact notMem_streamLines line line hmem hlf
      exact ⟨iff_of_false (fun heq => hdiffer (congrArg (Option.map ParseResult.entries) heq))
        fun h => h.2 hlf, iff_of_false hdiffer (not_not_intro hlf)⟩
    · have hlines := streamLines_of_notMem hne hlf
      rw [hlines] at haccounts
      have hsame := haccounts.eq_of_singleton hne hentry
      rw [hsame]
      exact ⟨iff_of_true rfl ⟨hne, hlf⟩, iff_of_true rfl hlf⟩

end SyslogCollector

end LogMind
