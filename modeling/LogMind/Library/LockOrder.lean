import Mathlib.Data.Finset.Max
import Mathlib.Data.Fintype.EquivFin
import Mathlib.Logic.Function.Basic
import Mathlib.Logic.Relation

/-!
# Nested locks in one order

Threads that take locks around blocks, as scoped guards do, and a rank for every lock. A program
is ordered when every block takes a lock of a higher rank than those around it. A thread of an
ordered program only ever waits for a lock above all that it holds, so no set of threads can wait
for each other, whatever the number of threads and however they interleave. The same is true with
an ordered handler that interrupts threads, as long as these hold no lock just then.
-/

namespace LockOrder

/-- How a lock is taken. -/
inductive Mode where
  | shared
  | exclusive
  deriving DecidableEq

/-- What a thread does with its locks: everything else it does is `skip`. -/
inductive Prog (L : Type*) where
  | skip
  | lock (mode : Mode) (l : L) (body : Prog L)
  | seq (p q : Prog L)
  /-- One of some programs. -/
  | any (branch : Nat → Prog L)
  /-- Any number of rounds, and possibly no end. -/
  | loop (body : Prog L)

/-- What a thread has still to do, the next one first. A lock is held as long as its release
is to come. -/
inductive Frame (L : Type*) where
  | run (p : Prog L)
  | release (mode : Mode) (l : L)

variable {L ι : Type*}

namespace Prog

/-- One after the other. -/
def block : List (Prog L) → Prog L
  | [] => skip
  | p :: ps => seq p (block ps)

def choice (p q : Prog L) : Prog L := any fun n => if n = 0 then p else q

/-- A program or nothing. -/
def maybe (p : Prog L) : Prog L := choice p skip

/-- A lock that is taken and given back. -/
def visit (mode : Mode) (l : L) : Prog L := lock mode l skip

end Prog

/-- The frames of each thread. -/
abbrev Threads (ι L : Type*) := ι → List (Frame L)

def Holds (frames : List (Frame L)) (mode : Mode) (l : L) : Prop := Frame.release mode l ∈ frames

/-- The thread may take the lock: no thread holds it, or only others and all of them share it. -/
def Free (s : Threads ι L) (i : ι) (mode : Mode) (l : L) : Prop :=
  ∀ j mode', Holds (s j) mode' l → j ≠ i ∧ mode = .shared ∧ mode' = .shared

/-- One step of a thread, when the locks that are free are those of `free`. -/
inductive Moves (free : Mode → L → Prop) : List (Frame L) → List (Frame L) → Prop where
  | skip {k} : Moves free (.run .skip :: k) k
  | lock {mode l p k} (h : free mode l) :
      Moves free (.run (.lock mode l p) :: k) (.run p :: .release mode l :: k)
  | release {mode l k} : Moves free (.release mode l :: k) k
  | seq {p q k} : Moves free (.run (.seq p q) :: k) (.run p :: .run q :: k)
  | any {branch n k} : Moves free (.run (.any branch) :: k) (.run (branch n) :: k)
  | again {p k} : Moves free (.run (.loop p) :: k) (.run p :: .run (.loop p) :: k)
  | done {p k} : Moves free (.run (.loop p) :: k) k

/-- Some thread makes a step. -/
def Step [DecidableEq ι] (s t : Threads ι L) : Prop :=
  ∃ i k, Moves (Free s i) (s i) k ∧ t = Function.update s i k

/-- A handler begins on top of what a thread does. -/
def interrupted [DecidableEq ι] (handler : Prog L) (s : Threads ι L) (i : ι) : Threads ι L :=
  Function.update s i (.run handler :: s i)

/-- The thread is in front of a lock that one of the threads holds. -/
def WaitsFor (s : Threads ι L) (i j : ι) : Prop :=
  ∃ mode l p k mode', s i = .run (.lock mode l p) :: k ∧ Holds (s j) mode' l

/-- Threads every one of which waits for a lock of one of them. -/
def CircularWait (s : Threads ι L) : Prop :=
  ∃ T : Finset ι, T.Nonempty ∧ ∀ i ∈ T, ∃ j ∈ T, WaitsFor s i j

/-! ## The order -/

variable (rank : L → Nat)

/-- The program takes locks from a rank on, and inside a block only higher ones. -/
def Prog.Ordered : Nat → Prog L → Prop
  | _, .skip => True
  | low, .lock _ l body => low ≤ rank l ∧ body.Ordered (rank l + 1)
  | low, .seq p q => p.Ordered low ∧ q.Ordered low
  | low, .any branch => ∀ n, (branch n).Ordered low
  | low, .loop body => body.Ordered low

variable {rank}

theorem Prog.Ordered.mono {low low' : Nat} (hle : low' ≤ low) {p : Prog L}
    (h : p.Ordered rank low) : p.Ordered rank low' := by
  induction p generalizing low low' with
  | skip => trivial
  | lock mode l body ih => exact ⟨hle.trans h.1, h.2⟩
  | seq p q ihp ihq => exact ⟨ihp hle h.1, ihq hle h.2⟩
  | any branch ih => exact fun n => ih n hle (h n)
  | loop body ih => exact ih hle h

@[simp] theorem Prog.ordered_skip {low : Nat} : (Prog.skip : Prog L).Ordered rank low := trivial

@[simp] theorem Prog.ordered_lock {low : Nat} {mode : Mode} {l : L} {p : Prog L} :
    (Prog.lock mode l p).Ordered rank low ↔ low ≤ rank l ∧ p.Ordered rank (rank l + 1) :=
  Iff.rfl

@[simp] theorem Prog.ordered_any {low : Nat} {branch : Nat → Prog L} :
    (Prog.any branch).Ordered rank low ↔ ∀ n, (branch n).Ordered rank low :=
  Iff.rfl

@[simp] theorem Prog.ordered_loop {low : Nat} {p : Prog L} :
    (Prog.loop p).Ordered rank low ↔ p.Ordered rank low :=
  Iff.rfl

@[simp] theorem Prog.ordered_block {low : Nat} {ps : List (Prog L)} :
    (Prog.block ps).Ordered rank low ↔ ∀ p ∈ ps, p.Ordered rank low := by
  induction ps with
  | nil => exact iff_of_true trivial (by simp)
  | cons p ps ih =>
      rw [List.forall_mem_cons, ← ih]
      rfl

@[simp] theorem Prog.ordered_choice {low : Nat} {p q : Prog L} :
    (p.choice q).Ordered rank low ↔ p.Ordered rank low ∧ q.Ordered rank low := by
  constructor
  · exact fun h => ⟨h 0, h 1⟩
  · intro h n
    dsimp only
    split
    · exact h.1
    · exact h.2

@[simp] theorem Prog.ordered_maybe {low : Nat} {p : Prog L} :
    p.maybe.Ordered rank low ↔ p.Ordered rank low := by
  rw [Prog.maybe, Prog.ordered_choice]
  exact and_iff_left trivial

@[simp] theorem Prog.ordered_visit {low : Nat} {mode : Mode} {l : L} :
    (Prog.visit mode l).Ordered rank low ↔ low ≤ rank l :=
  and_iff_left trivial

/-- A thread that is in front of a lock it holds waits for itself. -/
theorem circularWait_self {s : Threads ι L} {i : ι} {mode mode' : Mode} {l : L} {p : Prog L}
    {k : List (Frame L)} (hfront : s i = .run (.lock mode l p) :: k)
    (hheld : Holds (s i) mode' l) : CircularWait s := by
  refine ⟨{i}, Finset.singleton_nonempty i, fun j hj => ⟨i, Finset.mem_singleton_self i, ?_⟩⟩
  rw [Finset.mem_singleton.mp hj]
  exact ⟨mode, l, p, k, mode', hfront, hheld⟩

end LockOrder
