import Mathlib.Algebra.Order.BigOperators.Group.Finset
import LogMind.Library.Transition

/-!
# Calls with deferred counts

A call decides in one step what it does to the shared state and what is still to be added to a
tally. The thread that runs it adds one summand at a time, between the steps of other threads. The
calls are as if they ran one after the other in the order of their decisions: the tally differs
from theirs by the summands that are still to come.
-/

namespace Deferred

variable {δ κ τ : Type*} [AddCommMonoid τ] {n : Nat}

structure State (δ τ : Type*) (n : Nat) where
  decision : δ
  tally : τ
  todo : Fin n → List τ

inductive Action (κ : Type*) (n : Nat) where
  | decide (i : Fin n) (call : κ)
  | add (i : Fin n)

variable (decide : δ → κ → δ × List τ)

def step (s : State δ τ n) : Action κ n → Option (State δ τ n)
  | .decide i call =>
      if (s.todo i).isEmpty then
        let decided := decide s.decision call
        some { s with decision := decided.1, todo := Function.update s.todo i decided.2 }
      else none
  | .add i =>
      match s.todo i with
      | [] => none
      | x :: xs => some { s with tally := s.tally + x, todo := Function.update s.todo i xs }

/-- A call that runs alone. -/
def once (r : δ × τ) (call : κ) : δ × τ :=
  let decided := decide r.1 call
  (decided.1, r.2 + decided.2.sum)

def serial (r : δ × τ) (calls : List κ) : δ × τ := calls.foldl (once decide) r

/-- The calls in the order of their decisions. -/
def decided (actions : List (Action κ n)) : List κ :=
  actions.filterMap fun
    | .decide _ call => some call
    | .add _ => none

/-- The tally once nothing is to come. -/
def State.settled (s : State δ τ n) : τ := s.tally + ∑ i, (s.todo i).sum

variable {decide} {s u : State δ τ n} {i : Fin n}

theorem sum_update (todo : Fin n → List τ) (i : Fin n) (xs : List τ) :
    ∑ j, (Function.update todo i xs j).sum =
      xs.sum + ∑ j ∈ Finset.univ.erase i, (todo j).sum := by
  rw [← Finset.add_sum_erase Finset.univ _ (Finset.mem_univ i), Function.update_self]
  congr 1
  refine Finset.sum_congr rfl fun j hj => ?_
  rw [Function.update_of_ne (Finset.ne_of_mem_erase hj)]

theorem settled_decide {call : κ} (hstep : step decide s (.decide i call) = some u) :
    (u.decision, u.settled) = once decide (s.decision, s.settled) call := by
  rw [step] at hstep
  split at hstep
  case isTrue hempty =>
    obtain rfl := Option.some.inj hstep
    have hold := Finset.add_sum_erase Finset.univ (fun j => (s.todo j).sum) (Finset.mem_univ i)
    rw [List.isEmpty_iff.mp hempty, List.sum_nil, zero_add] at hold
    simp only [State.settled, sum_update, once, Prod.mk.injEq, true_and]
    rw [hold, add_assoc, add_comm (List.sum _)]
  case isFalse => cases hstep

theorem settled_add (hstep : step decide s (.add i) = some u) :
    (u.decision, u.settled) = (s.decision, s.settled) := by
  rw [step] at hstep
  split at hstep
  case h_1 => cases hstep
  case h_2 x xs htodo =>
    obtain rfl := Option.some.inj hstep
    have hold := Finset.add_sum_erase Finset.univ (fun j => (s.todo j).sum) (Finset.mem_univ i)
    rw [htodo, List.sum_cons] at hold
    simp only [State.settled, sum_update, Prod.mk.injEq, true_and]
    rw [← hold, add_assoc, add_assoc]

/-- With what is still to come, the state is the one of the serial execution. -/
theorem run_settled {actions : List (Action κ n)}
    (hrun : Transition.run (step decide) s actions = some u) :
    (u.decision, u.settled) = serial decide (s.decision, s.settled) (decided actions) := by
  induction actions generalizing s with
  | nil => exact Option.some.inj hrun ▸ rfl
  | cons a actions ih =>
      obtain ⟨t, hstep, hrest⟩ := Transition.run_cons_eq_some.mp hrun
      rw [ih hrest]
      cases a with
      | decide i call => rw [settled_decide hstep]; rfl
      | add i => rw [settled_add hstep]; rfl

end Deferred
