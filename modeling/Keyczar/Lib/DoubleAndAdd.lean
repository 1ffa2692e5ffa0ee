import Mathlib.Algebra.Group.Basic
import Mathlib.Tactic.Abel

/-!
# Doubling and adding where equal operands are lost

A multiple is computed from the left by doubling and adding. An addition that is not a doubling is right on different operands only: of
two equal ones it gives zero. What such a run loses is known from its steps, and it is right exactly where all that is lost is zero.
-/

namespace DoubleAndAdd

/-- A step of a run. -/
inductive Step (G : Type) where
  | double
  | add (a : G)

variable {G : Type}

/-- How often a run doubles. -/
def doublings : List (Step G) → Nat
  | [] => 0
  | .double :: steps => doublings steps + 1
  | .add _ :: steps => doublings steps

variable [AddCommGroup G]

/-- What a step should do. -/
def exact (acc : G) : Step G → G
  | .double => acc + acc
  | .add a => acc + a

/-- What a step does: an element is not added to itself. -/
def apply [DecidableEq G] (acc : G) : Step G → G
  | .double => acc + acc
  | .add a => if acc = a then 0 else acc + a

/-- What a run loses: what is added to itself is lost twice, and doubled with the rest of the run, which goes on from zero. -/
def lost [DecidableEq G] (acc : G) : List (Step G) → G
  | [] => 0
  | .double :: steps => lost (acc + acc) steps
  | .add a :: steps => if acc = a then 2 ^ doublings steps • (a + a) + lost 0 steps else lost (acc + a) steps

/-- Adding another element loses nothing. -/
theorem lost_add [DecidableEq G] {acc a : G} (h : acc ≠ a) (steps : List (Step G)) : lost acc (.add a :: steps) = lost (acc + a) steps :=
  if_neg h

/-- A run is linear in where it starts. -/
theorem foldl_exact_add (a b : G) (steps : List (Step G)) :
    steps.foldl exact (a + b) = steps.foldl exact a + 2 ^ doublings steps • b := by
  induction steps generalizing a b with
  | nil => rw [List.foldl_nil, List.foldl_nil, doublings, pow_zero, one_nsmul]
  | cons s steps ih =>
    rw [List.foldl_cons, List.foldl_cons]
    cases s with
    | double =>
      have hsum : exact (a + b) .double = exact a .double + (b + b) := add_add_add_comm a b a b
      rw [hsum, ih, doublings, pow_succ, mul_nsmul', two_nsmul]
    | add c =>
      have hsum : exact (a + b) (.add c) = exact a (.add c) + b := add_right_comm a b c
      rw [hsum, ih, doublings]

variable [DecidableEq G]

/-- What a run gives and what it loses is together what it should give. -/
theorem foldl_apply_add_lost (acc : G) (steps : List (Step G)) : steps.foldl apply acc + lost acc steps = steps.foldl exact acc := by
  induction steps generalizing acc with
  | nil => exact add_zero acc
  | cons s steps ih =>
    rw [List.foldl_cons, List.foldl_cons]
    cases s with
    | double => exact ih (acc + acc)
    | add a =>
      by_cases h : acc = a
      · have hsum : exact acc (.add a) = 0 + (a + a) := by rw [h, zero_add]; rfl
        rw [apply, if_pos h, lost, if_pos h, hsum, foldl_exact_add, ← ih 0]
        abel
      · rw [apply, if_neg h, lost, if_neg h]
        exact ih (acc + a)

theorem foldl_apply_eq_iff (acc : G) (steps : List (Step G)) : steps.foldl apply acc = steps.foldl exact acc ↔ lost acc steps = 0 := by
  rw [← foldl_apply_add_lost]
  exact left_eq_add

end DoubleAndAdd
