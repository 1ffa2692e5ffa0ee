import Mathlib.Data.List.Infix

/-!
# Work that is interrupted

A store is told one message after another, and the work may stop after any of them. A trail is a run over all messages with a property
that holds at every point where it may have stopped.
-/

namespace Interrupted

variable {σ μ : Type*} (tell : σ → μ → Option σ)

/-- The store after some messages; `none` when one of them fails. -/
def tellAll : σ → List μ → Option σ
  | s, [] => some s
  | s, m :: ms => (tell s m).bind fun s => tellAll s ms

/-- Messages lead from one state to another, through states that all have a property. -/
inductive Trail (Q : σ → Prop) (s : σ) : List μ → σ → Prop where
  | start : Q s → Trail Q s [] s
  | tell {ms : List μ} {t u : σ} {m : μ} : Trail Q s ms t → tell t m = some u → Q u → Trail Q s (ms ++ [m]) u

variable {tell} {Q : σ → Prop} {s t : σ} {ms ms' : List μ}

theorem tellAll_append (s : σ) (ms ms' : List μ) : tellAll tell s (ms ++ ms') = (tellAll tell s ms).bind fun s => tellAll tell s ms' := by
  induction ms generalizing s with
  | nil => rfl
  | cons m ms ih =>
    simp only [List.cons_append, tellAll, Option.bind_assoc]
    exact Option.bind_congr fun t _ => ih t

theorem Trail.holds (h : Trail tell Q s ms t) : Q t := by
  cases h with
  | start hq => exact hq
  | tell _ _ hq => exact hq

theorem Trail.tellAll_eq (h : Trail tell Q s ms t) : tellAll tell s ms = some t := by
  induction h with
  | start => rfl
  | tell _ htell _ ih => rw [tellAll_append, ih, Option.bind_some, tellAll, htell, Option.bind_some, tellAll]

/-- Wherever the work stops, the property holds. -/
theorem Trail.of_prefix (h : Trail tell Q s ms t) (hms : ms' <+: ms) : ∃ u, tellAll tell s ms' = some u ∧ Q u := by
  induction h with
  | start hq =>
    rw [List.prefix_nil.mp hms]
    exact ⟨s, rfl, hq⟩
  | tell hms₁ htell hq ih =>
    rcases List.prefix_concat_iff.mp hms with rfl | hprefix
    · exact ⟨_, (Trail.tell hms₁ htell hq).tellAll_eq, hq⟩
    · exact ih hprefix

end Interrupted
