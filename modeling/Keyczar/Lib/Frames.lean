import Keyczar.Lib.Bytes

/-!
# Strings behind their lengths

A sequence of byte strings as one string: each behind its length in four bytes.
-/

namespace Frames

open Bytes

/-- The strings one after another, each behind its length. -/
def frames (xs : List Bytes) : Bytes := (xs.map fun x => be32 x.length ++ x).flatten

@[simp] theorem frames_nil : frames [] = [] := rfl

@[simp] theorem frames_cons (x : Bytes) (xs : List Bytes) : frames (x :: xs) = be32 x.length ++ (x ++ frames xs) := by
  simp [frames]

/-- Four bytes are added for each string. -/
theorem length_frames (xs : List Bytes) : (frames xs).length = 4 * xs.length + xs.flatten.length := by
  induction xs with
  | nil => rfl
  | cons x xs ih =>
    simp only [frames_cons, List.length_append, length_be32, ih, List.length_cons, List.flatten_cons]
    omega

/-- A string of the sequence is not longer than all of it. -/
theorem length_le_of_mem {x : Bytes} {xs : List Bytes} (h : x ∈ xs) : x.length ≤ (frames xs).length := by
  have hle : x.length ≤ xs.flatten.length := (List.sublist_flatten_of_mem h).length_le
  rw [length_frames]
  omega

/-- The number in front is the one that was written, where it fits. -/
theorem be32_inj {m n : Nat} (hm : m < 2 ^ 32) (hn : n < 2 ^ 32) (h : be32 m = be32 n) : m = n := by
  have hread := congrArg readBe32 h
  rw [readBe32_be32, readBe32_be32, Nat.mod_eq_of_lt hm, Nat.mod_eq_of_lt hn] at hread
  exact Option.some.inj hread

/-- A string behind its length is told from what follows it. -/
theorem cons_inj {x y s t : Bytes} (hx : x.length < 2 ^ 32) (hy : y.length < 2 ^ 32)
    (h : be32 x.length ++ (x ++ s) = be32 y.length ++ (y ++ t)) : x = y ∧ s = t := by
  obtain ⟨hlength, hrest⟩ := List.append_inj h (by rw [length_be32, length_be32])
  exact List.append_inj hrest (be32_inj hx hy hlength)

/-- As many strings are told from as many others, and from what follows them. -/
theorem frames_append_inj {xs ys : List Bytes} {s t : Bytes} (hlength : xs.length = ys.length) (hxs : ∀ x ∈ xs, x.length < 2 ^ 32)
    (hys : ∀ y ∈ ys, y.length < 2 ^ 32) (h : frames xs ++ s = frames ys ++ t) : xs = ys ∧ s = t := by
  induction xs generalizing ys with
  | nil =>
    cases ys with
    | nil => exact ⟨rfl, h⟩
    | cons y ys => cases hlength
  | cons x xs ih =>
    cases ys with
    | nil => cases hlength
    | cons y ys =>
      rw [frames_cons, frames_cons, List.append_assoc, List.append_assoc, List.append_assoc, List.append_assoc] at h
      obtain ⟨rfl, htail⟩ := cons_inj (hxs x List.mem_cons_self) (hys y List.mem_cons_self) h
      obtain ⟨rfl, hst⟩ := ih (Nat.succ.inj hlength) (fun z hz => hxs z (List.mem_cons_of_mem x hz))
        (fun z hz => hys z (List.mem_cons_of_mem x hz)) htail
      exact ⟨rfl, hst⟩

end Frames
