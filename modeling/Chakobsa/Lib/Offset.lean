import Mathlib.Data.List.Basic
import Mathlib.Tactic.Common

/-!
# Positions in a list put together from pieces

`l.flatMap g` lays the pieces `g x` out one after the other. `offset g l j` is the position at which
the piece of the `j`-th element starts; every position belongs to exactly one piece.
-/

namespace Chakobsa

variable {α β γ : Type} {g : α → List β} {l : List α} {j m : ℕ} {x : α} {y : β}

/-- The position at which the piece of element `j` starts. -/
def offset (g : α → List β) (l : List α) (j : ℕ) : ℕ := ((l.take j).flatMap g).length

@[simp] theorem offset_zero (g : α → List β) (l : List α) : offset g l 0 = 0 := by
  simp [offset]

@[simp] theorem offset_cons_succ (g : α → List β) (x : α) (l : List α) (j : ℕ) :
    offset g (x :: l) (j + 1) = (g x).length + offset g l j := by
  simp [offset]

/-- What stands in a piece stands in the whole, `offset` further on. -/
theorem getElem?_offset (hx : l[j]? = some x) (hy : (g x)[m]? = some y) :
    (l.flatMap g)[offset g l j + m]? = some y := by
  induction l generalizing j with
  | nil => simp at hx
  | cons a l ih =>
    rw [List.flatMap_cons]
    cases j with
    | zero =>
      obtain rfl : a = x := by simpa using hx
      rw [offset_zero, Nat.zero_add, List.getElem?_append_left (List.getElem?_eq_some_iff.mp hy).1]
      exact hy
    | succ j =>
      rw [offset_cons_succ, Nat.add_assoc, List.getElem?_append_right (Nat.le_add_right _ _),
        Nat.add_sub_cancel_left]
      exact ih (by simpa using hx)

theorem offset_le (g : α → List β) (l : List α) (j : ℕ) : offset g l j ≤ (l.flatMap g).length := by
  have hsplit : l.flatMap g = (l.take j).flatMap g ++ (l.drop j).flatMap g := by
    rw [← List.flatMap_append, List.take_append_drop]
  rw [hsplit, List.length_append]
  exact Nat.le_add_right _ _

/-- From the start of a piece on stand that piece and the ones behind it. -/
theorem drop_offset (g : α → List β) (l : List α) (j : ℕ) :
    (l.flatMap g).drop (offset g l j) = (l.drop j).flatMap g := by
  induction l generalizing j with
  | nil => simp
  | cons a l ih =>
    cases j with
    | zero => simp
    | succ j =>
      rw [offset_cons_succ, List.flatMap_cons, ← List.drop_drop, List.drop_left, List.drop_succ_cons]
      exact ih j

/-- Every position lies in a piece. -/
theorem exists_offset {n : ℕ} (hn : n < (l.flatMap g).length) :
    ∃ j x m, l[j]? = some x ∧ m < (g x).length ∧ n = offset g l j + m := by
  induction l generalizing n with
  | nil => simp at hn
  | cons a l ih =>
    by_cases ha : n < (g a).length
    · exact ⟨0, a, n, rfl, ha, by simp⟩
    · rw [List.flatMap_cons, List.length_append] at hn
      obtain ⟨j, x, m, hx, hm, heq⟩ := ih (n := n - (g a).length) (by omega)
      exact ⟨j + 1, x, m, by simpa using hx, hm, by rw [offset_cons_succ]; omega⟩

/-- Offsets depend on the lengths of the pieces only. -/
theorem offset_congr {α' β' : Type} {g' : α' → List β'} {l' : List α'}
    (h : List.Forall₂ (fun x x' => (g x).length = (g' x').length) l l') (j : ℕ) :
    offset g l j = offset g' l' j := by
  induction h generalizing j with
  | nil => simp [offset]
  | cons hx _ ih =>
    cases j with
    | zero => simp
    | succ j => rw [offset_cons_succ, offset_cons_succ, hx, ih]

theorem length_flatMap_congr {α' β' : Type} {g' : α' → List β'} {l' : List α'}
    (h : List.Forall₂ (fun x x' => (g x).length = (g' x').length) l l') :
    (l.flatMap g).length = (l'.flatMap g').length := by
  induction h with
  | nil => rfl
  | cons hx _ ih =>
    rw [List.flatMap_cons, List.flatMap_cons, List.length_append, List.length_append, hx, ih]

end Chakobsa
