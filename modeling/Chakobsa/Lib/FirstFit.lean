import Mathlib.Order.Bounds.Basic
import Mathlib.Order.WellFounded

/-!
# First-fit colourings

The vertices of a graph stand in a well-founded order, some of them have a colour given to them, and
the free ones are coloured one after the other: a vertex gets the least colour of a palette that no
neighbour before it has, and stays without one if there is none. `FirstFit` says of a partial colouring
that it has come about so, without saying how it is computed; there is exactly one, `firstFit`.
-/

namespace Chakobsa

variable {V C : Type} [LinearOrder V]

section FirstFit

variable (palette : Set C) (adj : V → V → Prop) (free : Set V) (given : V → Option C)

/-- The colours a vertex can have, when those of the vertices before it are given by `col`. -/
def available (col : V → Option C) (v : V) : Set C :=
  {c | c ∈ palette ∧ ∀ w < v, adj v w → col w ≠ some c}

/-- What is available to a vertex depends on the vertices before it. -/
theorem available_congr {palette : Set C} {adj : V → V → Prop} {col col' : V → Option C} {v : V}
    (h : ∀ w < v, col w = col' w) : available palette adj col v = available palette adj col' v := by
  ext c
  refine and_congr_right fun _ => ?_
  refine forall_congr' fun w => forall_congr' fun hw => ?_
  rw [h w hw]

variable [PartialOrder C]

/-- A free vertex has the least colour available to it, if there is one, and the other vertices have
what is given to them. -/
structure FirstFit (col : V → Option C) : Prop where
  given : ∀ v ∉ free, col v = given v
  first : ∀ v ∈ free, ∀ c, col v = some c ↔ IsLeast (available palette adj col v) c

variable {palette adj free given}

variable [WellFoundedLT V]

theorem FirstFit.unique {col col' : V → Option C} (h : FirstFit palette adj free given col)
    (h' : FirstFit palette adj free given col') : col = col' := by
  funext v
  induction v using WellFoundedLT.induction with
  | ind v ih =>
    by_cases hv : v ∈ free
    · refine Option.ext fun c => ?_
      rw [h.first v hv, h'.first v hv, available_congr ih]
    · rw [h.given v hv, h'.given v hv]

variable (palette adj free given)

open Classical in
/-- The colouring, vertex by vertex. -/
noncomputable def firstFit : V → Option C :=
  wellFounded_lt.fix fun v before =>
    if v ∈ free then
      if h : ∃ c, IsLeast {c | c ∈ palette ∧ ∀ w, ∀ hw : w < v, adj v w → before w hw ≠ some c} c then
        some h.choose
      else none
    else given v

theorem firstFit_spec : FirstFit palette adj free given (firstFit palette adj free given) := by
  classical
  constructor
  · intro v hv
    rw [firstFit, WellFounded.fix_eq, if_neg hv]
  · intro v hv c
    have hstep : firstFit palette adj free given v = if h : ∃ c, IsLeast
        (available palette adj (firstFit palette adj free given) v) c then some h.choose else none := by
      rw [firstFit, WellFounded.fix_eq, if_pos hv]
      rfl
    rw [hstep]
    split
    · next h =>
      rw [Option.some.injEq]
      exact ⟨fun hc => hc ▸ h.choose_spec, fun hc => h.choose_spec.unique hc⟩
    · next h => exact ⟨nofun, fun hc => absurd ⟨c, hc⟩ h⟩

variable {palette adj free given}

theorem FirstFit.eq_firstFit {col : V → Option C} (h : FirstFit palette adj free given col) :
    col = firstFit palette adj free given := h.unique (firstFit_spec palette adj free given)

end FirstFit

end Chakobsa
