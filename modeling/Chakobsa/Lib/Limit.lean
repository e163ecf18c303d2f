import Chakobsa.Lib.Fault

/-!
# Computations that stop at a limit

A program on machine integers does what the same program does on numbers without bound, as long as
no number gets too large; then it panics. `Limited p A x' x P` says this of a computation `x'` and
its counterpart `x`: they are the same, or `x'` panics at the site `p`, which only happens if `A`
holds, and a value of `x'` satisfies `P`. With a false `A` nothing is left of the limit
(`Limited.eq`). The rules follow the two computations side by side, and what `P` says of the first
parts is there for the second ones.
-/

namespace Chakobsa
namespace Comp

variable {ε ε' π π' α β : Type}

/-- `x'` is `x`, or stops at the limit `p`, which `A` is the reason for; `P` holds of its value. -/
def Limited (p : π) (A : Prop) (x' x : Comp ε π α) (P : α → Prop) : Prop :=
  (x' = x ∨ x' = panic p ∧ A) ∧ ∀ a, x' = .ok a → P a

namespace Limited

variable {p : π} {A : Prop} {x' x : Comp ε π α} {P Q : α → Prop} {R : β → Prop}
  {f' f : α → Comp ε π β}

/-- Nothing stops where the limit is out of reach. -/
theorem eq (h : Limited p A x' x P) (hA : ¬ A) : x' = x := h.1.resolve_right fun h => hA h.2

theorem stop (hA : A) : Limited p A (panic p) x P := ⟨.inr ⟨rfl, hA⟩, nofun⟩

theorem same (h : ∀ a, x = .ok a → P a) : Limited p A x x P := ⟨.inl rfl, h⟩

theorem ok {a : α} (h : P a) : Limited p A (.ok a : Comp ε π α) (.ok a) P := by
  refine .same fun b hb => ?_
  obtain rfl := Except.ok.inj hb
  exact h

theorem error {e : Fault ε π} : Limited p A (.error e : Comp ε π α) (.error e) P := .same nofun

theorem mono (h : Limited p A x' x P) (hPQ : ∀ a, P a → Q a) : Limited p A x' x Q :=
  ⟨h.1, fun a ha => hPQ a (h.2 a ha)⟩

/-- What ends without a panic over numbers without bound has the limit for its only one. -/
theorem graceful (h : Limited p A x' x P) (hx : x.Graceful) : x'.Graceful ∨ x' = panic p ∧ A :=
  h.1.imp_left fun heq : x' = x => heq ▸ hx

/-- A weaker reason. -/
theorem because {B : Prop} (h : Limited p A x' x P) (hAB : A → B) : Limited p B x' x P :=
  ⟨h.1.imp_right fun h => ⟨h.1, hAB h.2⟩, h.2⟩

/-- The second parts start from the same value, which satisfies `P`. -/
theorem bind (hx : Limited p A x' x P) (hf : ∀ a, P a → Limited p A (f' a) (f a) R) :
    Limited p A (x' >>= f') (x >>= f) R := by
  obtain ⟨hx, hP⟩ := hx
  cases x' with
  | error e =>
    rcases hx with rfl | ⟨he, hA⟩
    · exact .error
    · cases he
      exact .stop hA
  | ok a =>
    rcases hx with rfl | ⟨he, -⟩
    · exact hf a (hP a rfl)
    · cases he

/-- A part of a larger program. -/
theorem map (h : Limited p A x' x P) (f : ε → ε') (g : π → π') :
    Limited (g p) A (x'.mapError (.map f g) : Comp ε' π' α) (x.mapError (.map f g)) P := by
  obtain ⟨heq, hP⟩ := h
  refine ⟨heq.imp (fun heq => by rw [heq]) fun ⟨hstop, hA⟩ => ⟨by rw [hstop]; rfl, hA⟩, fun a ha => ?_⟩
  exact hP a (ExceptLemmas.mapError_eq_ok.mp ha)

/-- The same computation first. -/
theorem bind_same (hf : ∀ a, x = .ok a → Limited p A (f' a) (f a) R) :
    Limited p A (x >>= f') (x >>= f) R :=
  bind (.same fun _ h => h) hf

end Limited

end Comp
end Chakobsa
