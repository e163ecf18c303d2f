import Chakobsa.Lib.Fault
import Chakobsa.Lib.Machine

/-!
# A machine that carries out a computation

A computation `Comp ε π α` with a bound on its recursion, and a machine `step : S → S ⊕ ρ` as in
`Chakobsa.Lib.Machine`. `CarriesOut` is the triple of the two: from `s` the machine does what the
computation says. If there is a value, the machine gets to a state the postcondition relates to it;
if there is an error, the machine ends with a result that stands for it; if the computation has used
up `n` units of fuel, the machine goes on for at least `n` steps. What the machine does where the
computation panics is left open, and at any point it may give up, with one of the results set aside
for that.

The rules follow the computation: `CarriesOut.ok`, `CarriesOut.bind`, and `CarriesOut.of_leads`
and `CarriesOut.of_leadsOn` for the machine getting on, which pays for the fuel. That a machine
which carries out a computation at every amount of fuel does nothing else is `CarriesOut.converse`.
-/

namespace Chakobsa

variable {S ρ ε π α β : Type}

/-! ### Runs that go on for a while -/

/-- The machine goes on for the given number of steps. -/
def Lasts (step : S → S ⊕ ρ) : ℕ → S → Prop
  | 0, _ => True
  | n + 1, s => ∃ s', step s = .inl s' ∧ Lasts step n s'

section Lasts

variable {step : S → S ⊕ ρ} {s s' : S} {r : ρ} {k n : ℕ}

theorem Lasts.pred (h : Lasts step (n + 1) s) : Lasts step n s := by
  induction n generalizing s with
  | zero => trivial
  | succ n ih =>
    obtain ⟨t, ht, h⟩ := h
    exact ⟨t, ht, ih h⟩

theorem Lasts.of_leads (h : Leads step s s') (hs : Lasts step n s') : Lasts step n s := by
  induction h using Relation.ReflTransGen.head_induction_on with
  | refl => exact hs
  | head hstep _ ih => exact Lasts.pred ⟨_, hstep, ih⟩

/-- A step more than what is still ahead. -/
theorem Lasts.of_leadsOn (h : LeadsOn step s s') (hs : Lasts step n s') : Lasts step (n + 1) s := by
  obtain ⟨t, ht, hleads⟩ := Relation.TransGen.head'_iff.mp h
  exact ⟨t, ht, .of_leads hleads hs⟩

/-- A run that goes on for a while does not end before. -/
theorem FinishesAfter.le_of_lasts (h : FinishesAfter step k s r) (hs : Lasts step n s) : n ≤ k := by
  induction n generalizing s k with
  | zero => exact Nat.zero_le k
  | succ n ih =>
    obtain ⟨t, ht, hs⟩ := hs
    obtain ⟨i, hi, h⟩ := h.ahead (.single ht)
    exact Nat.lt_of_le_of_lt (ih h hs) hi

end Lasts

/-! ### The triple -/

/-- The machine carries out the computation from `s`: `out` relates errors to the results that stand
for them, `gaveUp` are the results with which the machine may give up. -/
def CarriesOut (step : S → S ⊕ ρ) (out : ε → ρ → Prop) (gaveUp : ρ → Prop) (n : ℕ) (s : S)
    (x : Comp ε π α) (Q : α → S → Prop) : Prop :=
  (∃ r, Finishes step s r ∧ gaveUp r) ∨
    match x with
    | .ok a => ∃ s', Leads step s s' ∧ Q a s'
    | .error (.err e) => ∃ r, Finishes step s r ∧ out e r
    | .error (.panic _) => True
    | .error .outOfFuel => Lasts step n s

namespace CarriesOut

variable {step : S → S ⊕ ρ} {out : ε → ρ → Prop} {gaveUp gaveUp' : ρ → Prop} {n : ℕ} {s s' : S}
  {x : Comp ε π α} {f : α → Comp ε π β} {P Q : α → S → Prop} {R : β → S → Prop} {r : ρ}

theorem ok {a : α} (h : Q a s) : CarriesOut step out gaveUp n s (.ok a : Comp ε π α) Q :=
  .inr ⟨s, .refl, h⟩

theorem err {e : ε} (h : Finishes step s r) (hr : out e r) :
    CarriesOut step out gaveUp n s (.error (.err e) : Comp ε π α) Q :=
  .inr ⟨r, h, hr⟩

theorem panic (p : π) : CarriesOut step out gaveUp n s (.error (.panic p) : Comp ε π α) Q :=
  .inr trivial

theorem giveUp (h : Finishes step s r) (hr : gaveUp r) : CarriesOut step out gaveUp n s x Q :=
  .inl ⟨r, h, hr⟩

/-- The fuel of a computation that has none is used up at once. -/
theorem outOfFuel : CarriesOut step out gaveUp 0 s (.error .outOfFuel : Comp ε π α) Q :=
  .inr trivial

/-- What holds ahead on the run holds here. -/
theorem of_leads (h : Leads step s s') (hx : CarriesOut step out gaveUp n s' x Q) :
    CarriesOut step out gaveUp n s x Q := by
  rcases hx with ⟨r, hr, hg⟩ | hx
  · exact .inl ⟨r, .of_leads h hr, hg⟩
  · refine .inr ?_
    cases x with
    | ok a =>
      obtain ⟨t, ht, hQ⟩ := hx
      exact ⟨t, h.trans ht, hQ⟩
    | error e =>
      cases e with
      | err e =>
        obtain ⟨r, hr, ho⟩ := hx
        exact ⟨r, .of_leads h hr, ho⟩
      | panic p => trivial
      | outOfFuel => exact Lasts.of_leads h hx

/-- A step of the machine pays for a unit of fuel. -/
theorem of_leadsOn (h : LeadsOn step s s') (hx : CarriesOut step out gaveUp n s' x Q) :
    CarriesOut step out gaveUp (n + 1) s x Q := by
  rcases hx with ⟨r, hr, hg⟩ | hx
  · exact .inl ⟨r, .of_leads h.to_reflTransGen hr, hg⟩
  · refine .inr ?_
    cases x with
    | ok a =>
      obtain ⟨t, ht, hQ⟩ := hx
      exact ⟨t, h.to_reflTransGen.trans ht, hQ⟩
    | error e =>
      cases e with
      | err e =>
        obtain ⟨r, hr, ho⟩ := hx
        exact ⟨r, .of_leads h.to_reflTransGen hr, ho⟩
      | panic p => trivial
      | outOfFuel => exact Lasts.of_leadsOn h hx

theorem mono (hx : CarriesOut step out gaveUp n s x P) (hPQ : ∀ a t, x = .ok a → P a t → Q a t) :
    CarriesOut step out gaveUp n s x Q := by
  refine hx.imp_right fun hx => ?_
  cases x with
  | ok a =>
    obtain ⟨t, ht, hP⟩ := hx
    exact ⟨t, ht, hPQ a t rfl hP⟩
  | error e => cases e <;> exact hx

theorem mono_gaveUp (hx : CarriesOut step out gaveUp n s x Q) (h : ∀ r, gaveUp r → gaveUp' r) :
    CarriesOut step out gaveUp' n s x Q :=
  hx.imp_left fun ⟨r, hr, hg⟩ => ⟨r, hr, h r hg⟩

/-- A sequence is carried out if its first part is, and the second from wherever that leads. -/
theorem bind (hx : CarriesOut step out gaveUp n s x P)
    (hf : ∀ a t, x = .ok a → P a t → CarriesOut step out gaveUp n t (f a) R) :
    CarriesOut step out gaveUp n s (x >>= f) R := by
  rcases hx with hg | hx
  · exact .inl hg
  · cases x with
    | ok a =>
      obtain ⟨t, ht, hP⟩ := hx
      exact of_leads ht (hf a t rfl hP)
    | error e => cases e <;> exact .inr hx

/-- A machine that carries out a computation at every amount of fuel does nothing else: if it ends,
and does not give up, then with enough fuel the computation has ended as well, in the same way. -/
theorem converse {x : ℕ → Comp ε π α} {gaveUp : ℕ → ρ → Prop}
    (h : ∀ n, CarriesOut step out (gaveUp n) n s (x n) Q) (hr : Finishes step s r)
    (hg : ∀ n, ¬ gaveUp n r) (hp : ∀ n p, x n ≠ .error (.panic p)) :
    ∃ n, (∃ a t, x n = .ok a ∧ Leads step s t ∧ Q a t) ∨ ∃ e, x n = .error (.err e) ∧ out e r := by
  obtain ⟨k, hk⟩ := hr.after
  -- more fuel than the run has steps
  refine ⟨k + 1, ?_⟩
  rcases h (k + 1) with ⟨r', hr', hg'⟩ | hx
  · rw [hr'.unique hr] at hg'
    exact absurd hg' (hg _)
  · cases hxk : x (k + 1) with
    | ok a =>
      rw [hxk] at hx
      obtain ⟨t, ht, hQ⟩ := hx
      exact .inl ⟨a, t, rfl, ht, hQ⟩
    | error e =>
      cases e with
      | err e =>
        rw [hxk] at hx
        obtain ⟨r', hr', ho⟩ := hx
        rw [hr'.unique hr] at ho
        exact .inr ⟨e, rfl, ho⟩
      | panic p => exact absurd hxk (hp _ p)
      | outOfFuel =>
        rw [hxk] at hx
        exact absurd (hk.le_of_lasts hx) (Nat.not_succ_le_self k)

end CarriesOut

end Chakobsa
