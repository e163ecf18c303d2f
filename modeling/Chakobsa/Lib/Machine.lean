import Mathlib.Logic.Relation
import Mathlib.Data.Nat.Notation

/-!
# Deterministic machines

A machine is a function `step : S → S ⊕ ρ`: from every state it goes on with another state or ends
with a result. `Finishes` says that the run from a state comes to an end, and with which result; that
is the only one (`Finishes.unique`).
-/

namespace Chakobsa

variable {S ρ : Type}

/-- The machine gets from one state to another, in any number of steps. -/
def Leads (step : S → S ⊕ ρ) : S → S → Prop := Relation.ReflTransGen fun s s' => step s = .inl s'

/-- It does so in at least one step. -/
def LeadsOn (step : S → S ⊕ ρ) : S → S → Prop := Relation.TransGen fun s s' => step s = .inl s'

/-- The run from a state ends with a result. -/
def Finishes (step : S → S ⊕ ρ) (s : S) (r : ρ) : Prop := ∃ s', Leads step s s' ∧ step s' = .inr r

/-- It does so after the given number of steps. -/
def FinishesAfter (step : S → S ⊕ ρ) : ℕ → S → ρ → Prop
  | 0, s, r => step s = .inr r
  | n + 1, s, r => ∃ s', step s = .inl s' ∧ FinishesAfter step n s' r

section Runs

variable {step : S → S ⊕ ρ} {s s' : S} {r r' : ρ} {n : ℕ}

theorem Finishes.of_leads (h : Leads step s s') (hend : Finishes step s' r) : Finishes step s r := by
  obtain ⟨t, ht, hr⟩ := hend
  exact ⟨t, h.trans ht, hr⟩

theorem FinishesAfter.finishes (h : FinishesAfter step n s r) : Finishes step s r := by
  induction n generalizing s with
  | zero => exact ⟨s, .refl, h⟩
  | succ n ih =>
    obtain ⟨s', hs, h⟩ := h
    exact .of_leads (.single hs) (ih h)

theorem Finishes.after (h : Finishes step s r) : ∃ n, FinishesAfter step n s r := by
  obtain ⟨t, ht, hr⟩ := h
  induction ht using Relation.ReflTransGen.head_induction_on with
  | refl => exact ⟨0, hr⟩
  | head hs _ ih =>
    obtain ⟨n, hn⟩ := ih
    exact ⟨n + 1, _, hs, hn⟩

/-- What lies ahead on a run ends with it, earlier. -/
theorem FinishesAfter.ahead (h : FinishesAfter step n s r) (hs : LeadsOn step s s') :
    ∃ k < n, FinishesAfter step k s' r := by
  -- one step
  have hone : ∀ {n : ℕ} {s t : S}, step s = .inl t → FinishesAfter step n s r →
      ∃ k < n, FinishesAfter step k t r := by
    intro n s t hst hn
    cases n with
    | zero =>
      rw [FinishesAfter, hst] at hn
      cases hn
    | succ n =>
      obtain ⟨t', ht', hn⟩ := hn
      obtain rfl : t = t' := Sum.inl.inj (hst.symm.trans ht')
      exact ⟨n, Nat.lt_succ_self n, hn⟩
  induction hs with
  | single hst => exact hone hst h
  | tail _ hst ih =>
    obtain ⟨k, hk, hend⟩ := ih
    obtain ⟨j, hj, hend⟩ := hone hst hend
    exact ⟨j, Nat.lt_trans hj hk, hend⟩

/-- A run ends with one result only. -/
theorem Finishes.unique (h : Finishes step s r) (h' : Finishes step s r') : r = r' := by
  obtain ⟨n, hn⟩ := h.after
  obtain ⟨n', hn'⟩ := h'.after
  induction n generalizing s n' with
  | zero =>
    cases n' with
    | zero => exact Sum.inr.inj (Eq.trans (Eq.symm hn) hn')
    | succ n' =>
      obtain ⟨t, ht, -⟩ := hn'
      rw [FinishesAfter, ht] at hn
      cases hn
  | succ n ih =>
    obtain ⟨t, ht, hn⟩ := hn
    obtain ⟨k, -, hk⟩ := hn'.ahead (.single ht)
    exact ih hn.finishes hk.finishes hn k hk

end Runs

end Chakobsa
