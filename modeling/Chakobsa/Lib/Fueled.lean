import Chakobsa.Lib.Fault

/-!
# Computations with fuel

A recursion that need not end is modelled as a function from amounts of fuel to computations. One
computation approximates another (`Comp.Approx`) if it is the other one or has run out of fuel;
everything a recursion is put together from keeps this relation, and a family of computations that
can only gain from fuel is `Rising`.

`GoesOnAs F G` says that `F` ends as `G` does, and needs no less fuel for it. `Tracks n x F Q` is
the triple of a computation `x` and such a family `F` that is meant to do the same: where `x` has a
value `F` goes on as some `G` that `Q` relates to it; where `x` has an error `F` has it as well,
with enough fuel; and where `x` has run out of `n` units of fuel, `F` gets nowhere with as many.
What `F` does where `x` panics is left open. The rules follow `x`: `Tracks.ok`, `Tracks.bind`, and
`Tracks.call` for a part of `F` that is a family of its own; `Tracks.unfold` counts a unit of fuel.
-/

namespace Chakobsa

variable {ε ε' π π' α β γ δ : Type}

namespace Comp

/-! ### Approximation -/

/-- `x` has run out of fuel, or is `y`. -/
def Approx (x y : Comp ε π α) : Prop := x = .error .outOfFuel ∨ x = y

variable {x y z : Comp ε π α}

theorem Approx.refl (x : Comp ε π α) : Approx x x := .inr rfl

theorem Approx.outOfFuel : Approx (.error .outOfFuel) y := .inl rfl

theorem Approx.trans (h : Approx x y) (h' : Approx y z) : Approx x z := by
  rcases h with h | rfl
  · exact .inl h
  · exact h'

theorem Approx.eq (h : Approx x y) (hx : x ≠ .error .outOfFuel) : y = x :=
  (h.resolve_left hx).symm

/-- What a value approximates is that value. -/
theorem Approx.of_ok {a : α} (h : Approx (.ok a) y) : y = .ok a := h.eq nofun

theorem Approx.bind {f g : α → Comp ε π β} (hx : Approx x y) (hf : ∀ a, Approx (f a) (g a)) :
    Approx (x >>= f) (y >>= g) := by
  rcases hx with rfl | rfl
  · exact .outOfFuel
  · cases x with
    | ok a => exact hf a
    | error e => exact .refl _

theorem Approx.foldlM {f g : β → α → Comp ε π β} {l : List α} (h : ∀ b a, Approx (f b a) (g b a))
    (b : β) : Approx (l.foldlM f b) (l.foldlM g b) := by
  induction l generalizing b with
  | nil => exact .refl _
  | cons a l ih =>
    rw [List.foldlM_cons, List.foldlM_cons]
    exact (h b a).bind ih

/-- The computation does not panic, and a value of it satisfies `Q`. -/
def Safe (Q : α → Prop) : Comp ε π α → Prop
  | .ok a => Q a
  | .error (.panic _) => False
  | .error _ => True

variable {P Q : α → Prop}

theorem Safe.ok {a : α} (h : Q a) : Safe Q (.ok a : Comp ε π α) := h

theorem Safe.fail {e : ε} : Safe Q (fail e : Comp ε π α) := trivial

theorem Safe.mono (h : Safe P x) (hPQ : ∀ a, P a → Q a) : Safe Q x := by
  cases x with
  | ok a => exact hPQ a h
  | error e => cases e <;> exact h

/-- The second part of a sequence may rely on what the first one ensures. -/
theorem Safe.bind {f : α → Comp ε π β} {R : β → Prop} (hx : Safe P x) (hf : ∀ a, P a → Safe R (f a)) :
    Safe R (x >>= f) := by
  cases x with
  | ok a => exact hf a hx
  | error e => cases e <;> exact hx

/-- A value of the computation satisfies `Q`. -/
def Yields (Q : α → Prop) (x : Comp ε π α) : Prop := ∀ a, x = .ok a → Q a

theorem Yields.ok {a : α} (h : Q a) : Yields Q (.ok a : Comp ε π α) := by
  rintro _ ⟨⟩
  exact h

theorem Yields.mono (h : Yields P x) (hPQ : ∀ a, P a → Q a) : Yields Q x :=
  fun a ha => hPQ a (h a ha)

theorem Yields.bind {f : α → Comp ε π β} {R : β → Prop} (hf : ∀ a, x = .ok a → Yields R (f a)) :
    Yields R (x >>= f) := by
  intro b hb
  obtain ⟨a, ha, hfa⟩ := ExceptLemmas.bind_eq_ok.mp hb
  exact hf a ha b hfa

end Comp

open Chakobsa.Comp

/-! ### Families -/

/-- More fuel gives no other result. -/
def Rising (F : ℕ → Comp ε π α) : Prop := ∀ k, Approx (F k) (F (k + 1))

section Rising

variable {F : ℕ → Comp ε π α}

theorem Rising.const (x : Comp ε π α) : Rising fun _ => x := fun _ => .refl x

theorem Rising.le (h : Rising F) {k m : ℕ} (hkm : k ≤ m) : Approx (F k) (F m) := by
  induction hkm with
  | refl => exact .refl _
  | step _ ih => exact ih.trans (h _)

theorem Rising.bind {f : α → ℕ → Comp ε π β} (h : Rising F) (hf : ∀ a, Rising (f a)) :
    Rising fun k => F k >>= fun a => f a k := fun k => (h k).bind fun a => hf a k

end Rising

/-- `F` ends as `G` does, with no less fuel. -/
structure GoesOnAs (F G : ℕ → Comp ε π α) : Prop where
  sound : ∀ k, Approx (F k) (G k)
  complete : ∀ k, ∃ m, Approx (G k) (F m)

section GoesOnAs

variable {F G H : ℕ → Comp ε π α}

theorem GoesOnAs.refl (F : ℕ → Comp ε π α) : GoesOnAs F F := ⟨fun _ => .refl _, fun k => ⟨k, .refl _⟩⟩

theorem GoesOnAs.trans (h : GoesOnAs F G) (h' : GoesOnAs G H) : GoesOnAs F H := by
  refine ⟨fun k => (h.sound k).trans (h'.sound k), fun k => ?_⟩
  obtain ⟨m, hm⟩ := h'.complete k
  obtain ⟨l, hl⟩ := h.complete m
  exact ⟨l, hm.trans hl⟩

/-- A first part that ends with the value `c`. -/
theorem GoesOnAs.call {C : ℕ → Comp ε π γ} {H : γ → ℕ → Comp ε π α} {c : γ} (hC : Rising C)
    (hH : Rising (H c)) (h : GoesOnAs C fun _ => .ok c) :
    GoesOnAs (fun k => C k >>= fun c => H c k) (H c) := by
  refine ⟨fun k => ?_, fun k => ?_⟩
  · rcases h.sound k with hk | hk
    · rw [hk]
      exact .outOfFuel
    · rw [hk]
      exact .refl _
  · -- enough fuel for both parts
    obtain ⟨m, hm⟩ := h.complete 0
    refine ⟨max k m, ?_⟩
    have hCm : C (max k m) = .ok c := (hm.trans (hC.le (Nat.le_max_right k m))).of_ok
    rw [hCm]
    exact hH.le (Nat.le_max_left k m)

/-- A level of the recursion of `F` takes a unit of fuel. -/
theorem GoesOnAs.unfold (hG : Rising G) (hzero : F 0 = .error .outOfFuel)
    (hsucc : ∀ k, F (k + 1) = G k) : GoesOnAs F G := by
  refine ⟨fun k => ?_, fun k => ⟨k + 1, by rw [hsucc]; exact .refl _⟩⟩
  cases k with
  | zero =>
    rw [hzero]
    exact .outOfFuel
  | succ k =>
    rw [hsucc]
    exact hG k

end GoesOnAs

/-! ### The triple -/

/-- `F` does what `x` does: `out` says which errors of `F` stand for those of `x`. -/
def Tracks (out : ε → ε') (n : ℕ) (x : Comp ε π α) (F : ℕ → Comp ε' π' β)
    (Q : α → (ℕ → Comp ε' π' β) → Prop) : Prop :=
  match x with
  | .ok a => ∃ G, GoesOnAs F G ∧ Q a G
  | .error (.err e) => ∃ m, F m = fail (out e)
  | .error (.panic _) => True
  | .error .outOfFuel => ∀ k ≤ n, F k = .error .outOfFuel

namespace Tracks

variable {out : ε → ε'} {n m : ℕ} {x : Comp ε π α} {f : α → Comp ε π γ} {F G : ℕ → Comp ε' π' β}
  {P Q : α → (ℕ → Comp ε' π' β) → Prop} {R : γ → (ℕ → Comp ε' π' β) → Prop}

theorem ok {a : α} (h : Q a F) : Tracks out n (.ok a : Comp ε π α) F Q := ⟨F, .refl F, h⟩

theorem panic (p : π) : Tracks out n (.error (.panic p) : Comp ε π α) F Q := trivial

/-- What holds of the rest of `F` holds of `F`. -/
theorem of_goesOn (h : GoesOnAs F G) (hx : Tracks out n x G Q) : Tracks out n x F Q := by
  cases x with
  | ok a =>
    obtain ⟨H, hH, hQ⟩ := hx
    exact ⟨H, h.trans hH, hQ⟩
  | error e =>
    cases e with
    | err e =>
      obtain ⟨k, hk⟩ := hx
      obtain ⟨l, hl⟩ := h.complete k
      rw [hk] at hl
      exact ⟨l, hl.eq nofun⟩
    | panic p => trivial
    | outOfFuel =>
      intro k hk
      have hsound := h.sound k
      rw [hx k hk] at hsound
      exact hsound.elim id id

theorem mono (hx : Tracks out n x F P) (hPQ : ∀ a G, x = .ok a → P a G → Q a G) :
    Tracks out n x F Q := by
  cases x with
  | ok a =>
    obtain ⟨G, hG, hP⟩ := hx
    exact ⟨G, hG, hPQ a G rfl hP⟩
  | error e => cases e <;> exact hx

/-- With less fuel `F` gets nowhere either. -/
theorem le (hx : Tracks out n x F Q) (hmn : m ≤ n) : Tracks out m x F Q := by
  cases x with
  | ok a => exact hx
  | error e =>
    cases e with
    | outOfFuel => exact fun k hk => hx k (Nat.le_trans hk hmn)
    | err | panic => exact hx

theorem bind (hx : Tracks out n x F P)
    (hf : ∀ a G, x = .ok a → P a G → Tracks out n (f a) G R) : Tracks out n (x >>= f) F R := by
  cases x with
  | ok a =>
    obtain ⟨G, hG, hP⟩ := hx
    exact of_goesOn hG (hf a G rfl hP)
  | error e => cases e <;> exact hx

/-- What `F` does once `x` has its value. -/
theorem onward (hx : Tracks out n x F P)
    (h : ∀ a G, x = .ok a → P a G → Tracks out n (.ok a : Comp ε π α) G Q) : Tracks out n x F Q := by
  have hbind := hx.bind (f := pure) h
  rwa [bind_pure] at hbind

/-- A part of `F` that is a family of its own and ends with a value. -/
theorem call {C : ℕ → Comp ε' π' δ} {H : δ → ℕ → Comp ε' π' β} {P : α → δ → Prop} (hC : Rising C)
    (hH : ∀ c, Rising (H c)) (hx : Tracks out n x C fun a G => ∃ c, P a c ∧ G = fun _ => .ok c)
    (hf : ∀ a c, x = .ok a → P a c → Tracks out n (f a) (H c) R) :
    Tracks out n (x >>= f) (fun k => C k >>= fun c => H c k) R := by
  cases x with
  | ok a =>
    obtain ⟨_, hG, c, hP, rfl⟩ := hx
    exact of_goesOn (.call hC (hH c) hG) (hf a c rfl hP)
  | error e =>
    cases e with
    | err e =>
      obtain ⟨m, hm⟩ := hx
      refine ⟨m, ?_⟩
      show (C m >>= fun c => H c m) = _
      rw [hm]
      rfl
    | panic p => trivial
    | outOfFuel =>
      intro k hk
      show (C k >>= fun c => H c k) = _
      rw [hx k hk]
      rfl

/-- A level of the recursion of `F` takes a unit of fuel. -/
theorem unfold (hG : Rising G) (hzero : F 0 = .error .outOfFuel) (hsucc : ∀ k, F (k + 1) = G k)
    (hx : Tracks out n x G Q) : Tracks out (n + 1) x F Q := by
  cases x with
  | ok a =>
    obtain ⟨H, hH, hQ⟩ := hx
    exact ⟨H, (GoesOnAs.unfold hG hzero hsucc).trans hH, hQ⟩
  | error e =>
    cases e with
    | err e =>
      obtain ⟨m, hm⟩ := hx
      exact ⟨m + 1, (hsucc m).trans hm⟩
    | panic p => trivial
    | outOfFuel =>
      intro k hk
      cases k with
      | zero => exact hzero
      | succ k => exact (hsucc k).trans (hx k (Nat.le_of_succ_le_succ hk))

end Tracks

end Chakobsa
