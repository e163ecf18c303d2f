import Mathlib.Data.List.Forall2
import Mathlib.Tactic.Common

/-!
# Computations that can fail

The programs modelled here end in one of four ways: with a value, with a typed error they
return, with a panic, or not at all. `Fault ε π` collects the last three: `err` carries the
error of type `ε` the program returns, `panic` the panic site of type `π`, and `outOfFuel`
says that the fuel bounding the recursion of the model was not enough, which is how a
computation that has not ended yet looks from inside the model.

`Comp ε π α` is `Except` over these faults. The lemmas below invert a `bind`, a `forM`, a
`mapM` and a `foldlM` that ended in a value; they hold for any `Except`.
-/

namespace Chakobsa

/-- The ways in which a computation ends without a value. -/
inductive Fault (ε π : Type) where
  /-- The typed error the program returns. -/
  | err (e : ε)
  /-- A panic, with its site. -/
  | panic (p : π)
  /-- The fuel of the model is used up. -/
  | outOfFuel
  deriving DecidableEq, Repr

/-- The fault of a part as a fault of the whole. -/
def Fault.map {ε ε' π π' : Type} (f : ε → ε') (g : π → π') : Fault ε π → Fault ε' π'
  | .err e => .err (f e)
  | .panic p => .panic (g p)
  | .outOfFuel => .outOfFuel

/-- A computation that ends in a value of type `α` or in a fault. -/
abbrev Comp (ε π α : Type) : Type := Except (Fault ε π) α

namespace Comp

variable {ε π α : Type}

/-- Return the typed error `e`. -/
def fail (e : ε) : Comp ε π α := .error (.err e)

/-- Panic at the site `p`. -/
def panic (p : π) : Comp ε π α := .error (.panic p)

/-- `Option::expect`: the value, or a panic at the site `p`. -/
def expect (p : π) : Option α → Comp ε π α
  | some a => .ok a
  | none => .error (.panic p)

@[simp] theorem expect_some (p : π) (a : α) : (expect p (some a) : Comp ε π α) = .ok a := rfl

@[simp] theorem expect_none (p : π) : (expect p none : Comp ε π α) = .error (.panic p) := rfl

@[simp] theorem expect_eq_ok {p : π} {o : Option α} {a : α} :
    (expect p o : Comp ε π α) = .ok a ↔ o = some a := by
  cases o <;> simp [expect]

@[simp] theorem fail_ne_ok {e : ε} {a : α} : (fail e : Comp ε π α) ≠ .ok a := by
  simp [fail]

@[simp] theorem panic_ne_ok {p : π} {a : α} : (panic p : Comp ε π α) ≠ .ok a := by
  simp [panic]

/-- The computation ends with a value or a typed error: no panic, and the fuel suffices. -/
def Graceful (x : Comp ε π α) : Prop := (∃ a, x = .ok a) ∨ ∃ e, x = fail e

theorem Graceful.ok {a : α} : Graceful (.ok a : Comp ε π α) := .inl ⟨a, rfl⟩

theorem Graceful.fail {e : ε} : Graceful (Comp.fail e : Comp ε π α) := .inr ⟨e, rfl⟩

theorem Graceful.of_ok {x : Comp ε π α} {a : α} (h : x = .ok a) : x.Graceful := .inl ⟨a, h⟩

/-- A part of a larger program that ends gracefully. -/
theorem Graceful.map {ε' π' : Type} {x : Comp ε π α} (h : x.Graceful) (f : ε → ε') (g : π → π') :
    Graceful (x.mapError (Fault.map f g) : Comp ε' π' α) := by
  rcases h with ⟨a, rfl⟩ | ⟨e, rfl⟩
  · exact .ok
  · exact .fail

/-- A computation that cannot panic. -/
theorem Graceful.of_except {ε' : Type} (x : Except ε' α) (f : ε' → ε) :
    Graceful (x.mapError fun e => .err (f e) : Comp ε π α) := by
  cases x with
  | ok a => exact .ok
  | error e => exact .fail

/-- A sequence ends gracefully when its first part does, and the second on its value. -/
theorem Graceful.bind {β : Type} {x : Comp ε π α} {f : α → Comp ε π β} (hx : x.Graceful)
    (hf : ∀ a, x = .ok a → (f a).Graceful) : (x >>= f).Graceful := by
  rcases hx with ⟨a, rfl⟩ | ⟨e, rfl⟩
  · exact hf a rfl
  · exact .inr ⟨e, rfl⟩

/-- A fold ends gracefully when every step does, whatever the state it starts from. -/
theorem Graceful.foldlM {β : Type} {f : β → α → Comp ε π β} {l : List α}
    (hstep : ∀ b, ∀ a ∈ l, (f b a).Graceful) (b : β) : (l.foldlM f b).Graceful := by
  induction l generalizing b with
  | nil => exact .ok
  | cons a l ih =>
    rw [List.foldlM_cons]
    exact (hstep b a List.mem_cons_self).bind fun c _ =>
      ih (fun b a ha => hstep b a (List.mem_cons_of_mem _ ha)) c

theorem Graceful.mapM {β : Type} {f : α → Comp ε π β} {l : List α}
    (h : ∀ a ∈ l, (f a).Graceful) : (l.mapM f).Graceful := by
  induction l with
  | nil => exact .ok
  | cons a l ih =>
    rw [List.mapM_cons]
    exact (h a List.mem_cons_self).bind fun _ _ =>
      (ih fun b hb => h b (List.mem_cons_of_mem _ hb)).bind fun _ _ => .ok

theorem Graceful.forM {f : α → Comp ε π Unit} {l : List α} (h : ∀ a ∈ l, (f a).Graceful) :
    Graceful (forM l f) := by
  induction l with
  | nil => exact .ok
  | cons a l ih =>
    rw [List.forM_cons]
    exact (h a List.mem_cons_self).bind fun _ _ => ih fun b hb => h b (List.mem_cons_of_mem _ hb)

/-- The computation ends gracefully, and its value satisfies `Q` if it has one. -/
def Ends (x : Comp ε π α) (Q : α → Prop) : Prop := (∃ a, x = .ok a ∧ Q a) ∨ ∃ e, x = fail e

theorem Ends.graceful {x : Comp ε π α} {Q : α → Prop} (h : x.Ends Q) : x.Graceful :=
  h.imp_left fun ⟨a, ha, _⟩ => ⟨a, ha⟩

theorem Ends.ok {a : α} {Q : α → Prop} (h : Q a) : Ends (.ok a : Comp ε π α) Q := .inl ⟨a, rfl, h⟩

theorem Ends.fail {e : ε} {Q : α → Prop} : Ends (Comp.fail e : Comp ε π α) Q := .inr ⟨e, rfl⟩

theorem Ends.of_ok {x : Comp ε π α} {a : α} {Q : α → Prop} (hx : x = .ok a) (h : Q a) : x.Ends Q :=
  .inl ⟨a, hx, h⟩

theorem Ends.mono {x : Comp ε π α} {P Q : α → Prop} (h : x.Ends P) (hPQ : ∀ a, P a → Q a) :
    x.Ends Q :=
  h.imp_left fun ⟨a, ha, hP⟩ => ⟨a, ha, hPQ a hP⟩

/-- The second part of a sequence may rely on what the first part ensures. -/
theorem Ends.bind {β : Type} {x : Comp ε π α} {f : α → Comp ε π β} {P : α → Prop} {Q : β → Prop}
    (hx : x.Ends P) (hf : ∀ a, P a → (f a).Ends Q) : (x >>= f).Ends Q := by
  rcases hx with ⟨a, rfl, ha⟩ | ⟨e, rfl⟩
  · exact hf a ha
  · exact .inr ⟨e, rfl⟩

/-- Every fault the computation can end in satisfies `E`. -/
def Faults (E : Fault ε π → Prop) (x : Comp ε π α) : Prop := ∀ e, x = .error e → E e

variable {E : Fault ε π → Prop}

theorem Faults.ok {a : α} : Faults E (.ok a : Comp ε π α) := nofun

theorem Faults.error {e : Fault ε π} (h : E e) : Faults E (.error e : Comp ε π α) := by
  rintro _ ⟨⟩
  exact h

/-- What is expected is there, or its absence is such a fault. -/
theorem Faults.expect {p : π} {o : Option α} (h : o = none → E (.panic p)) :
    Faults E (Comp.expect p o : Comp ε π α) := by
  cases o with
  | some a => exact .ok
  | none => exact .error (h rfl)

/-- A computation that does not panic has no fault but its typed errors. -/
theorem Graceful.faults {x : Comp ε π α} (h : x.Graceful) (hE : ∀ e, E (.err e)) : x.Faults E := by
  rcases h with ⟨a, rfl⟩ | ⟨e, rfl⟩
  · exact .ok
  · exact .error (hE e)

theorem Faults.bind {β : Type} {x : Comp ε π α} {f : α → Comp ε π β} (hx : x.Faults E)
    (hf : ∀ a, x = .ok a → (f a).Faults E) : (x >>= f).Faults E := by
  cases x with
  | ok a => exact hf a rfl
  | error e => exact .error (hx e rfl)

theorem Faults.foldlM {β : Type} {f : β → α → Comp ε π β} {l : List α}
    (hstep : ∀ b, ∀ a ∈ l, (f b a).Faults E) (b : β) : (l.foldlM f b).Faults E := by
  induction l generalizing b with
  | nil => exact .ok
  | cons a l ih =>
    rw [List.foldlM_cons]
    exact (hstep b a List.mem_cons_self).bind fun c _ =>
      ih (fun b a ha => hstep b a (List.mem_cons_of_mem _ ha)) c

theorem Faults.mapM {β : Type} {f : α → Comp ε π β} {l : List α} (h : ∀ a ∈ l, (f a).Faults E) :
    (l.mapM f).Faults E := by
  induction l with
  | nil => exact .ok
  | cons a l ih =>
    rw [List.mapM_cons]
    exact (h a List.mem_cons_self).bind fun _ _ =>
      (ih fun b hb => h b (List.mem_cons_of_mem _ hb)).bind fun _ _ => .ok

/-- The computation ends with a value if `p` holds, as `Q` says, and with a typed error if not. -/
def Decides (x : Comp ε π α) (p : Prop) (Q : α → Prop) : Prop :=
  (p ∧ ∃ a, x = .ok a ∧ Q a) ∨ ¬ p ∧ ∃ e, x = fail e

/-- The first part of a sequence decides a part of `r`, and the second the rest of it. -/
theorem Decides.bind {β : Type} {x : Comp ε π α} {f : α → Comp ε π β} {p r : Prop} {P : α → Prop}
    {Q : β → Prop} (hx : x.Decides p P) (hp : r → p) (hf : ∀ a, p → P a → (f a).Decides r Q) :
    (x >>= f).Decides r Q := by
  rcases hx with ⟨hp', a, rfl, ha⟩ | ⟨hp', e, rfl⟩
  · exact hf a hp' ha
  · exact .inr ⟨fun hr => hp' (hp hr), e, rfl⟩

/-- Two computations end alike: in values that `R` relates, in the same typed error, both in a
panic, or both not at all. A panic returns nothing, so its site is not compared. -/
inductive Alike {β : Type} (R : α → β → Prop) : Comp ε π α → Comp ε π β → Prop
  | ok {a : α} {b : β} (h : R a b) : Alike R (.ok a) (.ok b)
  | err (e : ε) : Alike R (.error (.err e)) (.error (.err e))
  | panic (p q : π) : Alike R (.error (.panic p)) (.error (.panic q))
  | outOfFuel : Alike R (.error .outOfFuel) (.error .outOfFuel)

theorem Alike.refl {R : α → α → Prop} (hR : ∀ a, R a a) (x : Comp ε π α) : Alike R x x := by
  match x with
  | .ok a => exact .ok (hR a)
  | .error (.err e) => exact .err e
  | .error (.panic p) => exact .panic p p
  | .error .outOfFuel => exact .outOfFuel

theorem Alike.trans {β γ : Type} {R : α → β → Prop} {S : β → γ → Prop} {T : α → γ → Prop}
    {x : Comp ε π α} {y : Comp ε π β} {z : Comp ε π γ} (hxy : Alike R x y) (hyz : Alike S y z)
    (hT : ∀ a b c, R a b → S b c → T a c) : Alike T x z := by
  cases hxy with
  | ok hab =>
    cases hyz with
    | ok hbc => exact .ok (hT _ _ _ hab hbc)
  | err e =>
    cases hyz with
    | err => exact .err e
  | panic p q =>
    cases hyz with
    | panic _ r => exact .panic p r
  | outOfFuel =>
    cases hyz with
    | outOfFuel => exact .outOfFuel

/-- Sequences end alike when their first parts do, and their second parts on related values. -/
theorem Alike.bind {β γ δ : Type} {R : α → β → Prop} {S : γ → δ → Prop} {x : Comp ε π α}
    {y : Comp ε π β} {f : α → Comp ε π γ} {g : β → Comp ε π δ} (h : Alike R x y)
    (hfg : ∀ a b, x = .ok a → R a b → Alike S (f a) (g b)) : Alike S (x >>= f) (y >>= g) := by
  cases h with
  | ok h => exact hfg _ _ rfl h
  | err e => exact .err e
  | panic p q => exact .panic p q
  | outOfFuel => exact .outOfFuel

/-- Folds over one list end alike when their steps do. -/
theorem Alike.foldlM {β : Type} {f g : β → α → Comp ε π β} {l : List α}
    (hfg : ∀ b, ∀ a ∈ l, Alike Eq (f b a) (g b a)) (b : β) :
    Alike Eq (l.foldlM f b) (l.foldlM g b) := by
  induction l generalizing b with
  | nil => exact .ok rfl
  | cons a l ih =>
    rw [List.foldlM_cons, List.foldlM_cons]
    refine (hfg b a List.mem_cons_self).bind ?_
    rintro c _ - rfl
    exact ih (fun b a ha => hfg b a (List.mem_cons_of_mem _ ha)) c

end Comp

/-- `if c { return Err(e) }`. -/
def failIf {ε : Type} (c : Prop) [Decidable c] (e : ε) : Except ε Unit :=
  if c then .error e else .ok ()

theorem Comp.Graceful.failIf {ε π : Type} (c : Prop) [Decidable c] (e : ε) :
    Comp.Graceful (Chakobsa.failIf c (.err e) : Comp ε π Unit) := by
  unfold Chakobsa.failIf
  split
  · exact .fail
  · exact .ok

namespace ExceptLemmas

variable {ε α β γ : Type}

@[simp] theorem pure_eq_ok (a : α) : (pure a : Except ε α) = .ok a := rfl

@[simp] theorem throw_eq_error (e : ε) : (throw e : Except ε α) = .error e := rfl

@[simp] theorem ok_bind (a : α) (f : α → Except ε β) : ((Except.ok a) >>= f) = f a := rfl

@[simp] theorem error_bind (e : ε) (f : α → Except ε β) :
    ((Except.error e : Except ε α) >>= f) = .error e := rfl

/-- A sequence ends in a value exactly when both its parts do. -/
theorem bind_eq_ok {x : Except ε α} {f : α → Except ε β} {b : β} :
    (x >>= f) = .ok b ↔ ∃ a, x = .ok a ∧ f a = .ok b := by
  cases x <;> simp

/-- A computation that is seen to end in a value does. -/
theorem exists_of_isSome {x : Except ε α} (h : x.toOption.isSome = true) : ∃ a, x = .ok a := by
  cases x with
  | error e => cases h
  | ok a => exact ⟨a, rfl⟩

/-- A sequence of a check and the rest. -/
@[simp] theorem seq_eq_ok {x : Except ε Unit} {y : Except ε β} {b : β} :
    (x >>= fun _ => y) = .ok b ↔ x = .ok () ∧ y = .ok b := by
  cases x <;> simp

@[simp] theorem mapError_eq_ok {ε' : Type} {x : Except ε α} {f : ε → ε'} {a : α} :
    x.mapError f = .ok a ↔ x = .ok a := by
  cases x <;> simp [Except.mapError]

@[simp] theorem failIf_eq_ok {c : Prop} [Decidable c] {e : ε} : failIf c e = .ok () ↔ ¬ c := by
  by_cases h : c <;> simp [failIf, h]

/-- A loop of checks passes exactly when every check does. -/
@[simp] theorem forM_eq_ok {l : List α} {f : α → Except ε Unit} :
    forM l f = .ok () ↔ ∀ a ∈ l, f a = .ok () := by
  induction l with
  | nil => simp
  | cons a l ih => simp [ih]

/-- The first check that does not pass ends a loop of checks. -/
theorem forM_append_error {l r : List α} {a : α} {f : α → Except ε Unit} {e : ε}
    (h : ∀ b ∈ l, f b = .ok ()) (ha : f a = .error e) : forM (l ++ a :: r) f = .error e := by
  induction l with
  | nil =>
    rw [List.nil_append, List.forM_cons, ha]
    rfl
  | cons b l ih =>
    rw [List.cons_append, List.forM_cons, h b List.mem_cons_self, ok_bind]
    exact ih fun c hc => h c (List.mem_cons_of_mem _ hc)

/-- The values of a successful `mapM` are the images, element by element. -/
theorem mapM_eq_ok {l : List α} {f : α → Except ε β} {bs : List β} :
    l.mapM f = .ok bs ↔ List.Forall₂ (fun a b => f a = .ok b) l bs := by
  induction l generalizing bs with
  | nil => cases bs <;> simp
  | cons a l ih =>
    cases bs with
    | nil => simp [List.mapM_cons, bind_eq_ok]
    | cons b bs => simp [List.mapM_cons, bind_eq_ok, ih]

/-- A `mapM` whose function ends in a value everywhere ends in a value. -/
theorem mapM_exists {l : List α} {f : α → Except ε β} (h : ∀ a ∈ l, ∃ b, f a = .ok b) :
    ∃ bs, l.mapM f = .ok bs := by
  induction l with
  | nil => exact ⟨[], rfl⟩
  | cons a l ih =>
    obtain ⟨b, hb⟩ := h a List.mem_cons_self
    obtain ⟨bs, hbs⟩ := ih fun c hc => h c (List.mem_cons_of_mem _ hc)
    exact ⟨b :: bs, by rw [List.mapM_cons, hb, hbs]; rfl⟩

/-- In lists related element by element, an element of the first has one of the second. -/
theorem related_of_mem_left {R : α → β → Prop} {l : List α} {bs : List β} (h : List.Forall₂ R l bs)
    {a : α} (ha : a ∈ l) : ∃ b ∈ bs, R a b := by
  obtain ⟨i, hi, rfl⟩ := List.getElem_of_mem ha
  have hi' : i < bs.length := h.length_eq ▸ hi
  exact ⟨bs[i], List.getElem_mem hi', h.get hi hi'⟩

/-- The other way about. -/
theorem related_of_mem_right {R : α → β → Prop} {l : List α} {bs : List β} (h : List.Forall₂ R l bs)
    {b : β} (hb : b ∈ bs) : ∃ a ∈ l, R a b :=
  related_of_mem_left h.flip hb

/-- A successful `mapM` has a value for every element. -/
theorem of_mapM_eq_ok {l : List α} {f : α → Except ε β} {bs : List β} (h : l.mapM f = .ok bs) :
    ∀ a ∈ l, ∃ b, f a = .ok b := by
  intro a ha
  obtain ⟨b, -, hb⟩ := related_of_mem_left (mapM_eq_ok.mp h) ha
  exact ⟨b, hb⟩

/-- What a step of a fold preserves, a successful fold preserves. -/
theorem foldlM_invariant {f : β → α → Except ε β} (Inv : β → Prop) {l : List α} {b b' : β}
    (hstep : ∀ b a b', a ∈ l → Inv b → f b a = .ok b' → Inv b') (hb : Inv b)
    (h : l.foldlM f b = .ok b') : Inv b' := by
  induction l generalizing b with
  | nil =>
    obtain rfl : b = b' := by simpa using h
    exact hb
  | cons a l ih =>
    rw [List.foldlM_cons, bind_eq_ok] at h
    obtain ⟨c, hc, h⟩ := h
    exact ih (fun b a b' ha => hstep b a b' (List.mem_cons_of_mem _ ha))
      (hstep b a c List.mem_cons_self hb hc) h

end ExceptLemmas

end Chakobsa
