import Chakobsa.Parser.BuilderSeal
import Chakobsa.Parser.Actions

/-!
# Look-ups that find a definition

`strictRead` is `read_variable` with some other computation in the two places where a look-up
would be lost: in the arm for a sealed block without predecessors, and where the fuel of the
recursion is used up. `strictSeal` is `seal_block` over it. A look-up that stays among blocks which
are entered from somewhere, or have a definition, gets to neither place, and so ends as it does in
the builder, whatever the other computation is.

Which blocks a look-up visits is said by `Sought`: a set of blocks that contains the predecessors
of its members, up to those that have a definition. What a look-up may change besides the
instructions is said by `Kept`: it binds variables and parks phis, the latter in blocks of which
`N` holds.
-/

namespace Chakobsa
namespace Parser

open Ir ExceptLemmas

namespace SsaBuilder

variable {ε : Type}

section Strict

variable (other : SsaBuilder → BlockId → BuildM ε (ValueId × SsaBuilder))

/-- `read_variable`, with `other` in the places where it would be lost. -/
def strictRead (x : String) (ty : Ty) : ℕ → SsaBuilder → BlockId → BuildM ε (ValueId × SsaBuilder)
  | 0, B, b => other B b
  | n + 1, B, b =>
    match B.currentDef b x with
    | some v => .ok (v, B)
    | none =>
      if B.isSealed b = true ∧ B.preds b = [] then other B b
      else readVariableRecursive (strictRead x ty n) x ty B b

/-- The loop of `seal_block`, with strict look-ups. -/
def strictFill (b : BlockId) : SsaBuilder → List (String × ValueId) → BuildM ε SsaBuilder
  | B, [] => .ok B
  | B, (x, phi) :: rest => do
    let ty ← Comp.expect .valueTyped (B.valueTypes phi)
    let B ← addPhiOperands (strictRead other x ty B.readFuel) B phi b
    strictFill b B rest

/-- `seal_block`, with strict look-ups. -/
def strictSeal (B : SsaBuilder) (b : BlockId) : BuildM ε SsaBuilder := do
  let pending := B.incompletePhis b
  let B ← strictFill other b { B with incompletePhis := insertAt B.incompletePhis b [] } pending
  return { B with isSealed := insertAt B.isSealed b true }

end Strict

/-! ### What look-ups leave alone -/

/-- The graph is as before, no definition is lost, and phis for `y` are parked in `c` only if
`N y c`. -/
structure Kept (N : String → BlockId → Prop) (B B' : SsaBuilder) : Prop where
  preds : B'.preds = B.preds
  isSealed : B'.isSealed = B.isSealed
  defs : ∀ c y, B.currentDef c y ≠ none → B'.currentDef c y ≠ none
  parked : ∀ c, ∃ new, B'.incompletePhis c = B.incompletePhis c ++ new ∧ ∀ e ∈ new, N e.1 c

section Kept

variable {N : String → BlockId → Prop} {B B' B'' : SsaBuilder} {b : BlockId} {x : String}

theorem Kept.refl : Kept N B B := ⟨rfl, rfl, fun _ _ h => h, fun _ => ⟨[], by simp⟩⟩

theorem Kept.trans (h : Kept N B B') (h' : Kept N B' B'') : Kept N B B'' := by
  refine ⟨h'.preds.trans h.preds, h'.isSealed.trans h.isSealed,
    fun c y hc => h'.defs c y (h.defs c y hc), fun c => ?_⟩
  obtain ⟨new, hnew, hN⟩ := h.parked c
  obtain ⟨new', hnew', hN'⟩ := h'.parked c
  refine ⟨new ++ new', by rw [hnew', hnew, List.append_assoc], fun e he => ?_⟩
  exact (List.mem_append.mp he).elim (hN e) (hN' e)

theorem Kept.of_blockMut {g : BasicBlock → BasicBlock}
    (h : (B.blockMut b g : BuildM ε _) = .ok B') : Kept N B B' := by
  obtain ⟨blocks, -, h⟩ := bind_eq_ok.mp h
  obtain rfl := Except.ok.inj h
  exact ⟨rfl, rfl, fun _ _ h => h, fun _ => ⟨[], by simp⟩⟩

theorem Kept.of_emit {ty : Ty} {kind : InstKind} {r : ValueId × SsaBuilder}
    (h : (B.emit b ty kind : BuildM ε _) = .ok r) : Kept N B r.2 := by
  obtain ⟨next, -, h⟩ := bind_eq_ok.mp h
  obtain ⟨B₁, h₁, h⟩ := bind_eq_ok.mp h
  obtain rfl := Except.ok.inj h
  -- the counter and the table of types are no part of it
  have hkept := Kept.of_blockMut (N := N) h₁
  exact ⟨hkept.preds, hkept.isSealed, hkept.defs, hkept.parked⟩

theorem Kept.write (v : ValueId) : Kept N B (B.writeVariable x b v) := by
  refine ⟨rfl, rfl, fun c y hc => ?_, fun _ => ⟨[], by simp [writeVariable]⟩⟩
  show insertAt B.currentDef b (insertAt (B.currentDef b) x (some v)) c y ≠ none
  unfold insertAt
  split
  · next hcb =>
    subst hcb
    show (if y = x then some v else B.currentDef c y) ≠ none
    split
    · exact Option.some_ne_none v
    · exact hc
  · exact hc

theorem Kept.park {phi : ValueId} (hN : N x b) : Kept N B (B.park b x phi) := by
  refine ⟨rfl, rfl, fun _ _ h => h, fun c => ?_⟩
  show ∃ new, insertAt B.incompletePhis b (B.incompletePhis b ++ [(x, phi)]) c = _ ∧ _
  unfold insertAt
  split
  · next hc =>
    subst hc
    exact ⟨[(x, phi)], rfl, by simpa using hN⟩
  · exact ⟨[], by simp⟩

end Kept

/-! ### Strict look-ups are look-ups -/

/-- A look-up of `x` that starts in `K` stays there, is not lost there, and may park phis there. -/
structure Sought (B : SsaBuilder) (x : String) (K : BlockId → Prop) (N : String → BlockId → Prop) :
    Prop where
  back : ∀ c, K c → B.currentDef c x = none → ∀ p ∈ B.preds c, K p
  entered : ∀ c, K c → B.currentDef c x = none → B.preds c ≠ []
  parks : ∀ c, K c → B.currentDef c x = none → N x c

/-- Where `read` ends with a value `read'` ends with the same, as far as look-ups in `K` go. -/
def Finds (x : String) (K : BlockId → Prop) (N : String → BlockId → Prop)
    (read read' : SsaBuilder → BlockId → BuildM ε (ValueId × SsaBuilder)) : Prop :=
  ∀ B b r, Sought B x K N → K b → read B b = .ok r → read' B b = .ok r ∧ Kept N B r.2

section Finds

variable {x : String} {ty : Ty} {K : BlockId → Prop} {N : String → BlockId → Prop}
  {B B' : SsaBuilder} {b : BlockId}
  {read read' : SsaBuilder → BlockId → BuildM ε (ValueId × SsaBuilder)}

/-- Fewer blocks lack a definition. -/
theorem Sought.kept (h : Sought B x K N) (hk : Kept N B B') : Sought B' x K N := by
  have hnone : ∀ c, B'.currentDef c x = none → B.currentDef c x = none := by
    intro c hc
    by_contra hne
    exact hk.defs c x hne hc
  refine ⟨fun c hc hn p hp => ?_, fun c hc hn => ?_, fun c hc hn => h.parks c hc (hnone c hn)⟩
  · exact h.back c hc (hnone c hn) p (hk.preds ▸ hp)
  · rw [hk.preds]
    exact h.entered c hc (hnone c hn)

theorem readPreds_finds (hread : Finds x K N read read') {ps : List BlockId}
    {r : List (BlockId × ValueId) × SsaBuilder} (h : Sought B x K N) (hps : ∀ p ∈ ps, K p)
    (hok : readPreds read B ps = .ok r) : readPreds read' B ps = .ok r ∧ Kept N B r.2 := by
  induction ps generalizing B r with
  | nil =>
    obtain rfl := Except.ok.inj hok
    exact ⟨rfl, .refl⟩
  | cons p ps ih =>
    obtain ⟨⟨v, B₁⟩, h₁, hok⟩ := bind_eq_ok.mp hok
    obtain ⟨⟨incoming, B₂⟩, h₂, hok⟩ := bind_eq_ok.mp hok
    obtain rfl := Except.ok.inj hok
    obtain ⟨h₁', hk₁⟩ := hread B p _ h (hps p List.mem_cons_self) h₁
    obtain ⟨h₂', hk₂⟩ := ih (h.kept hk₁) (fun q hq => hps q (List.mem_cons_of_mem _ hq)) h₂
    refine ⟨?_, hk₁.trans hk₂⟩
    simp only [readPreds, h₁', ok_bind, h₂']
    rfl

theorem addPhiOperands_finds (hread : Finds x K N read read') {phi : ValueId} (h : Sought B x K N)
    (hb : ∀ p ∈ B.preds b, K p) (hok : addPhiOperands read B phi b = .ok B') :
    addPhiOperands read' B phi b = .ok B' ∧ Kept N B B' := by
  obtain ⟨⟨incoming, B₁⟩, h₁, hok⟩ := bind_eq_ok.mp hok
  obtain ⟨blk, hblk, hok⟩ := bind_eq_ok.mp hok
  obtain ⟨insts, hinsts, hok⟩ := bind_eq_ok.mp hok
  obtain ⟨h₁', hk₁⟩ := readPreds_finds hread h hb h₁
  refine ⟨?_, hk₁.trans (.of_blockMut hok)⟩
  simp only [addPhiOperands, h₁', ok_bind, hblk, hinsts]
  exact hok

/-- One level of the recursion. -/
theorem readVariableRecursive_finds (hread : Finds x K N read read') {r : ValueId × SsaBuilder}
    (h : Sought B x K N) (hb : K b) (hnone : B.currentDef b x = none)
    (hok : readVariableRecursive read x ty B b = .ok r) :
    readVariableRecursive read' x ty B b = .ok r ∧ Kept N B r.2 := by
  have hback := h.back b hb hnone
  unfold readVariableRecursive at hok ⊢
  dsimp only at hok ⊢
  split at hok
  · next hs =>
    -- not sealed: the phi is parked, and nothing is looked up
    rw [if_pos hs]
    refine ⟨hok, ?_⟩
    obtain ⟨⟨phi, B₁⟩, h₁, hok⟩ := bind_eq_ok.mp hok
    obtain rfl := Except.ok.inj hok
    exact ((Kept.of_emit h₁).trans (.park (h.parks b hb hnone))).trans (.write phi)
  · next hs =>
    rw [if_neg hs]
    split at hok
    · next hp => exact absurd hp (h.entered b hb hnone)
    · next p hp =>
      rw [hp] at hback
      obtain ⟨⟨v, B₁⟩, h₁, hok⟩ := bind_eq_ok.mp hok
      obtain ⟨h₁', hk₁⟩ := hread B p _ h (hback p (List.mem_singleton.mpr rfl)) h₁
      obtain rfl := Except.ok.inj hok
      refine ⟨?_, hk₁.trans (.write v)⟩
      simp only [h₁', ok_bind]
      rfl
    · obtain ⟨⟨phi, B₁⟩, h₁, hok⟩ := bind_eq_ok.mp hok
      obtain ⟨B₂, h₂, hok⟩ := bind_eq_ok.mp hok
      obtain rfl := Except.ok.inj hok
      have hk₁ : Kept N B (B₁.writeVariable x b phi) := (Kept.of_emit h₁).trans (.write phi)
      obtain ⟨h₂', hk₂⟩ := addPhiOperands_finds hread (h.kept hk₁)
        (fun p hp => hback p (hk₁.preds ▸ hp)) h₂
      refine ⟨?_, (hk₁.trans hk₂).trans (.write phi)⟩
      simp only [h₁, ok_bind, h₂']
      rfl

variable (other : SsaBuilder → BlockId → BuildM ε (ValueId × SsaBuilder))

/-- A look-up that ends with a value does so without `other`. -/
theorem readVariable_finds (ty : Ty) (n : ℕ) :
    Finds x K N (readVariable x ty n) (strictRead other x ty n) := by
  induction n with
  | zero =>
    intro B b r _ _ hok
    cases hok
  | succ n ih =>
    intro B b r h hb hok
    rw [readVariable] at hok
    rw [strictRead]
    cases hcur : B.currentDef b x with
    | some v =>
      rw [hcur] at hok
      obtain rfl := Except.ok.inj hok
      exact ⟨rfl, .refl⟩
    | none =>
      rw [hcur] at hok
      dsimp only at hok ⊢
      rw [if_neg fun hlost => h.entered b hb hcur hlost.2]
      exact readVariableRecursive_finds ih h hb hcur hok

/-- Filling in the phis parked for `pending`, each looked up in a set of its own. -/
theorem fillPhis_finds {pending : List (String × ValueId)} {S : String → BlockId → Prop}
    (h : ∀ e ∈ pending, Sought B e.1 (S e.1) N ∧ ∀ p ∈ B.preds b, S e.1 p)
    (hok : fillPhis b B pending = (.ok B' : BuildM ε _)) :
    strictFill other b B pending = .ok B' ∧ Kept N B B' := by
  induction pending generalizing B with
  | nil =>
    obtain rfl := Except.ok.inj hok
    exact ⟨rfl, .refl⟩
  | cons e pending ih =>
    obtain ⟨x, phi⟩ := e
    obtain ⟨ty, hty, hok⟩ := bind_eq_ok.mp hok
    obtain ⟨B₁, h₁, hok⟩ := bind_eq_ok.mp hok
    obtain ⟨hs, hb⟩ := h (x, phi) List.mem_cons_self
    obtain ⟨h₁', hk₁⟩ := addPhiOperands_finds (readVariable_finds other ty _) hs hb h₁
    obtain ⟨hok', hk⟩ := ih (fun e he => by
      obtain ⟨hs, hb⟩ := h e (List.mem_cons_of_mem _ he)
      exact ⟨hs.kept hk₁, fun p hp => hb p (hk₁.preds ▸ hp)⟩) hok
    refine ⟨?_, hk₁.trans hk⟩
    simp only [strictFill, hty, ok_bind, h₁', hok']

end Finds

end SsaBuilder

end Parser
end Chakobsa
