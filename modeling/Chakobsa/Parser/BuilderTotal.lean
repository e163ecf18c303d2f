import Chakobsa.Parser.BuilderRead
import Chakobsa.Lib.Walk
import Mathlib.Data.Finset.Card
import Mathlib.Data.Finset.Range
import Mathlib.Tactic.Ring

/-!
# Reads come to an end

Two things bound the recursion of `read_variable`. Whenever it creates a phi it binds the variable
in one more block, and from one phi to the next it goes from a block to its only predecessor,
which shortens the walk from the entry. So `readFuel` is enough on blocks that can be reached from
the entry, and no step of the recursion panics.
-/

namespace Chakobsa
namespace Parser

open Ir ExceptLemmas

/-- The recorded edges. -/
def SsaBuilder.Edge (B : SsaBuilder) (p b : BlockId) : Prop := p ∈ B.preds b

instance (B : SsaBuilder) (p b : BlockId) : Decidable (B.Edge p b) :=
  inferInstanceAs (Decidable (p ∈ B.preds b))

/-- The block can be reached from the entry over recorded edges. -/
def SsaBuilder.Reach (B : SsaBuilder) (b : BlockId) : Prop := ∃ π, Walk B.Edge 0 π b

/-- Blocks with a terminator can be reached. -/
def ReachInv (B : SsaBuilder) : Prop := ∀ b, B.func.termAt b ≠ none → B.Reach b

section Total

variable {ε : Type} {x : String} {ty : Ty} {g g' : Ghost}
  {Open : BlockId → String → ValueId → Prop} {Closing Q : BlockId → Prop}

/-- The blocks in which nothing is known about `x`. -/
def unknown (g : Ghost) (x : String) : Finset BlockId :=
  (Finset.range g.builder.func.blocks.length).filter fun b => g.outDef b x = none

theorem unknown_mono (hlen : g'.builder.func.blocks.length = g.builder.func.blocks.length)
    (hout : ∀ c w, g.outDef c x = some w → g'.outDef c x = some w) :
    (unknown g' x).card ≤ (unknown g x).card := by
  refine Finset.card_le_card fun b hb => ?_
  obtain ⟨hb, hn⟩ := Finset.mem_filter.mp hb
  refine Finset.mem_filter.mpr ⟨hlen ▸ hb, ?_⟩
  cases hd : g.outDef b x with
  | none => rfl
  | some w => simp [hout b w hd] at hn

theorem unknown_addPhi (ty : Ty) {b : BlockId} (hb : b < g.builder.func.blocks.length)
    (hnone : g.outDef b x = none) :
    (unknown (g.addPhi b x ty) x).card < (unknown g x).card := by
  have hlen : (g.addPhi b x ty).builder.func.blocks.length = g.builder.func.blocks.length :=
    Function.modify_length _ _
  refine Finset.card_lt_card ((Finset.ssubset_iff_of_subset fun c hc => ?_).mpr ⟨b, ?_, ?_⟩)
  · obtain ⟨hc, hn⟩ := Finset.mem_filter.mp hc
    rw [Ghost.addPhi, outDef_setEntry hnone] at hn
    split at hn
    · simp at hn
    · exact Finset.mem_filter.mpr ⟨hlen ▸ hc, hn⟩
  · exact Finset.mem_filter.mpr ⟨Finset.mem_range.mpr hb, hnone⟩
  · intro hm
    have := (Finset.mem_filter.mp hm).2
    rw [Ghost.addPhi, outDef_setEntry hnone] at this
    simp at this

/-- What is kept while operands are read: the reach of the predecessors. -/
theorem walk_length_lt (h : GraphInv g.builder) {b : BlockId} (hr : g.builder.Reach b)
    (hb : b < g.builder.func.blocks.length) :
    ∃ π, Walk g.builder.Edge 0 π b ∧ π.length < g.builder.func.blocks.length := by
  obtain ⟨π, hw⟩ := hr
  obtain ⟨π, hw, hnd⟩ := hw.nodup
  refine ⟨π, hw, ?_⟩
  have hlt : ∀ {π : List BlockId} {b : BlockId}, Walk g.builder.Edge 0 π b →
      ∀ c ∈ π, c < g.builder.func.blocks.length := by
    intro π b hw
    induction hw with
    | start => simp
    | step hw he ih =>
      intro c hc
      rcases List.mem_cons.mp hc with rfl | hc
      · exact h.pred_lt he
      · exact ih c hc
  have hsub : ∀ c ∈ b :: π, c ∈ List.range g.builder.func.blocks.length := by
    intro c hc
    rcases List.mem_cons.mp hc with rfl | hc
    · exact List.mem_range.mpr hb
    · exact List.mem_range.mpr (hlt hw c hc)
  have := (hnd.subperm hsub).length_le
  rw [List.length_cons, List.length_range] at this
  exact this

/-- A reader that ends on every block it can get to with the given budget. -/
def ReadTotal (x : String) (n : ℕ)
    (read : SsaBuilder → BlockId → BuildM ε (ValueId × SsaBuilder)) : Prop :=
  ∀ (g : Ghost) Open Closing b π, BuilderInv g Open Closing → ReachInv g.builder →
    (∀ c, Closing c → g.outDef c x ≠ none) → b < g.builder.func.blocks.length →
    Walk g.builder.Edge 0 π b →
    (unknown g x).card * (g.builder.func.blocks.length + 1) + π.length < n →
    ∃ r, read g.builder b = .ok r

theorem ReadFrame.reachInv (hf : ReadFrame x ty Q g g') (h : ReachInv g.builder) :
    ReachInv g'.builder := by
  intro b hb
  rw [hf.term] at hb
  obtain ⟨π, hw⟩ := h b hb
  exact ⟨π, hw.mono fun p c hp => by rw [SsaBuilder.Edge, hf.preds]; exact hp⟩

theorem ReadFrame.closing (hf : ReadFrame x ty Q g g')
    (hc : ∀ c, Closing c → g.outDef c x ≠ none) : ∀ c, Closing c → g'.outDef c x ≠ none := by
  intro c hcl
  obtain ⟨w, hw⟩ := Option.ne_none_iff_exists'.mp (hc c hcl)
  simp [hf.outDef hw]

/-- All predecessors can be read. -/
theorem readPreds_total {read : SsaBuilder → BlockId → BuildM ε (ValueId × SsaBuilder)} {n : ℕ}
    (hspec : ReadSpec x ty read) (htotal : ReadTotal x n read) {ps : List BlockId}
    (h : BuilderInv g Open Closing) (hr : ReachInv g.builder)
    (hclosing : ∀ c, Closing c → g.outDef c x ≠ none)
    (hps : ∀ p ∈ ps, p < g.builder.func.blocks.length ∧ g.builder.Reach p)
    (hn : (unknown g x).card * (g.builder.func.blocks.length + 1) +
      g.builder.func.blocks.length ≤ n) :
    ∃ r, SsaBuilder.readPreds read g.builder ps = .ok r := by
  induction ps generalizing g with
  | nil => exact ⟨_, rfl⟩
  | cons p ps ih =>
    obtain ⟨hp, hpr⟩ := hps p List.mem_cons_self
    obtain ⟨π, hw, hlen⟩ := walk_length_lt h.graph hpr hp
    obtain ⟨⟨v, B'⟩, hv⟩ := htotal g Open Closing p π h hr hclosing hp hw (by omega)
    obtain ⟨g₁, rfl, h₁, hf, -⟩ := hspec g Open Closing (fun _ => True) p v B' h hclosing
      (fun _ _ _ _ _ => trivial) (fun _ => trivial) hp hv
    have hcard := unknown_mono (x := x) hf.length fun c w hd => hf.outDef hd
    obtain ⟨r, hr'⟩ := ih h₁ (hf.reachInv hr) (hf.closing hclosing) (fun q hq => by
        obtain ⟨hq, π, hw⟩ := hps q (List.mem_cons_of_mem _ hq)
        refine ⟨hf.length ▸ hq, π, hw.mono fun p c hp => ?_⟩
        rw [SsaBuilder.Edge, hf.preds]
        exact hp) (by
        rw [hf.length]
        exact (Nat.add_le_add_right (Nat.mul_le_mul_right _ hcard) _).trans hn)
    exact ⟨_, by simp only [SsaBuilder.readPreds, hv, ok_bind, hr']; rfl⟩

/-- The operands of a phi can be read and filled in. -/
theorem addPhiOperands_total {read : SsaBuilder → BlockId → BuildM ε (ValueId × SsaBuilder)}
    {n : ℕ} (hspec : ReadSpec x ty read) (htotal : ReadTotal x n read) {b : BlockId}
    {phi : ValueId} (h : BuilderInv g Open Closing) (hr : ReachInv g.builder)
    (hclosing : ∀ c, Closing c → g.outDef c x ≠ none) (hd : g.entryDef b x = some (.phi phi))
    (hn : (unknown g x).card * (g.builder.func.blocks.length + 1) +
      g.builder.func.blocks.length ≤ n) :
    ∃ B', SsaBuilder.addPhiOperands read g.builder phi b = .ok B' := by
  have hps : ∀ p ∈ g.builder.preds b, p < g.builder.func.blocks.length ∧ g.builder.Reach p :=
    fun p hp => ⟨h.graph.pred_lt hp, hr p (h.graph.pred_terminated hp)⟩
  obtain ⟨⟨incoming, B'⟩, hinc⟩ := readPreds_total hspec htotal h hr hclosing hps hn
  obtain ⟨g₁, rfl, h₁, hf, -⟩ := readPreds_spec hspec h hclosing
    (fun _ _ _ _ _ => trivial) (fun p hp => ⟨(hps p hp).1, fun _ => trivial⟩) hinc
  have hd₁ := hf.entries b x _ hd
  obtain ⟨i, hi, hid, -⟩ := h₁.entries.phi b x phi hd₁
  exact ⟨_, SsaBuilder.addPhiOperands_eq hinc h₁.graph.indexed (h₁.lt_of_entryDef hd₁)
    (h₁.values.nodup b) (List.mem_map.mpr ⟨i, hi, hid⟩)⟩

theorem readVariable_total (ty : Ty) (n : ℕ) :
    ReadTotal x n (SsaBuilder.readVariable x ty n : _ → _ → BuildM ε _) := by
  induction n with
  | zero => exact fun g Open Closing b π _ _ _ _ _ hn => absurd hn (Nat.not_lt_zero _)
  | succ n ih =>
    intro g Open Closing b π h hr hclosing hb hw hn
    rw [SsaBuilder.readVariable]
    cases hcur : g.builder.currentDef b x with
    | some w => exact ⟨_, rfl⟩
    | none =>
      have hnone : g.outDef b x = none := h.logs.cur b x ▸ hcur
      simp only [SsaBuilder.readVariableRecursive, SsaBuilder.emit_ok h.graph.indexed hb, ok_bind]
      split
      · exact ⟨_, rfl⟩
      · split
        · exact ⟨_, rfl⟩
        · next p hp =>
          -- the walk to the block comes from its only predecessor
          cases hw with
          | start => simp [h.graph.entryPreds] at hp
          | @step π q _ hw he =>
            obtain rfl : q = p := by simpa [SsaBuilder.Edge, hp] using he
            obtain ⟨r, hr'⟩ := ih g Open Closing q π h hr hclosing (h.graph.pred_lt he) hw
              (by rw [List.length_cons] at hn; omega)
            exact ⟨_, by rw [hr']; rfl⟩
        · next hp₁ hp₂ =>
          have hadd := h.addPhi ty hb hnone
          have hcard := unknown_addPhi ty hb hnone
          have hf := ReadFrame.addPhi (x := x) ty (Q := fun _ => True) hb hnone trivial
            (by rintro ⟨-, p, hp⟩; exact hp₂ p hp)
          have hdef : (g.addPhi b x ty).entryDef b x = some (.phi g.builder.nextValue) := by
            simp [Ghost.addPhi, setEntry_apply]
          obtain ⟨B', hB'⟩ := addPhiOperands_total (readVariable_spec ty n) ih hadd (hf.reachInv hr)
            (hf.closing hclosing) hdef (by
              rw [hf.length]
              have := Nat.mul_le_mul_right (g.builder.func.blocks.length + 1)
                (Nat.succ_le_of_lt hcard)
              rw [Nat.succ_mul] at this
              omega)
          have hB'' : SsaBuilder.addPhiOperands (SsaBuilder.readVariable x ty n)
              ((g.builder.emitted b ty (.phi [])).writeVariable x b g.builder.nextValue)
              g.builder.nextValue b = (.ok B' : BuildM ε _) := hB'
          exact ⟨_, by rw [hB'']; rfl⟩

/-- `read_variable` returns, on any block of the function. -/
theorem read_total (ty : Ty) {b : BlockId} (h : BuilderInv g Open Closing) (hr : ReachInv g.builder)
    (hclosing : ∀ c, Closing c → g.outDef c x ≠ none) (hb : b < g.builder.func.blocks.length) :
    ∃ r, (g.builder.read x b ty : BuildM ε _) = .ok r := by
  have hcard : (unknown g x).card ≤ g.builder.func.blocks.length := by
    refine (Finset.card_filter_le _ _).trans ?_
    rw [Finset.card_range]
  have hle := Nat.mul_le_mul_right (g.builder.func.blocks.length + 1) hcard
  have hfuel : g.builder.readFuel = g.builder.func.blocks.length *
      (g.builder.func.blocks.length + 1) + 2 * (g.builder.func.blocks.length + 1) := by
    unfold SsaBuilder.readFuel
    ring
  by_cases hreach : g.builder.Reach b
  · obtain ⟨π, hw, hlen⟩ := walk_length_lt h.graph hreach hb
    exact readVariable_total ty _ g Open Closing b π h hr hclosing hb hw (by rw [hfuel]; omega)
  · -- a block that cannot be reached has no predecessor
    have hpreds : g.builder.preds b = [] := by
      rw [List.eq_nil_iff_forall_not_mem]
      intro p hp
      obtain ⟨π, hw⟩ := hr p (h.graph.pred_terminated hp)
      exact hreach ⟨p :: π, .step hw hp⟩
    obtain ⟨n, hn⟩ : ∃ n, g.builder.readFuel = n + 1 := ⟨_, by rw [hfuel]; rfl⟩
    rw [SsaBuilder.read, hn, SsaBuilder.readVariable]
    cases g.builder.currentDef b x with
    | some w => exact ⟨_, rfl⟩
    | none =>
      simp only [SsaBuilder.readVariableRecursive, SsaBuilder.emit_ok h.graph.indexed hb, ok_bind,
        hpreds]
      split <;> exact ⟨_, rfl⟩

end Total

end Parser
end Chakobsa
