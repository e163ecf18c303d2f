import Chakobsa.Codegen.Liveness
import Chakobsa.Ir.PhiResolution
import Mathlib.Data.Finset.Card
import Mathlib.Algebra.Order.BigOperators.Group.List
import Mathlib.Algebra.Order.Group.Nat
import Mathlib.Data.Nat.Cast.Basic

/-!
# Liveness is exact

`analyze` sweeps over the blocks until nothing changes. Every sweep that changes something makes
one of the sets larger, and no set ever holds more than the operands of the function, so the sweeps
come to an end. What they end with is exact: a value is live out of a block when a path leads from
there to a block that reads it, or to a phi that reads it over the last edge, and no block before
the last one on the path defines it.

`Rising` is what carries the loop: the sets are no larger than their equations say, so a sweep can
only add to them, and whatever is in them has a path.
-/

namespace Chakobsa
namespace Codegen

open Ir ExceptLemmas

/-- The block reads `v` before it defines it, if it defines it. -/
def Exposed (b : BasicBlock) (v : ValueId) : Prop :=
  (∃ before i after, b.instructions = before ++ i :: after ∧ v ∈ instUses i.kind ∧
    ∀ j ∈ before, j.id ≠ v) ∨
  (v ∈ termUses b.terminator ∧ ∀ j ∈ b.instructions, j.id ≠ v)

/-- The block defines `v`. -/
def Defines (b : BasicBlock) (v : ValueId) : Prop := ∃ i ∈ b.instructions, i.id = v

/-- A phi of the block has `v` as its operand, the first one listed, for the predecessor `from'`. -/
def PhiReads (b : BasicBlock) (from' : BlockId) (v : ValueId) : Prop :=
  ∃ i ∈ b.instructions, ∃ incoming, i.kind = .phi incoming ∧
    (incoming.find? fun p => p.1 == from').map Prod.snd = some v

/-- The path from `b` leads to a read of `v`, and no block on it before the last one defines `v`. -/
def LiveAlong (f : Function) (v : ValueId) : BlockId → List BlockId → Prop
  | _, [] => False
  | b, [s] => f.Edge b s ∧ ∃ blk, f.block s = some blk ∧ (Exposed blk v ∨ PhiReads blk b v)
  | b, s :: t :: rest => f.Edge b s ∧ (∃ blk, f.block s = some blk ∧ ¬ Defines blk v) ∧
      LiveAlong f v s (t :: rest)

/-- The sets of `l` are those that the paths of the function give. -/
structure LivenessExact (f : Function) (l : Liveness) : Prop where
  liveOut : ∀ b ∈ f.blocks, ∀ v, v ∈ l.liveOut b.id ↔ ∃ path, LiveAlong f v b.id path
  liveIn : ∀ b ∈ f.blocks, ∀ v,
    v ∈ l.liveIn b.id ↔ Exposed b v ∨ v ∈ l.liveOut b.id ∧ ¬ Defines b v

/-- What flows into the end of `b` when `liveIn` flows into the successors. -/
def Flow (f : Function) (liveIn : BlockId → ValueSet) (b : BasicBlock) (v : ValueId) : Prop :=
  ∃ s ∈ b.successors, v ∈ liveIn s ∨ ∃ blk, f.block s = some blk ∧ PhiReads blk b.id v

section Sets

variable {b : BasicBlock} {v : ValueId} {s t : ValueSet}

theorem sameAs_iff : s.sameAs t = true ↔ ∀ v, v ∈ s ↔ v ∈ t := by
  simp only [ValueSet.sameAs, Bool.and_eq_true, List.all_eq_true, decide_eq_true_eq]
  constructor
  · exact fun h v => ⟨h.1 v, h.2 v⟩
  · exact fun h => ⟨fun v => (h v).1, fun v => (h v).2⟩

theorem mem_noteUse {w : ValueId} : v ∈ noteUse s t w ↔ v ∈ t ∨ v = w ∧ w ∉ s := by
  unfold noteUse
  split
  · next h => simp [h]
  · next h =>
    rw [List.mem_insert_iff]
    tauto

theorem mem_foldl_noteUse {ws : List ValueId} :
    v ∈ ws.foldl (noteUse s) t ↔ v ∈ t ∨ v ∈ ws ∧ v ∉ s := by
  induction ws generalizing t with
  | nil => simp
  | cons w ws ih =>
    rw [List.foldl_cons, ih, mem_noteUse, List.mem_cons]
    constructor
    · rintro ((h | ⟨rfl, h⟩) | h)
      · exact .inl h
      · exact .inr ⟨.inl rfl, h⟩
      · exact .inr ⟨.inr h.1, h.2⟩
    · rintro (h | ⟨rfl | h, hn⟩)
      · exact .inl (.inl h)
      · exact .inl (.inr ⟨rfl, hn⟩)
      · exact .inr ⟨h, hn⟩

/-- The scan of some instructions. -/
theorem mem_scan {l : List Instruction} :
    (v ∈ (l.foldl scanInst ([], [])).2 ↔ ∃ i ∈ l, i.id = v) ∧
    (v ∈ (l.foldl scanInst ([], [])).1 ↔ ∃ before i after, l = before ++ i :: after ∧
      v ∈ instUses i.kind ∧ ∀ j ∈ before, j.id ≠ v) := by
  induction l using List.reverseRecOn with
  | nil => simp
  | append_singleton l i ih =>
    obtain ⟨hdef, huse⟩ := ih
    rw [List.foldl_append, List.foldl_cons, List.foldl_nil]
    constructor
    · show v ∈ List.insert i.id (l.foldl scanInst ([], [])).2 ↔ _
      rw [List.mem_insert_iff, hdef]
      simp only [List.mem_append, List.mem_singleton]
      constructor
      · rintro (rfl | ⟨j, hj, hv⟩)
        · exact ⟨i, .inr rfl, rfl⟩
        · exact ⟨j, .inl hj, hv⟩
      · rintro ⟨j, hj | rfl, hv⟩
        · exact .inr ⟨j, hj, hv⟩
        · exact .inl hv.symm
    · show v ∈ (instUses i.kind).foldl (noteUse _) _ ↔ _
      rw [mem_foldl_noteUse, huse, hdef]
      constructor
      · rintro (⟨before, j, after, rfl, hj, hb⟩ | ⟨hi, hn⟩)
        · exact ⟨before, j, after ++ [i], by simp, hj, hb⟩
        · exact ⟨l, i, [], rfl, hi, fun j hj he => hn ⟨j, hj, he⟩⟩
      · rintro ⟨before, j, after, heq, hj, hb⟩
        rcases List.eq_nil_or_concat after with rfl | ⟨after, k, rfl⟩
        · obtain ⟨rfl, hji⟩ := List.append_inj' heq rfl
          obtain rfl : i = j := by simpa using hji
          exact .inr ⟨hj, fun ⟨k, hk, he⟩ => hb k hk he⟩
        · have heq' : l ++ [i] = (before ++ j :: after) ++ [k] := by simpa using heq
          obtain ⟨rfl, -⟩ := List.append_inj' heq' rfl
          exact .inl ⟨before, j, after, rfl, hj, hb⟩

theorem mem_used : v ∈ (usedAndDefined b).1 ↔ Exposed b v := by
  show v ∈ (termUses b.terminator).foldl (noteUse _) _ ↔ _
  rw [mem_foldl_noteUse, mem_scan.2, mem_scan.1, Exposed]
  refine or_congr_right (and_congr_right fun _ => ?_)
  constructor
  · exact fun h j hj he => h ⟨j, hj, he⟩
  · exact fun h ⟨j, hj, he⟩ => h j hj he

theorem mem_defined : v ∈ (usedAndDefined b).2 ↔ Defines b v := mem_scan.1

theorem mem_phiOperandsFrom {f : Function} {s p : BlockId} :
    v ∈ phiOperandsFrom f s p ↔ ∃ blk, f.block s = some blk ∧ PhiReads blk p v := by
  unfold phiOperandsFrom
  cases hb : f.block s with
  | none => simp
  | some blk =>
    simp only [List.mem_filterMap, Option.some.injEq, exists_eq_left']
    refine exists_congr fun i => and_congr_right fun _ => ?_
    cases i.kind <;> simp

end Sets

/-! ### One block of a sweep -/

section Sweep

variable {f : Function} {defs : Defs} {b c : BasicBlock} {v : ValueId} {l : Liveness} {st st' : Sweep}

/-- The set that flows out of a block. -/
theorem flowOut_ok (liveIn : BlockId → ValueSet) {succs : List BlockId} (p : BlockId)
    (acc : ValueSet) (hs : ∀ s ∈ succs, (f.block s).isSome) : ∃ out,
      succs.foldlM (fun out succ => do
        let inSucc ← Comp.expect .liveInMissing
          (if (f.block succ).isSome then some (liveIn succ) else none)
        return (out ∪ inSucc) ∪ phiOperandsFrom f succ p) acc = (.ok out : CodegenM ValueSet) ∧
      ∀ v, v ∈ out ↔ v ∈ acc ∨
        ∃ s ∈ succs, v ∈ liveIn s ∨ ∃ blk, f.block s = some blk ∧ PhiReads blk p v := by
  induction succs generalizing acc with
  | nil => exact ⟨acc, rfl, by simp⟩
  | cons s succs ih =>
    obtain ⟨out, hok, hmem⟩ := ih ((acc ∪ liveIn s) ∪ phiOperandsFrom f s p)
      fun t ht => hs t (List.mem_cons_of_mem _ ht)
    refine ⟨out, ?_, fun v => ?_⟩
    · rw [List.foldlM_cons, if_pos (hs s List.mem_cons_self)]
      exact hok
    · rw [hmem, List.mem_union_iff, List.mem_union_iff, mem_phiOperandsFrom, List.exists_mem_cons_iff,
        or_assoc, or_assoc, or_assoc]

/-- The sets of `b` after its part of a sweep are those its equations give, and the other sets
stay. -/
structure Updated (f : Function) (b : BasicBlock) (st st' : Sweep) : Prop where
  out : ∀ v, v ∈ st'.liveness.liveOut b.id ↔ Flow f st.liveness.liveIn b v
  live : ∀ v, v ∈ st'.liveness.liveIn b.id ↔
    Exposed b v ∨ Flow f st.liveness.liveIn b v ∧ ¬ Defines b v
  other : ∀ c, c ≠ b.id → st'.liveness.liveIn c = st.liveness.liveIn c ∧
    st'.liveness.liveOut c = st.liveness.liveOut c
  /-- Nothing is said to have changed unless one of the two sets has. -/
  changed : st' = st ∨ st'.changed = true ∧
    ((∃ v, ¬ (v ∈ st'.liveness.liveOut b.id ↔ v ∈ st.liveness.liveOut b.id)) ∨
      ∃ v, ¬ (v ∈ st'.liveness.liveIn b.id ↔ v ∈ st.liveness.liveIn b.id))

theorem succsOf_eq (hv : Validated f defs) (hb : b ∈ f.blocks) : succsOf f b.id = b.successors := by
  obtain ⟨t, ht, -⟩ := hv.term b hb
  unfold succsOf
  have hfind : f.blocks.reverse.find? (fun c => c.id == b.id && c.terminator.isSome) = some b := by
    refine (List.find?_eq_some_iff_append.mpr ?_)
    obtain ⟨before, after, hsplit⟩ := List.append_of_mem (List.mem_reverse.mpr hb)
    refine ⟨by simp [ht], before, after, hsplit, fun c hc => ?_⟩
    have hnd : (f.blocks.reverse.map (·.id)).Nodup := by
      rw [List.map_reverse, List.nodup_reverse]
      exact hv.nodup
    rw [hsplit, List.map_append, List.nodup_append] at hnd
    have hne : c.id ≠ b.id :=
      hnd.2.2 c.id (List.mem_map_of_mem hc) b.id (by simp)
    simp [hne]
  rw [hfind]

theorem sweepBlock_ok (hv : Validated f defs) (hb : b ∈ f.blocks) (st : Sweep) :
    ∃ st', sweepBlock f st b = .ok st' ∧ Updated f b st st' := by
  obtain ⟨out, hout, hmem⟩ := flowOut_ok (f := f) st.liveness.liveIn b.id []
    fun s hs => hv.succ_isSome hb hs
  have hflow : flowOut f st.liveness.liveIn b.id = .ok out := by
    unfold flowOut
    rw [succsOf_eq hv hb]
    exact hout
  have hmem' : ∀ v, v ∈ out ↔ Flow f st.liveness.liveIn b v := fun v =>
    (hmem v).trans (or_iff_right List.not_mem_nil)
  have hnew : ∀ v, v ∈ (usedAndDefined b).1 ∪ out.filter (· ∉ (usedAndDefined b).2) ↔
      Exposed b v ∨ Flow f st.liveness.liveIn b v ∧ ¬ Defines b v := by
    intro v
    rw [List.mem_union_iff, mem_used, List.mem_filter, hmem', decide_eq_true_eq, mem_defined]
  unfold sweepBlock usedAndDefinedInBlock
  rw [Function.block_of_mem hv.nodup hb]
  simp only [Comp.expect_some, ok_bind, pure_eq_ok, hflow]
  generalize (usedAndDefined b).1 ∪ out.filter (· ∉ (usedAndDefined b).2) = newIn at hnew ⊢
  -- a set that is not the same as before differs in a member
  have hdiff : ∀ {s t : ValueSet}, s.sameAs t = false → ∃ v, ¬ (v ∈ s ↔ v ∈ t) := by
    intro s t hst
    by_contra hn
    have := sameAs_iff.mpr (not_exists_not.mp hn)
    rw [hst] at this
    cases this
  cases hso : out.sameAs (st.liveness.liveOut b.id) with
  | true =>
    have ho := fun v => (sameAs_iff.mp hso v).symm.trans (hmem' v)
    simp only [if_true]
    cases hsi : newIn.sameAs (st.liveness.liveIn b.id) with
    | true =>
      exact ⟨st, rfl, ho, fun v => (sameAs_iff.mp hsi v).symm.trans (hnew v),
        fun _ _ => ⟨rfl, rfl⟩, .inl rfl⟩
    | false =>
      exact ⟨_, rfl, ho, by simpa [setAt] using hnew, fun c hc => ⟨by simp [setAt, hc], rfl⟩,
        .inr ⟨rfl, .inr (by simpa only [setAt, if_true] using hdiff hsi)⟩⟩
  | false =>
    simp only [Bool.false_eq_true, if_false]
    cases hsi : newIn.sameAs (st.liveness.liveIn b.id) with
    | true =>
      exact ⟨_, rfl, by simpa [setAt] using hmem',
        fun v => (sameAs_iff.mp hsi v).symm.trans (hnew v), fun c hc => ⟨rfl, by simp [setAt, hc]⟩,
        .inr ⟨rfl, .inl (by simpa only [setAt, if_true] using hdiff hso)⟩⟩
    | false =>
      exact ⟨_, rfl, by simpa [setAt] using hmem', by simpa [setAt] using hnew,
        fun c hc => ⟨by simp [setAt, hc], by simp [setAt, hc]⟩,
        .inr ⟨rfl, .inl (by simpa only [setAt, if_true] using hdiff hso)⟩⟩

/-! ### The loop -/

/-- The sets are no larger than their equations say, and whatever is in them has a path. -/
structure Rising (f : Function) (l : Liveness) : Prop where
  out : ∀ b ∈ f.blocks, ∀ v ∈ l.liveOut b.id, Flow f l.liveIn b v
  live : ∀ b ∈ f.blocks, ∀ v ∈ l.liveIn b.id, Exposed b v ∨ Flow f l.liveIn b v ∧ ¬ Defines b v
  path : ∀ b ∈ f.blocks, ∀ v ∈ l.liveIn b.id,
    Exposed b v ∨ (∃ path, LiveAlong f v b.id path) ∧ ¬ Defines b v

theorem edge_of_mem (hv : Validated f defs) (hb : b ∈ f.blocks) {s : BlockId} (hs : s ∈ b.successors) :
    f.Edge b.id s := ⟨b, Function.block_of_mem hv.nodup hb, hs⟩

/-- What flows into the end of a block has a path. -/
theorem Rising.flow_path (h : Rising f l) (hv : Validated f defs) (hb : b ∈ f.blocks)
    (hflow : Flow f l.liveIn b v) : ∃ path, LiveAlong f v b.id path := by
  obtain ⟨s, hs, hlive⟩ := hflow
  have hedge := edge_of_mem hv hb hs
  rcases hlive with hin | ⟨blk, hblk, hphi⟩
  · obtain ⟨blk, hblk⟩ := Option.isSome_iff_exists.mp (hv.succ_isSome hb hs)
    obtain ⟨hmem, rfl⟩ := Function.block_some hblk
    rcases h.path blk hmem v hin with hexp | ⟨⟨path, hpath⟩, hdef⟩
    · exact ⟨[blk.id], hedge, blk, hblk, .inl hexp⟩
    · cases path with
      | nil => exact hpath.elim
      | cons t rest => exact ⟨blk.id :: t :: rest, hedge, ⟨blk, hblk, hdef⟩, hpath⟩
  · exact ⟨[s], hedge, blk, hblk, .inr hphi⟩

theorem Flow.mono {liveIn liveIn' : BlockId → ValueSet} (h : Flow f liveIn b v)
    (hle : ∀ s, liveIn s ⊆ liveIn' s) : Flow f liveIn' b v := by
  obtain ⟨s, hs, hv⟩ := h
  exact ⟨s, hs, hv.imp_left fun hin => hle s hin⟩

/-- The sets only grow. -/
theorem Updated.grows (hu : Updated f b st st') (hr : Rising f st.liveness) (hb : b ∈ f.blocks)
    (s : BlockId) : st.liveness.liveIn s ⊆ st'.liveness.liveIn s ∧
      st.liveness.liveOut s ⊆ st'.liveness.liveOut s := by
  by_cases hs : s = b.id
  · subst hs
    exact ⟨fun v hv => (hu.live v).mpr (hr.live b hb v hv), fun v hv => (hu.out v).mpr (hr.out b hb v hv)⟩
  · obtain ⟨hin, hout⟩ := hu.other s hs
    rw [hin, hout]
    exact ⟨fun _ h => h, fun _ h => h⟩

theorem Updated.rising (hu : Updated f b st st') (hv : Validated f defs) (hr : Rising f st.liveness)
    (hb : b ∈ f.blocks) : Rising f st'.liveness := by
  have hle := fun s => (hu.grows hr hb s).1
  have hid : ∀ c ∈ f.blocks, c.id = b.id → c = b := fun c hc he =>
    List.inj_on_of_nodup_map hv.nodup hc hb he
  refine ⟨fun c hc v hm => ?_, fun c hc v hm => ?_, fun c hc v hm => ?_⟩
  · by_cases hcb : c.id = b.id
    · obtain rfl := hid c hc hcb
      exact ((hu.out v).mp hm).mono hle
    · rw [(hu.other c.id hcb).2] at hm
      exact (hr.out c hc v hm).mono hle
  · by_cases hcb : c.id = b.id
    · obtain rfl := hid c hc hcb
      exact ((hu.live v).mp hm).imp_right fun h => ⟨h.1.mono hle, h.2⟩
    · rw [(hu.other c.id hcb).1] at hm
      exact (hr.live c hc v hm).imp_right fun h => ⟨h.1.mono hle, h.2⟩
  · by_cases hcb : c.id = b.id
    · obtain rfl := hid c hc hcb
      exact ((hu.live v).mp hm).imp_right fun h => ⟨hr.flow_path hv hb h.1, h.2⟩
    · rw [(hu.other c.id hcb).1] at hm
      exact hr.path c hc v hm

/-- The number of values in all sets. -/
def total (f : Function) (l : Liveness) : ℕ :=
  (f.blocks.map fun b => (l.liveIn b.id).toFinset.card + (l.liveOut b.id).toFinset.card).sum

theorem card_le {s t : ValueSet} (h : s ⊆ t) : s.toFinset.card ≤ t.toFinset.card :=
  Finset.card_le_card fun _ hv => List.mem_toFinset.mpr (h (List.mem_toFinset.mp hv))

theorem card_lt {s t : ValueSet} (h : s ⊆ t) (hne : ∃ v, ¬ (v ∈ t ↔ v ∈ s)) :
    s.toFinset.card < t.toFinset.card := by
  obtain ⟨v, hv⟩ := hne
  obtain ⟨hvt, hvs⟩ : v ∈ t ∧ v ∉ s := by
    by_cases hs : v ∈ s
    · exact absurd ⟨fun _ => hs, fun _ => h hs⟩ hv
    · exact ⟨by_contra fun ht => hv ⟨fun h => absurd h ht, fun h => absurd h hs⟩, hs⟩
  refine Finset.card_lt_card ⟨fun w hw => List.mem_toFinset.mpr (h (List.mem_toFinset.mp hw)), fun hsub => ?_⟩
  exact hvs (List.mem_toFinset.mp (hsub (List.mem_toFinset.mpr hvt)))

theorem Updated.total_le (hu : Updated f b st st') (hr : Rising f st.liveness) (hb : b ∈ f.blocks) :
    total f st.liveness ≤ total f st'.liveness :=
  List.sum_le_sum fun c _ =>
    Nat.add_le_add (card_le (hu.grows hr hb c.id).1) (card_le (hu.grows hr hb c.id).2)

/-- An update that changes something adds to one of the sets. -/
theorem Updated.total_lt (hu : Updated f b st st') (hr : Rising f st.liveness) (hb : b ∈ f.blocks)
    (hne : st' ≠ st) : total f st.liveness < total f st'.liveness := by
  obtain ⟨-, hchanged⟩ := hu.changed.resolve_left hne
  obtain ⟨hin, hout⟩ := hu.grows hr hb b.id
  refine List.sum_lt_sum _ _ (fun c _ =>
    Nat.add_le_add (card_le (hu.grows hr hb c.id).1) (card_le (hu.grows hr hb c.id).2)) ⟨b, hb, ?_⟩
  rcases hchanged with h | h
  · exact Nat.add_lt_add_of_le_of_lt (card_le hin) (card_lt hout h)
  · exact Nat.add_lt_add_of_lt_of_le (card_lt hin h) (card_le hout)

/-- A sweep over some of the blocks. -/
theorem sweep_ok (hv : Validated f defs) (st : Sweep) {bs : List BasicBlock} (hbs : bs ⊆ f.blocks)
    (hr : Rising f st.liveness) : ∃ st', bs.foldlM (sweepBlock f) st = .ok st' ∧
      Rising f st'.liveness ∧
      ((st' = st ∧ ∀ b ∈ bs, Updated f b st st) ∨
        st'.changed = true ∧ total f st.liveness < total f st'.liveness) := by
  induction bs generalizing st with
  | nil => exact ⟨st, rfl, hr, .inl ⟨rfl, by simp⟩⟩
  | cons b bs ih =>
    have hb : b ∈ f.blocks := hbs List.mem_cons_self
    obtain ⟨st₁, hok₁, hu⟩ := sweepBlock_ok hv hb st
    obtain ⟨st', hok, hr', hrest⟩ := ih _ (fun c hc => hbs (List.mem_cons_of_mem _ hc)) (hu.rising hv hr hb)
    refine ⟨st', by rw [List.foldlM_cons, hok₁]; exact hok, hr', ?_⟩
    by_cases hsame : st₁ = st
    · subst hsame
      exact hrest.imp_left fun ⟨heq, hall⟩ => ⟨heq, List.forall_mem_cons.mpr ⟨hu, hall⟩⟩
    · have hlt := hu.total_lt hr hb hsame
      rcases hrest with ⟨rfl, -⟩ | ⟨hchanged, hlt'⟩
      · exact .inr ⟨(hu.changed.resolve_left hsame).1, hlt⟩
      · exact .inr ⟨hchanged, Nat.lt_trans hlt hlt'⟩

theorem mem_operandsOf (hb : b ∈ f.blocks) (h : Exposed b v) : v ∈ operandsOf f := by
  refine List.mem_flatMap.mpr ⟨b, hb, List.mem_append.mpr (h.imp ?_ And.left)⟩
  rintro ⟨before, i, after, heq, hi, -⟩
  refine List.mem_flatMap.mpr ⟨i, by rw [heq]; simp, ?_⟩
  cases hk : i.kind <;> rw [hk] at hi
  case phi => cases hi
  all_goals exact hi

theorem mem_operandsOf_phi (hb : b ∈ f.blocks) {p : BlockId} (h : PhiReads b p v) : v ∈ operandsOf f := by
  obtain ⟨i, hi, incoming, hk, hfind⟩ := h
  obtain ⟨e, he, rfl⟩ := Option.map_eq_some_iff.mp hfind
  refine List.mem_flatMap.mpr ⟨b, hb, List.mem_append_left _ (List.mem_flatMap.mpr ⟨i, hi, ?_⟩)⟩
  rw [hk]
  exact List.mem_map_of_mem (List.mem_of_find?_eq_some he)

/-- A path ends in a read. -/
theorem LiveAlong.mem_operandsOf {p : BlockId} {path : List BlockId} (h : LiveAlong f v p path) :
    v ∈ operandsOf f := by
  induction path generalizing p with
  | nil => exact h.elim
  | cons s rest ih =>
    cases rest with
    | nil =>
      obtain ⟨-, blk, hblk, hread⟩ := h
      have hmem := (Function.block_some hblk).1
      exact hread.elim (Codegen.mem_operandsOf hmem) (mem_operandsOf_phi hmem)
    | cons t rest => exact ih h.2.2

/-- No set holds more than the operands of the function. -/
theorem Rising.total_le (h : Rising f l) (hv : Validated f defs) :
    total f l ≤ 2 * f.blocks.length * (operandsOf f).length := by
  have hin : ∀ b ∈ f.blocks, l.liveIn b.id ⊆ operandsOf f := by
    intro b hb v hm
    rcases h.path b hb v hm with hexp | ⟨⟨path, hpath⟩, -⟩
    · exact mem_operandsOf hb hexp
    · exact hpath.mem_operandsOf
  have hout : ∀ b ∈ f.blocks, l.liveOut b.id ⊆ operandsOf f := by
    intro b hb v hm
    obtain ⟨path, hpath⟩ := h.flow_path hv hb (h.out b hb v hm)
    exact hpath.mem_operandsOf
  have hcard : ∀ {s : ValueSet}, s ⊆ operandsOf f → s.toFinset.card ≤ (operandsOf f).length :=
    fun hs => Nat.le_trans (card_le hs) (List.toFinset_card_le _)
  calc
    total f l ≤ (f.blocks.map fun _ => 2 * (operandsOf f).length).sum := by
      refine List.sum_le_sum fun b hb => ?_
      have := hcard (hin b hb)
      have := hcard (hout b hb)
      omega
    _ = 2 * f.blocks.length * (operandsOf f).length := by
      rw [List.map_const', List.sum_replicate, nsmul_eq_mul, Nat.cast_id]
      exact (Nat.mul_left_comm _ _ _).trans (Nat.mul_assoc _ _ _).symm

/-- The loop ends, and then every block's equations hold. -/
theorem analyzeLoop_ok (hv : Validated f defs) {n : ℕ} (hr : Rising f l)
    (hn : 2 * f.blocks.length * (operandsOf f).length < total f l + n) :
    ∃ l', analyzeLoop f n l = .ok l' ∧ Rising f l' ∧ ∀ b ∈ f.blocks, Updated f b ⟨l', false⟩ ⟨l', false⟩ := by
  induction n generalizing l with
  | zero =>
    have := hr.total_le hv
    omega
  | succ n ih =>
    obtain ⟨st', hok, hr', hcases⟩ := sweep_ok hv ⟨l, false⟩ (List.Subset.refl _) hr
    rw [analyzeLoop, hok]
    rcases hcases with ⟨rfl, hall⟩ | ⟨hchanged, hlt⟩
    · exact ⟨l, rfl, hr, hall⟩
    · obtain ⟨l', hok', h'⟩ := ih hr' (by
        have : total f l < total f st'.liveness := hlt
        omega)
      refine ⟨l', ?_, h'⟩
      show (if st'.changed = true then _ else _) = _
      rw [if_pos hchanged]
      exact hok'

end Sweep

/-- A path to a read keeps the value in the sets along it. -/
theorem flow_of_liveAlong {f : Function} {defs : Defs} {l : Liveness} {v : ValueId}
    (hv : Validated f defs) (hall : ∀ b ∈ f.blocks, Updated f b ⟨l, false⟩ ⟨l, false⟩)
    {b : BasicBlock} (hb : b ∈ f.blocks) {path : List BlockId} (h : LiveAlong f v b.id path) :
    Flow f l.liveIn b v := by
  have hsucc : ∀ {c : BasicBlock} {s : BlockId}, c ∈ f.blocks → f.Edge c.id s → s ∈ c.successors := by
    rintro c s hc ⟨blk, hblk, hs⟩
    rw [Function.block_of_mem hv.nodup hc] at hblk
    exact Option.some.inj hblk ▸ hs
  induction path generalizing b with
  | nil => exact h.elim
  | cons s rest ih =>
    cases rest with
    | nil =>
      obtain ⟨hedge, blk, hblk, hread⟩ := h
      obtain ⟨hmem, rfl⟩ := Function.block_some hblk
      refine ⟨blk.id, hsucc hb hedge, hread.imp (fun hexp => ?_) fun hphi => ⟨blk, hblk, hphi⟩⟩
      exact ((hall blk hmem).live v).mpr (.inl hexp)
    | cons t rest =>
      obtain ⟨hedge, ⟨blk, hblk, hdef⟩, hrest⟩ := h
      obtain ⟨hmem, rfl⟩ := Function.block_some hblk
      exact ⟨blk.id, hsucc hb hedge, .inl (((hall blk hmem).live v).mpr (.inr ⟨ih hmem hrest, hdef⟩))⟩

/-- The analysis ends, with the sets that the paths give. -/
theorem analyze_valid {f : Function} {defs : Defs} (hv : Validated f defs) :
    ∃ l, analyze f = .ok l ∧ LivenessExact f l := by
  have hstart : Rising f ⟨fun _ => [], fun _ => []⟩ := by
    refine ⟨fun b _ v hm => ?_, fun b _ v hm => ?_, fun b _ v hm => ?_⟩ <;> cases hm
  obtain ⟨l, hl, hr, hall⟩ := analyzeLoop_ok hv hstart (Nat.lt_of_lt_of_le (Nat.lt_succ_self _) (Nat.le_add_left _ _))
  refine ⟨l, hl, fun b hb v => ⟨fun hm => ?_, fun ⟨path, hpath⟩ => ?_⟩, fun b hb v => ?_⟩
  · exact hr.flow_path hv hb (hr.out b hb v hm)
  · exact ((hall b hb).out v).mpr (flow_of_liveAlong hv hall hb hpath)
  · rw [(hall b hb).out v]
    exact (hall b hb).live v

/-- **Liveness is exact.** On a validated function `analyze` ends, and its sets hold the values
that a path leads to a read of. -/
theorem analyze_exact {f : Function} (hok : validateFunction f = .ok ()) :
    ∃ l, analyze f = .ok l ∧ LivenessExact f l := by
  obtain ⟨defs, hv⟩ := validateFunction_ok_iff.mp hok
  exact analyze_valid hv

/-- `i = 0; while i < n { i = i + 1; } return i;` -/
def countUp : Function where
  name := "count"
  params := [("n", .i64)]
  retTy := some .i64
  blocks := [⟨0, [⟨1, .i64, .constI64 0⟩], some (.jump 1)⟩,
    ⟨1, [⟨2, .i64, .phi [(0, 1), (2, 5)]⟩, ⟨3, .bool, .bin .cmpLt 2 0⟩], some (.branch 3 2 3)⟩,
    ⟨2, [⟨4, .i64, .constI64 1⟩, ⟨5, .i64, .bin .add 2 4⟩], some (.jump 1)⟩,
    ⟨3, [], some (.ret (some 2))⟩]
  entry := 0

theorem analyze_exact_countUp : ∃ l, analyze countUp = .ok l ∧ LivenessExact countUp l :=
  analyze_exact rfl

end Codegen
end Chakobsa
