import Chakobsa.Parser.BuilderSeal
import Chakobsa.Ir.PhiResolution

/-!
# What a value denotes along a path

A path semantics for a finished function. Along a walk from the entry, `env` says what each value
denotes and `store` what was last written to each variable. Entering a block over an edge resolves
the phis that reads have created there by the edge taken; an emitted instruction denotes something
fresh each time it is executed; a write stores what the value written denotes at that moment.

`readDenotes` is the result: where a variable is read, the value the builder returned denotes what
was last written to the variable. The induction on the walk carries `PathInv`: whatever has been
defined on the way denotes something, whatever has been written is stored, and the definition of a
variable that the builder has found denotes what is stored.
-/

namespace Chakobsa
namespace Parser

open Ir

/-- What values denote and variables hold at a point of a path. -/
structure PathState (α : Type) where
  env : ValueId → Option α
  store : String → Option α

/-- The phis of a block that reads have created: its instructions that were not emitted. -/
def readPhis (f : Function) (log : BlockId → List Event) (b : BlockId) : List Instruction :=
  (f.instsAt b).filter fun i => i ∉ instsOf (log b)

/-- The incoming list of a phi. -/
def incomingOf : InstKind → List (BlockId × ValueId)
  | .phi incoming => incoming
  | _ => []

section Semantics

variable {α : Type} (f : Function) (log : BlockId → List Event) (fresh : List BlockId → ValueId → α)

/-- Entering `b` from `p`: the phis created by reads take the value of their operand for `p`. -/
def enter (p b : BlockId) (st : PathState α) : PathState α :=
  { st with env := fun v =>
      match (readPhis f log b).find? fun i => i.id == v with
      | some i => ((incomingOf i.kind).find? fun e => e.1 == p).bind fun e => st.env e.2
      | none => st.env v }

/-- One event in `b`, reached by the walk `π`. -/
def execEvent (π : List BlockId) (b : BlockId) (st : PathState α) : Event → PathState α
  | .inst i => { st with env := insertAt st.env i.id (some (fresh (b :: π) i.id)) }
  | .write x v => { st with store := insertAt st.store x (st.env v) }
  | .read _ _ _ => st

/-- At the start only parameters denote something, and nothing has been written. -/
def pathStart : PathState α :=
  ⟨fun v => if v < f.params.length then some (fresh [] v) else none, fun _ => none⟩

/-- The state on arrival in a block at the end of a walk. -/
def atEntry : List BlockId → BlockId → PathState α
  | [], _ => pathStart f fresh
  | p :: π, b => enter f log p b ((log p).foldl (execEvent fresh π p) (atEntry π p))

/-- The state in a block after the events `l`. -/
def afterEvents (π : List BlockId) (b : BlockId) (l : List Event) : PathState α :=
  l.foldl (execEvent fresh π b) (atEntry f log fresh π b)

end Semantics

section Conditions

variable (f : Function) (log : BlockId → List Event)

/-- `x` has been written on the walk `π` to `b` or by the events `l` in `b`. -/
def Written (π : List BlockId) (l : List Event) (x : String) : Prop :=
  (∃ w, Event.write x w ∈ l) ∨ ∃ c ∈ π, ∃ w, Event.write x w ∈ log c

/-- `v` has been defined on the walk `π` to `b` or by the events `l` in `b`: it is a parameter, an
instruction of a block on the way, a phi that `b` starts with, or emitted in `b`. -/
def Available (π : List BlockId) (b : BlockId) (l : List Event) (v : ValueId) : Prop :=
  v < f.params.length ∨ (∃ c ∈ π, ∃ i ∈ f.instsAt c, i.id = v) ∨
    ∃ i ∈ f.instsAt b, i.id = v ∧ (i ∈ instsOf (log b) → i ∈ instsOf l)

/-- A variable is read only where every path from the entry has written it. -/
def ReadsAssigned : Prop :=
  ∀ π b, f.Walk π b → ∀ l x v ty r, log b = l ++ .read x v ty :: r → Written log π l x

/-- A value is written only where it is defined on every path from the entry. -/
def WritesAvailable : Prop :=
  ∀ π b, f.Walk π b → ∀ l x w r, log b = l ++ .write x w :: r → Available f log π b l w

end Conditions

section Paths

variable {g : Ghost} {π : List BlockId} {b p : BlockId} {x : String} {v : ValueId} {l : List Event}

/-- The edges of the function are the recorded ones. -/
theorem Ghost.Exact.edge_iff (h : g.Exact) : g.builder.func.Edge p b ↔ p ∈ g.builder.preds b := by
  have hidx := h.ok.graph.indexed
  rw [(h.preds b).mem_iff, hidx.mem_predecessors]
  unfold Function.Edge
  constructor
  · rintro ⟨blk, hblk, hs⟩
    obtain ⟨hlt, rfl⟩ := hidx.block_some_iff.mp hblk
    exact ⟨hlt, hs⟩
  · rintro ⟨hlt, hs⟩
    exact ⟨_, hidx.block_some_iff.mpr ⟨hlt, rfl⟩, hs⟩

theorem Ghost.Exact.walk_nil (h : g.Exact) (hw : g.builder.func.Walk [] b) : b = 0 := by
  cases hw
  exact h.ok.graph.entry

theorem Ghost.Exact.walk_cons (h : g.Exact) (hw : g.builder.func.Walk (p :: π) b) :
    g.builder.func.Walk π p ∧ p ∈ g.builder.preds b := by
  cases hw with
  | step hw he => exact ⟨hw, h.edge_iff.mp he⟩

/-- What has been written before an extension of the events is written after it. -/
theorem Written.mono {log : BlockId → List Event} {l' : List Event} (h : Written log π l x)
    (hsub : l ⊆ l') : Written log π l' x :=
  h.imp_left fun ⟨w, hw⟩ => ⟨w, hsub hw⟩

theorem Available.mono {f : Function} {log : BlockId → List Event} {l' : List Event}
    (h : Available f log π b l v) (hsub : instsOf l ⊆ instsOf l') : Available f log π b l' v :=
  h.imp_right fun h => h.imp_right fun ⟨i, hi, hid, hl⟩ => ⟨i, hi, hid, fun hm => hsub (hl hm)⟩

/-- What is available at the end of a block is available after an edge. -/
theorem Available.step {f : Function} {log : BlockId → List Event}
    (h : Available f log π p (log p) v) : Available f log (p :: π) b l v := by
  rcases h with h | ⟨c, hc, hi⟩ | ⟨i, hi, hid, -⟩
  · exact .inl h
  · exact .inr (.inl ⟨c, List.mem_cons_of_mem _ hc, hi⟩)
  · exact .inr (.inl ⟨p, List.mem_cons_self, i, hi, hid⟩)

/-- The phis created by reads are the instructions that were not emitted. -/
theorem mem_readPhis {i : Instruction} {f : Function} {log : BlockId → List Event} :
    i ∈ readPhis f log b ↔ i ∈ f.instsAt b ∧ i ∉ instsOf (log b) := by
  simp [readPhis]

/-- The last write is a write. -/
theorem mem_of_lastWrite (h : lastWrite x l = some v) :
    ∃ l₁ l₂, l = l₁ ++ .write x v :: l₂ := by
  induction l with
  | nil => simp [lastWrite] at h
  | cons e l ih =>
    cases hl : lastWrite x l with
    | some u =>
      obtain ⟨l₁, l₂, rfl⟩ := ih (by cases e <;> simp_all [lastWrite])
      exact ⟨e :: l₁, l₂, rfl⟩
    | none =>
      cases e with
      | write y w =>
        obtain ⟨rfl, rfl⟩ : y = x ∧ w = v := by
          by_cases hy : y = x <;> simp_all [lastWrite]
        exact ⟨[], l, rfl⟩
      | inst i => simp [lastWrite, hl] at h
      | read y w ty => simp [lastWrite, hl] at h

theorem lastWrite_eq_none (h : lastWrite x l = none) (w : ValueId) : Event.write x w ∉ l := by
  induction l with
  | nil => simp
  | cons e l ih =>
    intro hm
    rcases List.mem_cons.mp hm with rfl | hm
    · simp [lastWrite] at h
    · exact ih (by cases e <;> simp_all [lastWrite]) hm

/-- Every block is sealed. -/
def Ghost.AllSealed (g : Ghost) : Prop := ∀ b < g.size, g.builder.isSealed b = true

section Final

variable (h : g.Exact) (hall : g.AllSealed)
include h hall

/-- The phi of an entry definition has its operands. -/
theorem Ghost.Exact.phi_matches (hd : g.entryDef b x = some (.phi v)) :
    ∃ i ∈ g.builder.func.instsAt b, i.id = v ∧ i ∉ instsOf (g.log b) ∧
      ∃ incoming, i.kind = .phi incoming ∧ PhiMatches g b x incoming := by
  obtain ⟨i, hi, hid, hlog, incoming, hk, hs⟩ := h.ok.entries.phi b x v hd
  refine ⟨i, hi, hid, hlog, incoming, hk, ?_⟩
  rcases hs with ⟨hs | hs, -⟩ | ⟨-, hm⟩
  · have := (h.ok.entries.incomplete b x v hs).2
    simp [hall b (h.ok.lt_of_entryDef hd)] at this
  · exact hs.elim
  · exact hm

omit h hall in
/-- The operand of a phi for an edge is the definition at the end of the predecessor. -/
theorem PhiMatches.find {incoming : List (BlockId × ValueId)} (hm : PhiMatches g b x incoming)
    (hp : p ∈ g.builder.preds b) :
    ∃ w, incoming.find? (fun e => e.1 == p) = some (p, w) ∧ g.outDef p x = some w := by
  unfold PhiMatches at hm
  revert hp hm
  generalize g.builder.preds b = ps
  intro hm hp
  induction hm with
  | nil => simp at hp
  | @cons q e ps es he hes ih =>
    obtain ⟨rfl, hd⟩ := he
    by_cases hq : e.1 = p
    · subst hq
      exact ⟨e.2, by simp, hd⟩
    · rw [List.find?_cons_of_neg (by simpa using hq)]
      exact ih ((List.mem_cons.mp hp).resolve_left (Ne.symm hq))

/-- The definition of a variable is available. -/
theorem Ghost.Exact.defAfter_available (hwrites : WritesAvailable g.builder.func g.log)
    (hw : g.builder.func.Walk π b) {r : List Event} (hl : g.log b = l ++ r)
    (hd : defAfter (g.entryDef b) l x = some v) :
    Available g.builder.func g.log π b l v := by
  induction π generalizing b l r v with
  | nil =>
    rw [defAfter, Option.or_eq_some_iff] at hd
    rcases hd with hd | ⟨-, hd⟩
    · obtain ⟨l₁, l₂, rfl⟩ := mem_of_lastWrite hd
      exact (hwrites [] b hw l₁ x v (l₂ ++ r) (by simpa using hl)).mono (by simp)
    · obtain ⟨d, hentry, rfl⟩ := Option.map_eq_some_iff.mp hd
      cases d with
      | phi u =>
        obtain ⟨i, hi, hid, hlog, -⟩ := h.phi_matches hall hentry
        exact .inr (.inr ⟨i, hi, hid, fun hm => absurd hm hlog⟩)
      | copy u =>
        obtain ⟨-, p, hp, -⟩ := h.ok.entries.copy b x u hentry
        rw [h.walk_nil hw, h.ok.graph.entryPreds] at hp
        simp at hp
  | cons q π ih =>
    rw [defAfter, Option.or_eq_some_iff] at hd
    rcases hd with hd | ⟨-, hd⟩
    · obtain ⟨l₁, l₂, rfl⟩ := mem_of_lastWrite hd
      exact (hwrites _ b hw l₁ x v (l₂ ++ r) (by simpa using hl)).mono (by simp)
    · obtain ⟨d, hentry, rfl⟩ := Option.map_eq_some_iff.mp hd
      cases d with
      | phi u =>
        obtain ⟨i, hi, hid, hlog, -⟩ := h.phi_matches hall hentry
        exact .inr (.inr ⟨i, hi, hid, fun hm => absurd hm hlog⟩)
      | copy u =>
        obtain ⟨hwq, hq⟩ := h.walk_cons hw
        obtain ⟨-, p, hp, ho⟩ := h.ok.entries.copy b x u hentry
        obtain rfl : q = p := by simpa [hp] using hq
        exact (ih (r := []) hwq (by simp) ho).step

omit hall in
/-- A demanded variable has been written on every walk to the block. -/
theorem Ghost.Exact.demanded_written (hreads : ReadsAssigned g.builder.func g.log) {ty : Ty}
    (hd : Demanded g x ty b) (hw : g.builder.func.Walk π b) :
    ∃ c ∈ π, ∃ w, Event.write x w ∈ g.log c := by
  induction hd generalizing π with
  | @read b l r v hl hnone =>
    rcases hreads π b hw l x v ty r hl with ⟨w, hm⟩ | hm
    · exact absurd hm (lastWrite_eq_none hnone w)
    · exact hm
  | @pred c p _ hp hnone ih =>
    obtain ⟨d, hd, w, hm⟩ := ih (.step hw (h.edge_iff.mpr hp))
    rcases List.mem_cons.mp hd with rfl | hd
    · exact absurd hm (lastWrite_eq_none hnone w)
    · exact ⟨d, hd, w, hm⟩

omit hall in
/-- In a block with one predecessor no value that is available at the end of that predecessor is
defined. -/
theorem Ghost.Exact.not_defined_after (hp : g.builder.preds b = [p]) (hreach : ∃ π, g.builder.func.Walk π b)
    (hav : ∀ π, g.builder.func.Walk π p → Available g.builder.func g.log π p (g.log p) v) :
    ∀ i ∈ g.builder.func.instsAt b, i.id ≠ v := by
  rintro i hi rfl
  obtain ⟨π, hw⟩ := hreach
  obtain ⟨π, hw, hnd⟩ := hw.nodup
  cases π with
  | nil =>
    rw [h.walk_nil hw, h.ok.graph.entryPreds] at hp
    simp at hp
  | cons q π =>
    obtain ⟨hwq, hq⟩ := h.walk_cons hw
    obtain rfl : q = p := by simpa [hp] using hq
    have hnot := (List.nodup_cons.mp hnd).1
    rcases hav π hwq with hlt | ⟨c, hc, j, hj, hid⟩ | ⟨j, hj, hid, -⟩
    · exact absurd hlt (Nat.not_lt.mpr (h.ok.values.ids b i hi).1)
    · exact hnot (List.mem_cons_of_mem _ (h.ok.values.block c b j hj i hi hid ▸ hc))
    · exact hnot (h.ok.values.block q b j hj i hi hid ▸ List.mem_cons_self)

omit hall in
/-- An instruction of `b` that is emitted later is not available on a first visit to `b`. -/
theorem Ghost.Exact.not_available {i : Instruction} {r : List Event}
    (hreach : ∃ π, g.builder.func.Walk π b) (hl : g.log b = l ++ .inst i :: r)
    (hav : ∀ π, g.builder.func.Walk π b → Available g.builder.func g.log π b l v) : v ≠ i.id := by
  rintro rfl
  have hmem : i ∈ g.builder.func.instsAt b :=
    h.ok.logs.emitted b i (mem_instsOf.mpr (by rw [hl]; simp))
  obtain ⟨π, hw⟩ := hreach
  obtain ⟨π, hw, hnd⟩ := hw.nodup
  rcases hav π hw with hlt | ⟨c, hc, j, hj, hid⟩ | ⟨j, hj, hid, hlog⟩
  · exact absurd hlt (Nat.not_lt.mpr (h.ok.values.ids b i hmem).1)
  · exact (List.nodup_cons.mp hnd).1 (h.ok.values.block c b j hj i hmem hid ▸ hc)
  · obtain rfl := List.inj_on_of_nodup_map (h.ok.values.nodup b) hj hmem hid
    have hnd := h.ok.logs.nodup b
    rw [hl, instsOf_append, List.nodup_append] at hnd
    exact hnd.2.2 j (hlog (mem_instsOf.mpr (by rw [hl]; simp))) j (mem_instsOf.mpr (by simp)) rfl

/-- The definition of a variable is not an instruction that is emitted later in the block. -/
theorem Ghost.Exact.defAfter_ne (hwrites : WritesAvailable g.builder.func g.log)
    {i : Instruction} {r : List Event} (hreach : ∃ π, g.builder.func.Walk π b)
    (hl : g.log b = l ++ .inst i :: r) (hd : defAfter (g.entryDef b) l x = some v) : v ≠ i.id :=
  h.not_available hreach hl fun _ hw => h.defAfter_available hall hwrites hw hl hd

end Final

/-! ### The invariant along a path -/

/-- What holds in a block after the events `l`. -/
structure PathInv {α : Type} (g : Ghost) (fresh : List BlockId → ValueId → α) (π : List BlockId)
    (b : BlockId) (l : List Event) : Prop where
  /-- What is available denotes something. -/
  defined : ∀ v, Available g.builder.func g.log π b l v →
    (afterEvents g.builder.func g.log fresh π b l).env v ≠ none
  /-- What has been written is stored. -/
  stored : ∀ x, Written g.log π l x →
    (afterEvents g.builder.func g.log fresh π b l).store x ≠ none
  /-- The definition of a variable denotes what is stored. -/
  agree : ∀ x v a, defAfter (g.entryDef b) l x = some v →
    (afterEvents g.builder.func g.log fresh π b l).store x = some a →
    (afterEvents g.builder.func g.log fresh π b l).env v = some a

section Invariant

variable {α : Type} {fresh : List BlockId → ValueId → α}

theorem afterEvents_snoc (f : Function) (log : BlockId → List Event) (e : Event) :
    afterEvents f log fresh π b (l ++ [e]) =
      execEvent fresh π b (afterEvents f log fresh π b l) e := by
  simp [afterEvents]

variable (h : g.Exact) (hall : g.AllSealed)
  (hreads : ReadsAssigned g.builder.func g.log)
  (hwrites : WritesAvailable g.builder.func g.log)
include h hall hreads hwrites

omit hreads in
/-- One event. -/
theorem PathInv.step {e : Event} {r : List Event} (hw : g.builder.func.Walk π b)
    (hl : g.log b = l ++ e :: r) (hi : PathInv g fresh π b l) :
    PathInv g fresh π b (l ++ [e]) := by
  cases e with
  | inst i =>
    refine ⟨fun v hv => ?_, fun x hx => ?_, fun x v a hd hs => ?_⟩ <;> rw [afterEvents_snoc] at *
    · show insertAt _ i.id _ v ≠ none
      unfold insertAt
      split
      · simp
      · next hne =>
        refine hi.defined v (hv.imp_right fun hv => hv.imp_right ?_)
        rintro ⟨j, hj, hid, hlog⟩
        refine ⟨j, hj, hid, fun hm => ?_⟩
        have := hlog hm
        rw [instsOf_append, List.mem_append] at this
        refine this.resolve_right fun hji => hne ?_
        rw [← hid, show j = i by simpa using hji]
    · refine hi.stored x (hx.imp_left ?_)
      rintro ⟨w, hm⟩
      exact ⟨w, by simpa using hm⟩
    · -- ids are fresh, so the value of no variable is overwritten
      rw [defAfter_snoc_inst] at hd
      show insertAt _ i.id _ v = some a
      rw [insertAt, if_neg (h.defAfter_ne hall hwrites ⟨π, hw⟩ hl hd)]
      exact hi.agree x v a hd hs
  | write y w =>
    refine ⟨fun v hv => ?_, fun x hx => ?_, fun x v a hd hs => ?_⟩ <;> rw [afterEvents_snoc] at *
    · exact hi.defined v (hv.mono (by simp))
    · show insertAt _ y _ x ≠ none
      unfold insertAt
      split
      · exact hi.defined w (hwrites π b hw l y w r hl)
      · next hne =>
        refine hi.stored x (hx.imp_left ?_)
        rintro ⟨u, hm⟩
        rcases List.mem_append.mp hm with hm | hm
        · exact ⟨u, hm⟩
        · simp [hne] at hm
    · -- the variable has the value written, both in the builder and on the path
      rw [defAfter_snoc_write] at hd
      change insertAt _ y _ x = some a at hs
      unfold insertAt at hs
      by_cases hyx : x = y
      · subst hyx
        rw [if_pos rfl] at hd hs
        exact Option.some.inj hd ▸ hs
      · rw [if_neg (Ne.symm hyx)] at hd
        rw [if_neg hyx] at hs
        exact hi.agree x v a hd hs
  | read y w ty =>
    refine ⟨fun v hv => ?_, fun x hx => ?_, fun x v a hd hs => ?_⟩ <;> rw [afterEvents_snoc] at *
    · exact hi.defined v (hv.mono (by simp))
    · refine hi.stored x (hx.imp_left ?_)
      rintro ⟨u, hm⟩
      exact ⟨u, by simpa using hm⟩
    · exact hi.agree x v a (by simpa using hd) hs

omit hreads in
/-- All events of a block. -/
theorem PathInv.events (hw : g.builder.func.Walk π b) (hi : PathInv g fresh π b []) {r : List Event}
    (hl : g.log b = l ++ r) : PathInv g fresh π b l := by
  induction l using List.reverseRecOn generalizing r with
  | nil => exact hi
  | append_singleton l e ih =>
    exact PathInv.step h hall hwrites hw (r := r) (by simpa using hl) (ih (by simpa using hl))

omit hreads hwrites in
/-- A phi created by a read has an operand for the edge taken, the definition at its end. -/
theorem Ghost.Exact.readPhi_find {i : Instruction} (hp : p ∈ g.builder.preds b)
    (hi : i ∈ readPhis g.builder.func g.log b) :
    ∃ x w, g.entryDef b x = some (.phi i.id) ∧ g.outDef p x = some w ∧
      (incomingOf i.kind).find? (fun e => e.1 == p) = some (p, w) := by
  obtain ⟨hmem, hlog⟩ := mem_readPhis.mp hi
  obtain ⟨x, hx⟩ := (h.ok.logs.phis b i hmem).resolve_left hlog
  obtain ⟨j, hj, hid, -, incoming, hk, hm⟩ := h.phi_matches hall hx
  obtain rfl := List.inj_on_of_nodup_map (h.ok.values.nodup b) hj hmem hid
  obtain ⟨w, hfind, hout⟩ := hm.find hp
  exact ⟨x, w, hx, hout, by rw [hk]; exact hfind⟩

omit hall hwrites in
/-- Nothing is defined in the entry block before its first event. -/
theorem Ghost.Exact.entry_empty (x : String) : g.entryDef 0 x = none := by
  by_contra hne
  obtain ⟨d, hd⟩ := Option.ne_none_iff_exists'.mp hne
  obtain ⟨ty, hdem, -⟩ := h.demand 0 x d hd
  obtain ⟨c, hc, -⟩ := h.demanded_written hreads hdem (π := [])
    (h.ok.graph.entry ▸ Walk.start)
  simp at hc

omit hall hwrites in
/-- The invariant holds at the start of the function. -/
theorem PathInv.start : PathInv g fresh [] 0 [] := by
  refine ⟨fun v hv => ?_, fun x hx => ?_, fun x v a _ hs => ?_⟩
  · rcases hv with hlt | ⟨c, hc, -⟩ | ⟨i, hi, rfl, hlog⟩
    · simp [afterEvents, atEntry, pathStart, hlt]
    · simp at hc
    · by_cases hm : i ∈ instsOf (g.log 0)
      · exact absurd (hlog hm) List.not_mem_nil
      · obtain ⟨x, hx⟩ := (h.ok.logs.phis 0 i hi).resolve_left hm
        rw [h.entry_empty hreads x] at hx
        cases hx
  · rcases hx with ⟨w, hm⟩ | ⟨c, hc, -⟩
    · simp at hm
    · simp at hc
  · simp [afterEvents, atEntry, pathStart] at hs

omit hreads in
/-- The invariant is kept along an edge. -/
theorem PathInv.enter (hw : g.builder.func.Walk (p :: π) b)
    (hi : PathInv g fresh π p (g.log p)) : PathInv g fresh (p :: π) b [] := by
  obtain ⟨hwp, hp⟩ := h.walk_cons hw
  have hlog : g.log p = g.log p ++ [] := by simp
  -- what an operand of a phi denotes
  have hphi : ∀ i ∈ readPhis g.builder.func g.log b, ∃ x w,
      g.entryDef b x = some (.phi i.id) ∧ g.outDef p x = some w ∧
      (afterEvents g.builder.func g.log fresh (p :: π) b []).env i.id =
        (afterEvents g.builder.func g.log fresh π p (g.log p)).env w := by
    intro i hmem
    obtain ⟨x, w, hx, hout, hfind⟩ := h.readPhi_find hall hp hmem
    refine ⟨x, w, hx, hout, ?_⟩
    have hsome : (readPhis g.builder.func g.log b).find? (fun j => j.id == i.id) = some i := by
      cases hf : (readPhis g.builder.func g.log b).find? fun j => j.id == i.id with
      | none => simpa using List.find?_eq_none.mp hf i hmem
      | some j =>
        have hj := mem_readPhis.mp (List.mem_of_find?_eq_some hf)
        have hid : j.id = i.id := by simpa using List.find?_some hf
        rw [List.inj_on_of_nodup_map (h.ok.values.nodup b) hj.1 (mem_readPhis.mp hmem).1 hid]
    show (match (readPhis g.builder.func g.log b).find? (fun j => j.id == i.id) with
      | some i => _
      | none => _) = _
    rw [hsome]
    simp only [hfind]
    rfl
  have hother : ∀ v, (∀ i ∈ readPhis g.builder.func g.log b, i.id ≠ v) →
      (afterEvents g.builder.func g.log fresh (p :: π) b []).env v =
        (afterEvents g.builder.func g.log fresh π p (g.log p)).env v := by
    intro v hv
    have hnone : (readPhis g.builder.func g.log b).find? (fun j => j.id == v) = none :=
      List.find?_eq_none.mpr fun i hmem => by simpa using hv i hmem
    show (match (readPhis g.builder.func g.log b).find? (fun j => j.id == v) with
      | some i => _
      | none => _) = _
    rw [hnone]
    rfl
  refine ⟨fun v hv => ?_, fun x hx => ?_, fun x v a hd hs => ?_⟩
  · by_cases hread : ∃ i ∈ readPhis g.builder.func g.log b, i.id = v
    · obtain ⟨i, hmem, rfl⟩ := hread
      obtain ⟨x, w, -, hout, heq⟩ := hphi i hmem
      rw [heq]
      exact hi.defined w (h.defAfter_available hall hwrites hwp hlog hout)
    · rw [hother v fun i hm he => hread ⟨i, hm, he⟩]
      refine hi.defined v ?_
      rcases hv with hlt | ⟨c, hc, i, hmem, hid⟩ | ⟨i, hmem, hid, hl⟩
      · exact .inl hlt
      · rcases List.mem_cons.mp hc with rfl | hc
        · exact .inr (.inr ⟨i, hmem, hid, id⟩)
        · exact .inr (.inl ⟨c, hc, i, hmem, hid⟩)
      · exact absurd ⟨i, mem_readPhis.mpr ⟨hmem, fun hm => absurd (hl hm) List.not_mem_nil⟩, hid⟩ hread
  · refine hi.stored x ?_
    rcases hx with ⟨w, hm⟩ | ⟨c, hc, w, hm⟩
    · simp at hm
    · rcases List.mem_cons.mp hc with rfl | hc
      · exact .inl ⟨w, hm⟩
      · exact .inr ⟨c, hc, w, hm⟩
  · change (afterEvents g.builder.func g.log fresh π p (g.log p)).store x = some a at hs
    obtain ⟨d, hentry, rfl⟩ := Option.map_eq_some_iff.mp (show (g.entryDef b x).map _ = some v by
      simpa [defAfter, lastWrite] using hd)
    cases d with
    | phi u =>
      obtain ⟨i, hmem, rfl, hl, -⟩ := h.phi_matches hall hentry
      obtain ⟨y, w, hy, hout, heq⟩ := hphi i (mem_readPhis.mpr ⟨hmem, hl⟩)
      obtain rfl := h.ok.entries.inj b x y i.id hentry hy
      exact heq.trans (hi.agree x w a hout hs)
    | copy u =>
      obtain ⟨-, q, hq, hout⟩ := h.ok.entries.copy b x u hentry
      obtain rfl : p = q := by simpa [hq] using hp
      have hne := h.not_defined_after hq ⟨_, hw⟩ fun π' hw' =>
        h.defAfter_available hall hwrites hw' hlog hout
      rw [show (EntryDef.copy u).val = u from rfl,
        hother u fun i hm => hne i (mem_readPhis.mp hm).1]
      exact hi.agree x u a hout hs

/-- The invariant holds on arrival at the end of every walk. -/
theorem PathInv.walk (hw : g.builder.func.Walk π b) : PathInv g fresh π b [] := by
  induction π generalizing b with
  | nil => exact h.walk_nil hw ▸ PathInv.start h hreads
  | cons p π ih =>
    obtain ⟨hwp, -⟩ := h.walk_cons hw
    exact .enter h hall hwrites hw (.events h hall hwrites hwp (ih hwp) (r := []) (by simp))

/-- Where a variable is read, the value the builder returned denotes what was last written to the
variable on the path. -/
theorem readDenotes (hw : g.builder.func.Walk π b) {ty : Ty} {r : List Event}
    (hl : g.log b = l ++ .read x v ty :: r) :
    ∃ a, (afterEvents g.builder.func g.log fresh π b l).store x = some a ∧
      (afterEvents g.builder.func g.log fresh π b l).env v = some a := by
  have hwalk : PathInv g fresh π b [] := .walk h hall hreads hwrites hw
  have hi := PathInv.events h hall hwrites hw hwalk hl
  obtain ⟨a, ha⟩ := Option.ne_none_iff_exists'.mp (hi.stored x (hreads π b hw l x v ty r hl))
  exact ⟨a, ha, hi.agree x v a (h.ok.logs.reads b l x v ty r hl) ha⟩

end Invariant

section Phis

variable (h : g.Exact) (hall : g.AllSealed)
include h hall

/-- A phi created by a read has one entry for each predecessor of its block. -/
theorem Ghost.Exact.readPhi_perm {i : Instruction} (hi : i ∈ readPhis g.builder.func g.log b) :
    i.kind = .phi (incomingOf i.kind) ∧
      ((incomingOf i.kind).map Prod.fst).Perm (g.builder.func.predecessors b) := by
  obtain ⟨hmem, hlog⟩ := mem_readPhis.mp hi
  obtain ⟨x, hx⟩ := (h.ok.logs.phis b i hmem).resolve_left hlog
  obtain ⟨j, hj, hid, -, incoming, hk, hm⟩ := h.phi_matches hall hx
  obtain rfl := List.inj_on_of_nodup_map (h.ok.values.nodup b) hj hmem hid
  refine ⟨by rw [hk]; rfl, ?_⟩
  rw [hk]
  refine List.Perm.trans (.of_eq ?_) (h.preds b)
  clear hk
  unfold PhiMatches at hm
  revert hm
  generalize g.builder.preds b = ps
  intro hm
  show incoming.map Prod.fst = ps
  induction hm with
  | nil => rfl
  | cons he _ ih => simp [he.1, ih]

end Phis

end Paths

end Parser
end Chakobsa
