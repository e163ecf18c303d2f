import Chakobsa.Codegen.Emitted
import Chakobsa.Lib.Offset

/-!
# Where the lowered blocks stand

An IR block is lowered to one block for every call in it and one for its terminator, and one more
when that is a branch. `BasicBlock.exits` lists how these blocks are left, and so also how many there
are; `start M k j` is the position in the program at which the blocks of block `j` of function `k`
begin. The three index spaces of the code generator (block ids, positions within a function,
positions in the program) are connected here: `Layout.at` says which block stands where, with which
control instruction.
-/

namespace Chakobsa
namespace Codegen

open Ir ExceptLemmas

/-- How a lowered block is left. -/
inductive Exit where
  | jmp (target : BlockId)
  | jz (target : BlockId)
  | call (callee : String)
  | ret
  deriving DecidableEq, Repr

def PendingTerm.exit : PendingTerm → Exit
  | .jmp target => .jmp target
  | .jz _ target => .jz target
  | .call callee => .call callee
  | .ret => .ret

/-- The calls among some instructions. -/
def callExits (insts : List Instruction) : List Exit :=
  insts.filterMap fun i => match i.kind with
    | .call callee _ => some (.call callee)
    | _ => none

/-- How the blocks of a terminator are left: a branch needs two. -/
def termExits : Option Terminator → List Exit
  | some (.jump target) => [.jmp target]
  | some (.branch _ t e) => [.jz e, .jmp t]
  | some (.ret _) => [.ret]
  | none => []

/-- How the lowered blocks of an IR block are left, in order. -/
def exits (b : BasicBlock) : List Exit := callExits b.instructions ++ termExits b.terminator

/-- How all lowered blocks of a function are left, in order. -/
def functionExits (f : Function) : List Exit := f.blocks.flatMap exits

/-- The position in the program of the first lowered block of block `j` of function `k`. The block
in front of all others takes position `0`. -/
def start (M : Module) (k j : ℕ) : ℕ :=
  1 + offset functionExits M.functions k + offset exits ((M.functions[k]?.map (·.blocks)).getD []) j

theorem start_eq {M : Module} {k : ℕ} {f : Function} (hf : M.functions[k]? = some f) (j : ℕ) :
    start M k j = 1 + offset functionExits M.functions k + offset exits f.blocks j := by
  rw [start, hf]
  rfl

theorem start_zero (M : Module) (k : ℕ) : start M k 0 = 1 + offset functionExits M.functions k := by
  rw [start, offset_zero]
  rfl

/-- The position of a lowered block, as a block of all functions. -/
theorem start_add {M : Module} {k j m : ℕ} {f : Function} (hf : M.functions[k]? = some f) :
    start M k j + m = 1 + (offset functionExits M.functions k + (offset exits f.blocks j + m)) := by
  rw [start_eq hf]
  omega

/-! ### Blocks and their exits -/

section Lowering

variable {f : Function} {alloc : Allocation} {liveness : Liveness} {regionEnd : ℕ}

theorem foldlM_exits {block : BlockId} {st st' : LowerState} {insts : List Instruction}
    (h : insts.foldlM (lowerStep f alloc liveness regionEnd block) st = .ok st') :
    st'.pending.map (fun p => p.term.exit) =
      st.pending.map (fun p => p.term.exit) ++ callExits insts := by
  induction insts generalizing st with
  | nil =>
    obtain rfl : st = st' := by simpa using h
    simp [callExits]
  | cons i insts ih =>
    rw [List.foldlM_cons, bind_eq_ok] at h
    obtain ⟨st₁, h₁, h⟩ := h
    rw [ih h]
    rcases lowerStep_ok h₁ with ⟨callee, args, saved, hk, -, rfl, -⟩ | ⟨hcall, rfl, -⟩
    · simp [callExits, hk, PendingTerm.exit]
    · cases hk : i.kind <;> simp_all [callExits, InstKind.isCall]

/-- The lowered blocks of an IR block are left as `exits` says. -/
theorem lowerBlock_exits {temp : Temps} {b : BasicBlock} {r : List PendingBlock × Temps}
    (h : lowerBlock f alloc liveness regionEnd temp b = .ok r) :
    r.1.map (fun p => p.term.exit) = exits b := by
  obtain ⟨st, term, hst, hterm, hcode⟩ := lowerBlock_ok h
  have hcalls := foldlM_exits hst
  rw [List.map_nil, List.nil_append] at hcalls
  rw [exits, hterm, ← hcalls]
  generalize r.1 = pending at hcode ⊢
  generalize r.2 = temp' at hcode
  cases hcode <;> simp [PendingTerm.exit, termExits]

/-- The blocks of a function are lowered one by one. -/
theorem lowerBlocks_ok {temp : Temps} {bs : List BasicBlock}
    {r : List (BlockId × List PendingBlock) × Temps}
    (h : lowerBlocks f alloc liveness regionEnd temp bs = .ok r) :
    List.Forall₂ (fun b q => q.1 = b.id ∧ ∃ t t',
      lowerBlock f alloc liveness regionEnd t b = .ok (q.2, t')) bs r.1 := by
  induction bs generalizing temp r with
  | nil =>
    obtain rfl := Except.ok.inj h
    exact .nil
  | cons b bs ih =>
    simp only [lowerBlocks, bind_eq_ok] at h
    obtain ⟨x, hx, y, hy, h⟩ := h
    obtain rfl := Except.ok.inj h
    exact .cons ⟨rfl, temp, x.2, hx⟩ (ih hy)

/-- Under distinct ids the first lowered block of an IR block is found at its offset. -/
theorem localIndex_eq {bs : List BasicBlock} {qs : List (BlockId × List PendingBlock)}
    (h : List.Forall₂ (fun b q => q.1 = b.id ∧ q.2.length = (exits b).length) bs qs)
    (hnd : (bs.map (·.id)).Nodup) {j : ℕ} {b : BasicBlock} (hb : bs[j]? = some b) :
    localIndex qs b.id = some (offset exits bs j) := by
  have habsent : ∀ {bs : List BasicBlock} {qs : List (BlockId × List PendingBlock)} {id : BlockId},
      List.Forall₂ (fun b q => q.1 = b.id ∧ q.2.length = (exits b).length) bs qs →
        id ∉ bs.map (·.id) → localIndex qs id = none := by
    intro bs qs id h hid
    induction h with
    | nil => rfl
    | @cons c q bs qs hq _ ih =>
      rw [List.map_cons, List.mem_cons, not_or] at hid
      rw [localIndex, ih hid.2, hq.1]
      exact if_neg fun he => hid.1 he.symm
  induction h generalizing j with
  | nil => simp at hb
  | @cons c q bs qs hq hrest ih =>
    rw [List.map_cons, List.nodup_cons] at hnd
    cases j with
    | zero =>
      obtain rfl : c = b := by simpa using hb
      rw [localIndex, habsent hrest hnd.1, offset_zero]
      exact if_pos hq.1
    | succ j =>
      rw [localIndex, ih hnd.2 (by simpa using hb), offset_cons_succ, ← hq.2]

theorem localIndex_isSome {qs : List (BlockId × List PendingBlock)} {target : BlockId} {idx : ℕ}
    (h : localIndex qs target = some idx) : target ∈ qs.map Prod.fst := by
  induction qs generalizing idx with
  | nil => cases h
  | cons q qs ih =>
    rw [localIndex] at h
    rw [List.map_cons, List.mem_cons]
    split at h
    · next i hi => exact .inr (ih hi)
    · split at h
      · next he => exact .inl he.symm
      · cases h

end Lowering

/-! ### Names -/

/-- Under distinct keys every entry of a map is found. -/
theorem lookupLast_of_getElem {α : Type} {m : List (String × α)} (hnd : (m.map Prod.fst).Nodup)
    {k : ℕ} {name : String} {a : α} (h : m[k]? = some (name, a)) : lookupLast m name = some a := by
  have hmem : (name, a) ∈ m := List.mem_of_getElem? h
  have hsome : (m.reverse.find? fun p => p.1 == name).isSome :=
    List.find?_isSome.mpr ⟨(name, a), List.mem_reverse.mpr hmem, by simp⟩
  obtain ⟨p, hp⟩ := Option.isSome_iff_exists.mp hsome
  have hpm : p ∈ m := List.mem_reverse.mp (List.mem_of_find?_eq_some hp)
  have hpn : p.1 = name := by simpa using List.find?_some hp
  rw [lookupLast, hp, List.inj_on_of_nodup_map hnd hpm hmem hpn]
  rfl

theorem mem_of_lookupLast {α : Type} {m : List (String × α)} {name : String} {a : α}
    (h : lookupLast m name = some a) : name ∈ m.map Prod.fst := by
  obtain ⟨p, hp, -⟩ := Option.map_eq_some_iff.mp h
  have hpn : p.1 = name := by simpa using List.find?_some hp
  exact hpn ▸ List.mem_map_of_mem (List.mem_reverse.mp (List.mem_of_find?_eq_some hp))

theorem entriesFrom_getElem (base : ℕ) {lowered : List (String × Lowered)} {k : ℕ} {name : String}
    {l : Lowered} (h : lowered[k]? = some (name, l)) :
    (entriesFrom base lowered)[k]? = some (name, base + offset (fun p => p.2.pending) lowered k) := by
  induction lowered generalizing base k with
  | nil => simp at h
  | cons p lowered ih =>
    obtain ⟨name₀, l₀⟩ := p
    cases k with
    | zero =>
      obtain ⟨rfl, rfl⟩ : name₀ = name ∧ l₀ = l := by simpa using h
      simp [entriesFrom]
    | succ k =>
      rw [entriesFrom, List.getElem?_cons_succ, ih _ (by simpa using h), offset_cons_succ,
        Nat.add_assoc]

theorem entriesFrom_names (base : ℕ) (lowered : List (String × Lowered)) :
    (entriesFrom base lowered).map Prod.fst = lowered.map Prod.fst := by
  induction lowered generalizing base with
  | nil => rfl
  | cons p lowered ih => rw [entriesFrom, List.map_cons, List.map_cons, ih]

/-! ### The functions of a module -/

/-- Function `k` of the module, lowered. -/
structure LoweredAs (M : Module) (k : ℕ) (f : Function) (l : Lowered) (liveness : Liveness) :
    Prop where
  function : M.functions[k]? = some f
  alloc : allocate f (k * FUNCTION_REGION_BYTES) (reservedArgRegisters M) = .ok l.alloc
  live : analyze f = .ok liveness
  blocks : List.Forall₂ (fun b q => q.1 = b.id ∧ ∃ t t',
    lowerBlock f l.alloc liveness ((k + 1) * FUNCTION_REGION_BYTES) t b = .ok (q.2, t'))
      f.blocks l.blocks

/-- The outcome of pass 1. -/
def Pass1 (M : Module) (lowered : List (String × Lowered)) : Prop :=
  lowerAll (reservedArgRegisters M) 0 M.functions = .ok lowered

theorem Pass1.function {M : Module} {lowered : List (String × Lowered)} (h : Pass1 M lowered)
    {k : ℕ} {f : Function} (hf : M.functions[k]? = some f) :
    ∃ l liveness, lowered[k]? = some (f.name, l) ∧ LoweredAs M k f l liveness := by
  obtain ⟨l, hl, hc⟩ := (lowerAll_ok h).2 k f hf
  rw [Nat.zero_add] at hc
  obtain ⟨halloc, liveness, hlive, hblocks⟩ := compileFunction_ok hc
  exact ⟨l, liveness, hl, hf, halloc, hlive, lowerBlocks_ok hblocks⟩

section Function

variable {M : Module} {k : ℕ} {f : Function} {l : Lowered} {liveness : Liveness}

theorem LoweredAs.sizes (h : LoweredAs M k f l liveness) :
    List.Forall₂ (fun b q => q.1 = b.id ∧ q.2.length = (exits b).length) f.blocks l.blocks := by
  refine h.blocks.imp fun b q ⟨hid, t, t', hlow⟩ => ⟨hid, ?_⟩
  rw [← lowerBlock_exits hlow, List.length_map]

theorem LoweredAs.ids (h : LoweredAs M k f l liveness) :
    l.blocks.map Prod.fst = f.blocks.map (·.id) := by
  have hsizes := h.sizes
  generalize f.blocks = bs at hsizes
  generalize l.blocks = qs at hsizes
  induction hsizes with
  | nil => rfl
  | cons hq _ ih => rw [List.map_cons, List.map_cons, hq.1, ih]

/-- A function has as many lowered blocks as exits. -/
theorem LoweredAs.length (h : LoweredAs M k f l liveness) :
    l.pending.length = (functionExits f).length :=
  (length_flatMap_congr (h.sizes.imp fun _ _ hq => hq.2.symm)).symm

/-- The lowered blocks of block `j`. -/
theorem LoweredAs.block (h : LoweredAs M k f l liveness) {j : ℕ} {b : BasicBlock}
    (hb : f.blocks[j]? = some b) :
    ∃ ps t t', l.blocks[j]? = some (b.id, ps) ∧
      lowerBlock f l.alloc liveness ((k + 1) * FUNCTION_REGION_BYTES) t b = .ok (ps, t') := by
  have hj : j < f.blocks.length := (List.getElem?_eq_some_iff.mp hb).1
  have hj' : j < l.blocks.length := h.blocks.length_eq ▸ hj
  obtain ⟨hid, t, t', hlow⟩ := List.forall₂_iff_get.mp h.blocks |>.2 j hj hj'
  have hbj : f.blocks.get ⟨j, hj⟩ = b := (List.getElem?_eq_some_iff.mp hb).2
  rw [hbj] at hid hlow
  refine ⟨(l.blocks.get ⟨j, hj'⟩).2, t, t', ?_, hlow⟩
  rw [List.getElem?_eq_getElem hj', ← hid]
  rfl

end Function

/-- The control instruction a terminator is resolved to, with positions in the program. -/
inductive Resolved (M : Module) (k : ℕ) (f : Function) : PendingTerm → Instr → Prop where
  | jmp {j : ℕ} {b : BasicBlock} (hb : f.blocks[j]? = some b) :
      Resolved M k f (.jmp b.id) ⟨.jmp, 0, 0, 0, (start M k j : ℤ)⟩
  | jz {j r : ℕ} {b : BasicBlock} (hb : f.blocks[j]? = some b) :
      Resolved M k f (.jz r b.id) ⟨.jz, 0, r, 0, (start M k j : ℤ)⟩
  | call {k' : ℕ} {g : Function} (hg : M.functions[k']? = some g) :
      Resolved M k f (.call g.name) ⟨.call, 0, 0, 0, (start M k' 0 : ℤ)⟩
  | ret : Resolved M k f .ret ⟨.ret, 0, 0, 0, 0⟩

section Layout

variable {M : Module} {c : CompiledModule} {lowered : List (String × Lowered)}

theorem Pass1.names (h : Pass1 M lowered) :
    lowered.map Prod.fst = M.functions.map (·.name) := by
  obtain ⟨hlen, hall⟩ := lowerAll_ok h
  apply List.ext_getElem?
  intro k
  rw [List.getElem?_map, List.getElem?_map]
  cases hf : M.functions[k]? with
  | none =>
    rw [List.getElem?_eq_none_iff] at hf
    rw [List.getElem?_eq_none (hlen ▸ hf)]
    rfl
  | some f =>
    obtain ⟨l, hl, -⟩ := hall k f hf
    rw [hl]
    rfl

theorem Pass1.lengths (h : Pass1 M lowered) :
    List.Forall₂ (fun p f => p.2.pending.length = (functionExits f).length) lowered M.functions := by
  rw [List.forall₂_iff_get]
  obtain ⟨hlen, -⟩ := lowerAll_ok h
  refine ⟨hlen, fun k hk hk' => ?_⟩
  obtain ⟨l, liveness, hl, hlow⟩ := h.function (List.getElem?_eq_getElem hk')
  rw [List.getElem?_eq_getElem hk, Option.some.injEq] at hl
  show (lowered[k]).2.pending.length = _
  rw [hl]
  exact hlow.length

/-- The first blocks of the functions stand where `start` says. -/
theorem Pass1.entry_eq (h : Pass1 M lowered) (hnd : (M.functions.map (·.name)).Nodup) {k : ℕ}
    {f : Function} (hf : M.functions[k]? = some f) :
    lookupLast (entriesFrom 0 lowered) f.name = some (offset functionExits M.functions k) := by
  obtain ⟨l, liveness, hl, -⟩ := h.function hf
  have hentry := entriesFrom_getElem 0 hl
  rw [Nat.zero_add, offset_congr h.lengths] at hentry
  refine lookupLast_of_getElem ?_ hentry
  rw [entriesFrom_names, h.names]
  exact hnd

theorem Pass1.blocks_of (h : Pass1 M lowered) (hnd : (M.functions.map (·.name)).Nodup) {k : ℕ}
    {name : String} {l : Lowered} (hl : lowered[k]? = some (name, l)) :
    ((lookupLast lowered name).map Lowered.blocks).getD [] = l.blocks := by
  rw [lookupLast_of_getElem (h.names ▸ hnd) hl]
  rfl

/-- What resolving a terminator gives. -/
theorem Pass1.resolved (h : Pass1 M lowered) (hnd : (M.functions.map (·.name)).Nodup) {k : ℕ}
    {f : Function} {l : Lowered} {liveness : Liveness} (hlow : LoweredAs M k f l liveness)
    (hids : (f.blocks.map (·.id)).Nodup) {term : PendingTerm} {t : Instr}
    (ht : resolveTerm (entriesFrom 0 lowered) f.name (localIndex l.blocks) term = .ok t) :
    Resolved M k f term t := by
  -- a local index is the number of lowered blocks before the target's
  have hlocal : ∀ {target : BlockId} {idx : ℕ}, localIndex l.blocks target = some idx →
      ∃ j b, f.blocks[j]? = some b ∧ b.id = target ∧ idx = offset exits f.blocks j := by
    intro target idx hidx
    have hmem := localIndex_isSome hidx
    rw [hlow.ids, List.mem_map] at hmem
    obtain ⟨b, hb, rfl⟩ := hmem
    obtain ⟨j, hj⟩ := List.mem_iff_getElem?.mp hb
    rw [localIndex_eq hlow.sizes hids hj, Option.some.injEq] at hidx
    exact ⟨j, b, hj, rfl, hidx.symm⟩
  have htarget : ∀ {j : ℕ}, 1 + offset functionExits M.functions k + offset exits f.blocks j =
      start M k j := fun {j} => (start_eq hlow.function j).symm
  cases term with
  | jmp target =>
    simp only [resolveTerm, bind_eq_ok, Comp.expect_eq_ok] at ht
    obtain ⟨base, hbase, idx, hidx, ht⟩ := ht
    obtain ⟨j, b, hb, rfl, rfl⟩ := hlocal hidx
    rw [h.entry_eq hnd hlow.function, Option.some.injEq] at hbase
    rw [← hbase, htarget] at ht
    exact Except.ok.inj ht ▸ .jmp hb
  | jz r target =>
    simp only [resolveTerm, bind_eq_ok, Comp.expect_eq_ok] at ht
    obtain ⟨base, hbase, idx, hidx, ht⟩ := ht
    obtain ⟨j, b, hb, rfl, rfl⟩ := hlocal hidx
    rw [h.entry_eq hnd hlow.function, Option.some.injEq] at hbase
    rw [← hbase, htarget] at ht
    exact Except.ok.inj ht ▸ .jz hb
  | call callee =>
    simp only [resolveTerm] at ht
    split at ht
    · cases ht
    · next base hbase =>
      have hmem := mem_of_lookupLast hbase
      rw [entriesFrom_names, h.names, List.mem_map] at hmem
      obtain ⟨g, hg, rfl⟩ := hmem
      obtain ⟨k', hk'⟩ := List.mem_iff_getElem?.mp hg
      rw [h.entry_eq hnd hk', Option.some.injEq] at hbase
      rw [← hbase, ← start_zero] at ht
      exact Except.ok.inj ht ▸ .call hk'
  | ret => exact Except.ok.inj ht ▸ .ret

/-- The program's block at the place of a lowered block: its code, and the terminator resolved. -/
theorem Layout.at (h : Layout M c lowered) (hnd : (M.functions.map (·.name)).Nodup) {k j m : ℕ}
    {f : Function} {l : Lowered} {liveness : Liveness} (hl : lowered[k]? = some (f.name, l))
    (hlow : LoweredAs M k f l liveness) (hids : (f.blocks.map (·.id)).Nodup) {id : BlockId}
    {ps : List PendingBlock} (hps : l.blocks[j]? = some (id, ps)) {p : PendingBlock}
    (hp : ps[m]? = some p) :
    ∃ blk t, c.program.blocks[start M k j + m]? = some blk ∧
      blk.instructions = p.instructions ++ [t] ∧ Resolved M k f p.term t := by
  obtain ⟨first, rest, hblocks, hres⟩ := h.blocks
  have hlocal : l.pending[offset exits f.blocks j + m]? = some p := by
    have hlen : List.Forall₂ (fun b q => (exits b).length = (Prod.snd q).length) f.blocks l.blocks :=
      hlow.sizes.imp fun b q hq => hq.2.symm
    rw [offset_congr hlen]
    exact getElem?_offset hps hp
  have howned : (ownedPending lowered)[offset functionExits M.functions k +
      (offset exits f.blocks j + m)]? = some (f.name, p) := by
    have hoff : offset functionExits M.functions k =
        offset (fun q : String × Lowered => q.2.pending.map fun b => (q.1, b)) lowered k :=
      (offset_congr ((Pass1.lengths h.pass1).imp fun q f hq => (List.length_map _).trans hq) k).symm
    rw [hoff]
    refine getElem?_offset hl ?_
    rw [List.getElem?_map, hlocal]
    rfl
  obtain ⟨blk, hblk, hb⟩ := (resolveAll_ok hres).2 _ _ _ howned
  obtain ⟨t, ht, hinst⟩ := resolveBlock_ok hb
  rw [Pass1.blocks_of h.pass1 hnd hl] at ht
  refine ⟨blk, t, ?_, hinst, Pass1.resolved h.pass1 hnd hlow hids ht⟩
  rw [hblocks, start_add hlow.function, Nat.add_comm 1, List.getElem?_cons_succ]
  exact hblk

/-- The program has one block for every exit, and the one in front. -/
theorem Layout.blocks_length (h : Layout M c lowered) :
    c.program.blocks.length = 1 + (M.functions.flatMap functionExits).length := by
  obtain ⟨first, rest, hblocks, hres⟩ := h.blocks
  have howned : (ownedPending lowered).length = (M.functions.flatMap functionExits).length :=
    length_flatMap_congr ((Pass1.lengths h.pass1).imp fun _ _ hp => (List.length_map _).trans hp)
  rw [hblocks, List.length_cons, (resolveAll_ok hres).1, howned, Nat.add_comm]

/-- Every position behind the first belongs to an exit of an IR block. -/
theorem exists_start {M : Module} {n : ℕ} (hn : 0 < n)
    (hlen : n < 1 + (M.functions.flatMap functionExits).length) :
    ∃ k f j b m, M.functions[k]? = some f ∧ f.blocks[j]? = some b ∧ m < (exits b).length ∧
      n = start M k j + m := by
  obtain ⟨k, f, n₁, hf, hn₁, heq⟩ :=
    exists_offset (g := functionExits) (l := M.functions) (n := n - 1) (by omega)
  obtain ⟨j, b, m, hb, hm, rfl⟩ := exists_offset hn₁
  refine ⟨k, f, j, b, m, hf, hb, hm, ?_⟩
  rw [start_add hf]
  omega

/-- A position of an exit is in the program. -/
theorem start_lt {M : Module} {k j m : ℕ} {f : Function} {b : BasicBlock}
    (hf : M.functions[k]? = some f) (hb : f.blocks[j]? = some b) (hm : m < (exits b).length) :
    start M k j + m < 1 + (M.functions.flatMap functionExits).length := by
  have hin : (functionExits f)[offset exits f.blocks j + m]? = some (exits b)[m] :=
    getElem?_offset hb (List.getElem?_eq_getElem hm)
  have := (List.getElem?_eq_some_iff.mp (getElem?_offset (g := functionExits) hf hin)).1
  rw [start_add hf]
  omega

end Layout

end Codegen
end Chakobsa
