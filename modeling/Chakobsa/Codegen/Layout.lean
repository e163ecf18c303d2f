import Chakobsa.Codegen.Code

/-!
# The layout of a compiled module

What a successful `compileModule` has put where: every function was lowered on its own, the
pending blocks of all functions stand one after the other behind the block that sets up the stack
pointer, and each block of the program is a pending block with its terminator resolved.
-/

namespace Chakobsa
namespace Codegen

open Ir ExceptLemmas

/-- A function is allocated and then lowered block by block, its staging slots following its
spill slots. -/
theorem compileFunction_ok {reserved i : ℕ} {f : Function} {l : Lowered}
    (h : compileFunction reserved i f = .ok l) :
    allocate f (i * FUNCTION_REGION_BYTES) reserved = .ok l.alloc ∧
      ∃ liveness, analyze f = .ok liveness ∧
        lowerBlocks f l.alloc liveness ((i + 1) * FUNCTION_REGION_BYTES)
          ⟨i * FUNCTION_REGION_BYTES + 8 * l.alloc.spills.length, []⟩ f.blocks =
            .ok (l.blocks, l.temps) := by
  simp only [compileFunction, lowerFunction, bind_eq_ok] at h
  obtain ⟨alloc, halloc, liveness, hl, r, hr, h⟩ := h
  obtain rfl := Except.ok.inj h
  refine ⟨halloc, liveness, hl, ?_⟩
  rw [Nat.succ_mul, Nat.mul_comm 8]
  exact hr

/-- The pending blocks of all functions in order, each with the name of its owner. -/
def ownedPending (lowered : List (String × Lowered)) : List (String × PendingBlock) :=
  lowered.flatMap fun p => p.2.pending.map fun b => (p.1, b)

/-- The code of every function was lowered with the region its position gives it. -/
theorem lowerAll_ok {reserved i : ℕ} {fs : List Function} {lowered : List (String × Lowered)}
    (h : lowerAll reserved i fs = .ok lowered) :
    lowered.length = fs.length ∧ ∀ k f, fs[k]? = some f →
      ∃ l, lowered[k]? = some (f.name, l) ∧ compileFunction reserved (i + k) f = .ok l := by
  induction fs generalizing i lowered with
  | nil =>
    obtain rfl : [] = lowered := by simpa [lowerAll] using h
    simp
  | cons g fs ih =>
    simp only [lowerAll, bind_eq_ok] at h
    obtain ⟨l, hl, ls, hls, h⟩ := h
    obtain rfl := Except.ok.inj h
    obtain ⟨hlen, hrest⟩ := ih hls
    refine ⟨by simp [hlen], ?_⟩
    rintro (_ | k) f hf
    · obtain rfl : g = f := by simpa using hf
      exact ⟨l, rfl, hl⟩
    · obtain ⟨l', hl', hc⟩ := hrest k f (by simpa using hf)
      exact ⟨l', by simpa using hl', by rw [← hc]; congr 1; omega⟩

/-- The function a piece of lowered code comes from. -/
theorem lowerAll_mem {reserved i : ℕ} {fs : List Function} {lowered : List (String × Lowered)}
    (h : lowerAll reserved i fs = .ok lowered) {k : ℕ} {name : String} {l : Lowered}
    (hl : lowered[k]? = some (name, l)) :
    ∃ f, fs[k]? = some f ∧ f.name = name ∧ compileFunction reserved (i + k) f = .ok l := by
  obtain ⟨hlen, hall⟩ := lowerAll_ok h
  have hk : k < fs.length := hlen ▸ (List.getElem?_eq_some_iff.mp hl).1
  obtain ⟨l', hl', hc⟩ := hall k fs[k] (List.getElem?_eq_getElem hk)
  rw [hl, Option.some.injEq, Prod.mk.injEq] at hl'
  obtain ⟨hn, rfl⟩ := hl'
  exact ⟨fs[k], List.getElem?_eq_getElem hk, hn.symm, hc⟩

/-- Every block is the pending block at its position, resolved. -/
theorem resolveAll_ok {lowered : List (String × Lowered)} {entries : List (String × ℕ)} {i : ℕ}
    {owned : List (String × PendingBlock)} {blocks : List Block}
    (h : resolveAll lowered entries i owned = .ok blocks) :
    blocks.length = owned.length ∧ ∀ k owner p, owned[k]? = some (owner, p) →
      ∃ b, blocks[k]? = some b ∧ resolveBlock entries owner
        (localIndex (((lookupLast lowered owner).map Lowered.blocks).getD [])) (i + k) p =
          .ok b := by
  induction owned generalizing i blocks with
  | nil =>
    obtain rfl : [] = blocks := by simpa [resolveAll] using h
    simp
  | cons q owned ih =>
    obtain ⟨owner₀, p₀⟩ := q
    simp only [resolveAll, bind_eq_ok] at h
    obtain ⟨b, hb, bs, hbs, h⟩ := h
    obtain rfl := Except.ok.inj h
    obtain ⟨hlen, hrest⟩ := ih hbs
    refine ⟨by simp [hlen], ?_⟩
    rintro (_ | k) owner p hp
    · obtain ⟨rfl, rfl⟩ : owner₀ = owner ∧ p₀ = p := by simpa using hp
      exact ⟨b, rfl, hb⟩
    · obtain ⟨b', hb', hc⟩ := hrest k owner p (by simpa using hp)
      exact ⟨b', by simpa using hb', by rw [← hc]; congr 1; omega⟩

/-- A resolved block is the pending one with its terminator appended. -/
theorem resolveBlock_ok {entries : List (String × ℕ)} {owner : String}
    {local' : BlockId → Option ℕ} {i : ℕ} {p : PendingBlock} {b : Block}
    (h : resolveBlock entries owner local' i p = .ok b) :
    ∃ t, resolveTerm entries owner local' p.term = .ok t ∧
      b.instructions = p.instructions ++ [t] := by
  simp only [resolveBlock, bind_eq_ok] at h
  obtain ⟨t, ht, h⟩ := h
  exact ⟨t, ht, by rw [← Except.ok.inj h]⟩

/-- The pieces a successful compilation is put together from. -/
structure Layout (M : Module) (c : CompiledModule) (lowered : List (String × Lowered)) : Prop where
  /-- Every function's region lies below the software stack. -/
  budget : M.functions.length * FUNCTION_REGION_BYTES ≤ STACK_BASE
  pass1 : lowerAll (reservedArgRegisters M) 0 M.functions = .ok lowered
  entry : c.functionEntry = (entriesFrom 0 lowered).map fun p => (p.1, p.2 + 1)
  blocks : ∃ start rest, c.program.blocks = initBlock start :: rest ∧
    resolveAll lowered (entriesFrom 0 lowered) 0 (ownedPending lowered) = .ok rest

theorem compileModule_ok {M : Module} {c : CompiledModule} (h : compileModule M = .ok c) :
    ∃ lowered, Layout M c lowered := by
  unfold compileModule at h
  split at h
  · simp at h
  · next hb =>
    simp only [bind_eq_ok] at h
    obtain ⟨lowered, hl, blocks, hblocks, h⟩ := h
    -- the entry block's target is the only thing the two cases of the module differ in
    obtain ⟨start, hc⟩ : ∃ start, CompiledModule.mk ⟨initBlock start :: blocks, 0⟩
        ((entriesFrom 0 lowered).map fun p => (p.1, p.2 + 1)) = c := by
      split at h
      · exact ⟨1, Except.ok.inj h⟩
      · obtain ⟨start, -, h⟩ := bind_eq_ok.mp h
        exact ⟨start, Except.ok.inj h⟩
    subst hc
    exact ⟨lowered, by omega, hl, rfl, start, blocks, rfl, hblocks⟩

/-- The program's code behind the first block is the code of the pending blocks, each followed by
its resolved terminator. -/
theorem Layout.code {M : Module} {c : CompiledModule} {lowered : List (String × Lowered)}
    (h : Layout M c lowered) :
    (c.program.blocks.tail.map fun b => b.instructions.dropLast) =
      (ownedPending lowered).map fun p => p.2.instructions := by
  obtain ⟨start, rest, hblocks, hres⟩ := h.blocks
  obtain ⟨hlen, hall⟩ := resolveAll_ok hres
  rw [hblocks, List.tail_cons]
  apply List.ext_getElem?
  intro k
  rw [List.getElem?_map, List.getElem?_map]
  cases hk : (ownedPending lowered)[k]? with
  | none =>
    rw [List.getElem?_eq_none_iff] at hk
    rw [List.getElem?_eq_none (by omega)]
    rfl
  | some q =>
    obtain ⟨b, hb, hr⟩ := hall k q.1 q.2 hk
    obtain ⟨t, -, ht⟩ := resolveBlock_ok hr
    simp [hb, ht]

end Codegen
end Chakobsa
