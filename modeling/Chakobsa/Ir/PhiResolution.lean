import Chakobsa.Ir.Interp
import Chakobsa.Ir.Validate
import Chakobsa.Lib.Walk
import Mathlib.Data.List.Perm.Subperm

/-!
# When validation makes phi resolution total

Entering a block over the edge from `p`, the interpreter and the code generator look up the
first entry for `p` in the incoming list of each of its phis, and panic when there is none.
`validateFunction` compares the length of the list with the number of predecessors and checks
that every block it names is a predecessor. It does not check that no block is named twice,
nor that the entry block, which is entered over no edge when the function starts, has no phi.

Here is what it takes for the interpreter's lookups to succeed on the walks through a function
(`PhisDistinct.phiResolution`), and that then its two expects do not fire in any run (`run_faults`).
-/

namespace Chakobsa
namespace Ir

open ExceptLemmas Chakobsa.Comp

/-- The CFG edges of a function. -/
def Function.Edge (f : Function) (p b : BlockId) : Prop :=
  ∃ blk, f.block p = some blk ∧ b ∈ blk.successors

/-- A walk through the CFG from the entry block. -/
abbrev Function.Walk (f : Function) : List BlockId → BlockId → Prop :=
  Chakobsa.Walk f.Edge f.entry

/-- A phi with the given incoming list is resolved at the end of the walk `π` to `b`: `b` was
entered over an edge, the lookup for the block it came from succeeds, and the list has one
entry for every predecessor and none twice. -/
def PhiResolved (f : Function) (π : List BlockId) (b : BlockId)
    (incoming : List (BlockId × ValueId)) : Prop :=
  (∃ p π' v, π = p :: π' ∧ incoming.find? (fun e => e.1 == p) = some (p, v)) ∧
    (incoming.map Prod.fst).Nodup ∧ ∀ q, q ∈ incoming.map Prod.fst ↔ q ∈ f.predecessors b

/-- The phis of a block. -/
def BasicBlock.phis (b : BasicBlock) : List (List (BlockId × ValueId)) :=
  b.instructions.filterMap fun i => match i.kind with
    | .phi incoming => some incoming
    | _ => none

theorem BasicBlock.mem_phis {b : BasicBlock} {incoming : List (BlockId × ValueId)} :
    incoming ∈ b.phis ↔ ∃ i ∈ b.instructions, i.kind = .phi incoming := by
  simp only [BasicBlock.phis, List.mem_filterMap]
  refine exists_congr fun i => and_congr_right fun _ => ?_
  cases hk : i.kind <;> simp

/-- Every phi of every block on every walk from the entry can be resolved. -/
def PhiResolution (f : Function) : Prop :=
  ∀ π b, f.Walk π b → ∀ blk, f.block b = some blk → ∀ incoming ∈ blk.phis,
    PhiResolved f π b incoming

/-- No reachable phi names a block twice, and the entry block has no phi. -/
def PhisDistinct (f : Function) : Prop :=
  ∀ π b, f.Walk π b → ∀ blk, f.block b = some blk → ∀ incoming ∈ blk.phis,
    (incoming.map Prod.fst).Nodup ∧ b ≠ f.entry

/-- A phi of a block that passed validation. -/
theorem Validated.phi {f : Function} {defs : Defs} (hv : Validated f defs) {b : BlockId}
    {blk : BasicBlock} (hb : f.block b = some blk) {incoming : List (BlockId × ValueId)}
    (hi : incoming ∈ blk.phis) :
    incoming.length = (f.predecessors b).length ∧
      ∀ p ∈ incoming, p.1 ∈ f.predecessors b := by
  obtain ⟨hmem, rfl⟩ := Function.block_some hb
  obtain ⟨i, him, hk⟩ := BasicBlock.mem_phis.mp hi
  have hok := hv.insts blk hmem i him
  simp only [InstOk, hk] at hok
  exact ⟨hok.1, fun p hp => (hok.2 p hp).1⟩

/-- A list as long as another, without repetition and contained in it, covers it. -/
theorem perm_of_nodup_of_length {α : Type} {l m : List α} (hnd : l.Nodup) (hsub : l ⊆ m)
    (hlen : l.length = m.length) : l.Perm m :=
  (hnd.subperm hsub).perm_of_length_le (Nat.le_of_eq hlen.symm)

/-- An edge is a predecessor entry. -/
theorem Function.Edge.mem_predecessors {f : Function} {p b : BlockId} (h : f.Edge p b) :
    p ∈ f.predecessors b := by
  obtain ⟨blk, hblk, hs⟩ := h
  obtain ⟨hm, hid⟩ := Function.block_some hblk
  exact Function.mem_predecessors.mpr ⟨blk, hm, hid, hs⟩

/-- With distinct incoming blocks the phi of an accepted function covers its predecessors
exactly. -/
theorem Validated.phi_cover {f : Function} {defs : Defs} (hv : Validated f defs) {b : BlockId}
    {blk : BasicBlock} (hb : f.block b = some blk) {incoming : List (BlockId × ValueId)}
    (hi : incoming ∈ blk.phis) (hnd : (incoming.map Prod.fst).Nodup) (q : BlockId) :
    q ∈ incoming.map Prod.fst ↔ q ∈ f.predecessors b := by
  obtain ⟨hlen, hsub⟩ := hv.phi hb hi
  have hperm : (incoming.map Prod.fst).Perm (f.predecessors b) := by
    refine perm_of_nodup_of_length hnd ?_ (by simpa using hlen)
    intro p hp
    obtain ⟨e, he, rfl⟩ := List.mem_map.mp hp
    exact hsub e he
  exact hperm.mem_iff

/-- On an accepted function whose reachable phis name no block twice, and that has none in the entry
block, the lookups succeed on every walk from the entry. -/
theorem PhisDistinct.phiResolution {f : Function} (hok : validateFunction f = .ok ())
    (h : PhisDistinct f) : PhiResolution f := by
  obtain ⟨defs, hv⟩ := validateFunction_ok_iff.mp hok
  intro π b hw blk hb incoming hi
  obtain ⟨hnd, hne⟩ := h π b hw blk hb incoming hi
  have hcover := hv.phi_cover hb hi hnd
  refine ⟨?_, hnd, hcover⟩
  cases hw with
  | start => exact absurd rfl hne
  | @step π p _ hw hedge =>
    have hp : p ∈ incoming.map Prod.fst := (hcover p).mpr hedge.mem_predecessors
    obtain ⟨e, he, rfl⟩ := List.mem_map.mp hp
    obtain ⟨e', hfind⟩ : ∃ e', incoming.find? (fun d => d.1 == e.1) = some e' := by
      apply Option.isSome_iff_exists.mp
      simp only [List.find?_isSome, beq_iff_eq]
      exact ⟨e, he, rfl⟩
    have hfst : e'.1 = e.1 := by simpa using List.find?_some hfind
    exact ⟨e.1, π, e'.2, rfl, by rw [hfind, ← hfst]⟩

/-! ### The expects of the interpreter -/

/-- Neither of the two expects that the interpreter resolves a phi with. -/
def NotPhiExpect : Fault InterpError InterpPanic → Prop
  | .panic .phiInEntry | .panic .phiUncovered => False
  | _ => True

theorem Env.get_faults (env : Env) (v : ValueId) : (env.get v).Faults NotPhiExpect :=
  .expect fun _ => trivial

/-- At the end of a walk on which phis are resolved, neither expect of the interpreter fires. -/
theorem PhiResolution.phiResults {f : Function} (h : PhiResolution f) {π : List BlockId} {b : BlockId}
    (hw : f.Walk π b) {blk : BasicBlock} (hb : f.block b = some blk) (env : Env) :
    (phiResults env π.head? blk.instructions).Faults NotPhiExpect := by
  have hphis : ∀ incoming ∈ blk.phis, (phiValue env π.head? incoming).Faults NotPhiExpect := by
    intro incoming hi
    obtain ⟨⟨p, π', v, rfl, hfind⟩, -⟩ := h π b hw blk hb incoming hi
    simp only [phiValue, List.head?_cons, Comp.expect_some, ok_bind, hfind]
    exact env.get_faults v
  have hsub : ∀ is ⊆ blk.instructions, (Ir.phiResults env π.head? is).Faults NotPhiExpect := by
    intro is
    induction is with
    | nil => exact fun _ => .ok
    | cons i is ih =>
      intro his
      obtain ⟨hi, his⟩ := List.cons_subset.mp his
      unfold Ir.phiResults
      cases hk : i.kind with
      | phi incoming =>
        refine (hphis incoming (BasicBlock.mem_phis.mpr ⟨i, hi, hk⟩)).bind fun x _ => ?_
        exact (ih his).bind fun rs _ => .ok
      | _ => exact ih his
  exact hsub _ (List.Subset.refl _)

theorem RtValue.asI64_faults (x : RtValue) : x.asI64.Faults NotPhiExpect := by
  cases x with
  | i64 v => exact .ok
  | bool b => exact .error trivial

theorem RtValue.asBool_faults (x : RtValue) : x.asBool.Faults NotPhiExpect := by
  cases x with
  | i64 v => exact .error trivial
  | bool b => exact .ok

theorem evalBin_faults (op : BinOp) (x y : RtValue) : (evalBin op x y).Faults NotPhiExpect := by
  cases op with
  | div | mod =>
    refine x.asI64_faults.bind fun a _ => y.asI64_faults.bind fun b _ => ?_
    split
    · exact .error trivial
    · exact .ok
  | and | or =>
    refine x.asBool_faults.bind fun a _ => ?_
    split
    all_goals first | exact .ok | exact y.asBool_faults.bind fun _ _ => .ok
  | _ => exact x.asI64_faults.bind fun _ _ => y.asI64_faults.bind fun _ _ => .ok

theorem evalUn_faults (op : UnOp) (x : RtValue) : (evalUn op x).Faults NotPhiExpect := by
  cases op with
  | neg => exact x.asI64_faults.bind fun _ _ => .ok
  | not => exact x.asBool_faults.bind fun _ _ => .ok

/-- An instruction other than a call fires neither of them, and a call only what its callee does. -/
theorem execInst_faults {M : Module} {callee : Function → List RtValue → InterpM (Option RtValue)}
    (h : ∀ g ∈ M.functions, ∀ xs, (callee g xs).Faults NotPhiExpect) (env : Env) (i : Instruction) :
    (execInst M callee env i).Faults NotPhiExpect := by
  unfold execInst
  cases i.kind with
  | phi incoming => exact .ok
  | constI64 n => exact .ok
  | constBool b => exact .ok
  | bin op lhs rhs =>
    exact (env.get_faults lhs).bind fun a _ => (env.get_faults rhs).bind fun b _ =>
      (evalBin_faults op a b).bind fun _ _ => .ok
  | un op operand =>
    exact (env.get_faults operand).bind fun a _ => (evalUn_faults op a).bind fun _ _ => .ok
  | call name args =>
    dsimp only
    cases hg : M.function name with
    | none => exact .error trivial
    | some g =>
      exact (Faults.mapM fun a _ => env.get_faults a).bind fun xs _ =>
        (h g (Module.function_some hg).1 xs).bind fun r _ =>
          (Faults.expect fun _ => trivial).bind fun _ _ => .ok

/-- A terminator fires neither of them, and control goes to one of its successors. -/
theorem execTerminator_faults (env : Env) (term : Terminator) :
    (execTerminator env term).Faults NotPhiExpect := by
  cases term with
  | jump target => exact .ok
  | branch cond t e =>
    refine (env.get_faults cond).bind fun x _ => x.asBool_faults.bind fun c _ => ?_
    split <;> exact .ok
  | ret v =>
    cases v with
    | none => exact .ok
    | some v => exact (env.get_faults v).bind fun _ _ => .ok

theorem execTerminator_successor {env : Env} {term : Terminator} {target : BlockId}
    (h : execTerminator env term = .ok (.goto target)) : target ∈ term.successors := by
  cases term with
  | jump s =>
    obtain rfl : s = target := by simpa [execTerminator] using h
    simp [Terminator.successors]
  | branch cond t e =>
    simp only [execTerminator, bind_eq_ok] at h
    obtain ⟨x, -, c, -, h⟩ := h
    cases c with
    | true => simp_all [Terminator.successors]
    | false => simp_all [Terminator.successors]
  | ret v =>
    cases v with
    | none => simp [execTerminator] at h
    | some v => simp [execTerminator, bind_eq_ok] at h

/-- From the end of a walk on, and in every nested call. -/
theorem loop_faults {M : Module} (h : ∀ f ∈ M.functions, PhiResolution f) (n : ℕ) {f : Function}
    (hf : f ∈ M.functions) {π : List BlockId} {b : BlockId} (hw : f.Walk π b) (env : Env) :
    (loop M n f b π.head? env).Faults NotPhiExpect := by
  induction n generalizing f π b env with
  | zero => exact .error trivial
  | succ n ih =>
    have hcallee : ∀ g ∈ M.functions, ∀ xs, (callWith (loop M n) g xs).Faults NotPhiExpect := by
      intro g hg xs
      unfold callWith
      split
      · exact .error trivial
      · exact ih hg .start _
    unfold loop
    refine (Faults.expect fun _ => trivial).bind fun blk hblk => ?_
    have hblk := expect_eq_ok.mp hblk
    refine ((h f hf).phiResults hw hblk env).bind fun phis _ => ?_
    refine (Faults.foldlM (fun env i _ => execInst_faults hcallee env i) _).bind fun env _ => ?_
    refine (Faults.expect fun _ => trivial).bind fun term hterm => ?_
    have hterm := expect_eq_ok.mp hterm
    refine (execTerminator_faults env term).bind fun exit hexit => ?_
    cases exit with
    | goto target =>
      have hsucc : target ∈ blk.successors := by
        simpa [BasicBlock.successors, hterm] using execTerminator_successor hexit
      exact ih hf (.step hw ⟨blk, hblk, hsucc⟩) _
    | done v => exact .ok

/-- No run of a module in whose functions phis are resolved fires one of the two expects. -/
theorem run_faults {M : Module} (h : ∀ f ∈ M.functions, PhiResolution f) (n : ℕ) (entry : String)
    (args : List RtValue) : (run M n entry args).Faults NotPhiExpect := by
  unfold run
  cases hf : M.function entry with
  | none => exact .error trivial
  | some f =>
    show (callWith (loop M n) f args).Faults NotPhiExpect
    unfold callWith
    split
    · exact .error trivial
    · exact loop_faults h n (Module.function_some hf).1 .start _

/-- A diamond whose join has a phi with two entries for the same arm. -/
def repeatedIncoming : Function where
  name := "f"
  params := [("c", .bool)]
  retTy := some .i64
  entry := 0
  blocks :=
    [⟨0, [⟨1, .i64, .constI64 1⟩], some (.branch 0 1 2)⟩,
     ⟨1, [], some (.jump 3)⟩,
     ⟨2, [], some (.jump 3)⟩,
     ⟨3, [⟨2, .i64, .phi [(1, 1), (1, 1)]⟩], some (.ret (some 2))⟩]

/-- A diamond whose join has a phi with one entry for each arm. -/
def distinctIncoming : Function :=
  { repeatedIncoming with
    blocks :=
      [⟨0, [⟨1, .i64, .constI64 1⟩], some (.branch 0 1 2)⟩,
       ⟨1, [], some (.jump 3)⟩,
       ⟨2, [], some (.jump 3)⟩,
       ⟨3, [⟨2, .i64, .phi [(1, 1), (2, 1)]⟩], some (.ret (some 2))⟩] }

end Ir
end Chakobsa
