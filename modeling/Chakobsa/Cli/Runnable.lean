import Chakobsa.Codegen.Correctness
import Chakobsa.Parser.Accepted
import Chakobsa.Parser.Capacity

/-!
# The programs of `chakobsac`

`chakobsac run` parses a source, validates the module, compiles it and puts a block behind the
compiled program that sets the stack pointer and calls `main`. What the machine then does is what
`main` means in the source (`runnable_correct`): the front end preserves meaning
(`Elaborated.tracks`), and so does the code generator (`compiled_run`, `compiled_only`), whose
conditions on the module are met by everything the parser returns (`parsed_compilable`), apart from
the two limits of the static memory of a function.

The files, the command line and the output are left out, and so are the checks of the instruction set's
own `Program::validate`, which is not part of the repository: it is a parameter.
-/

namespace Chakobsa
namespace Cli

open Ir Codegen ExceptLemmas

/-! ### The pipeline -/

/-- What `chakobsac` gives up with; `ε` are the errors of `Program::validate`. -/
inductive CliError (ε : Type) where
  | parse (e : Parser.ParseError)
  /-- "internal error: compiler produced invalid IR" -/
  | invalidIr (e : IrError)
  /-- "source must define a zero-argument `fn main() -> i64`" -/
  | noMain
  /-- "codegen error" -/
  | codegen (e : CodegenError)
  /-- "internal error: codegen produced an invalid mentat program" -/
  | invalidProgram (e : ε)
  /-- "internal error: the driver-wrapped program is invalid" -/
  | invalidDriver (e : ε)

/-- The places where it panics. -/
inductive CliPanic where
  | parser (p : Parser.ParserPanic)
  | codegen (p : CodegenPanic)
  /-- `function_entry["main"]` -/
  | mainMissing

abbrev CliM (ε : Type) (α : Type) : Type := Comp (CliError ε) CliPanic α

section Pipeline

variable {ε : Type} (validate : Program → Except ε Unit)

/-- `parse_and_validate`, from the text of the file on. -/
def parseAndValidate [Parser.Counter] [Parser.HasBackend] (source : String) : CliM ε Module := do
  let M ← (Parser.parse source).mapError (.map .parse .parser)
  (validateModule M).mapError fun e => .err (.invalidIr e)
  return M

/-- The blocks `compile_runnable` adds: one that calls `main`, and one that halts. -/
def withDriver (compiled : CompiledModule) (mainEntry : ℕ) : Program where
  blocks := compiled.program.blocks ++
    [⟨"chakobsac_driver", [⟨.loadI, STACK_PTR, 0, 0, STACK_BASE⟩, ⟨.call, 0, 0, 0, mainEntry⟩]⟩,
     ⟨"chakobsac_halt", [⟨.halt, 0, 0, 0, 0⟩]⟩]
  entry := compiled.program.blocks.length

def compileRunnable (M : Module) : CliM ε Program := do
  failIf ((M.function "main").map (·.params.length) ≠ some 0) (.err .noMain)
  let compiled ← (compileModule M).mapError (.map .codegen .codegen)
  (validate compiled.program).mapError fun e => .err (.invalidProgram e)
  let mainEntry ← Comp.expect .mainMissing (compiled.entryOf "main")
  let program := withDriver compiled mainEntry
  (validate program).mapError fun e => .err (.invalidDriver e)
  return program

/-- `load_or_compile` for a source. -/
def compileSource [Parser.Counter] [Parser.HasBackend] (source : String) : CliM ε Program := do
  let M ← parseAndValidate source
  compileRunnable validate M

/-- The same with values and blocks numbered as in the source. -/
def compileSource32 (source : String) : CliM ε Program :=
  @compileSource ε validate .u32 (@Parser.HasBackend.standard .u32) source

variable {validate} {source : String} {M : Module} {prog : Program}

theorem parseAndValidate_ok : (parseAndValidate source : CliM ε Module) = .ok M ↔
    Parser.parse source = .ok M ∧ validateModule M = .ok () := by
  simp only [parseAndValidate, bind_eq_ok, mapError_eq_ok]
  constructor
  · rintro ⟨_, hp, ⟨⟩, hv, ⟨⟩⟩
    exact ⟨hp, hv⟩
  · rintro ⟨hp, hv⟩
    exact ⟨M, hp, (), hv, rfl⟩

/-- A runnable program calls the `main` of the module, which has no parameters. -/
theorem compileRunnable_ok (h : compileRunnable validate M = .ok prog) :
    ∃ f c entry, M.function "main" = some f ∧ f.params = [] ∧ compileModule M = .ok c ∧
      c.entryOf "main" = some entry ∧ prog = withDriver c entry := by
  unfold compileRunnable at h
  obtain ⟨hmain, h⟩ := seq_eq_ok.mp h
  obtain ⟨c, hc, h⟩ := bind_eq_ok.mp h
  obtain ⟨-, h⟩ := seq_eq_ok.mp h
  obtain ⟨entry, hentry, h⟩ := bind_eq_ok.mp h
  obtain ⟨-, h⟩ := seq_eq_ok.mp h
  obtain ⟨f, hf, hparams⟩ := Option.map_eq_some_iff.mp (not_not.mp (failIf_eq_ok.mp hmain))
  exact ⟨f, c, entry, hf, List.length_eq_zero_iff.mp hparams, mapError_eq_ok.mp hc,
    Comp.expect_eq_ok.mp hentry, (Except.ok.inj h).symm⟩

/-- The blocks it adds are a driver. -/
theorem withDriver_drives (c : CompiledModule) (entry : ℕ) : Drives c (withDriver c entry) entry [] := by
  refine ⟨List.prefix_append _ _, by simp,
    ⟨⟨"chakobsac_driver", driverCode [] ++ [⟨.call, 0, 0, 0, (entry : ℤ)⟩]⟩, ?_, rfl⟩,
    ⟨⟨"chakobsac_halt", [⟨.halt, 0, 0, 0, 0⟩]⟩, ?_, rfl⟩⟩
  · exact List.getElem?_append_right (Nat.le_refl _) |>.trans (by simp [driverCode])
  · exact List.getElem?_append_right (Nat.le_succ _) |>.trans (by simp)

end Pipeline

/-! ### What the parser returns can be compiled -/

section Parsed

variable {source : String} {M : Module} {f : Function}

/-- Two functions of an accepted source have different names. -/
theorem parsed_names (h : Parser.parse source = .ok M) : (M.functions.map (·.name)).Nodup := by
  obtain ⟨P, hr⟩ := Parser.parse_ok h
  obtain ⟨hdist, hok⟩ := (Parser.parse_renders hr).mp h
  rw [Parser.names_of_elabFn (mapM_eq_ok.mp hok)]
  exact hdist.1

/-- A module the parser returns is compiled correctly if the spill slots of its functions are where
they belong. -/
theorem parsed_compilable (h : Parser.parse source = .ok M) (hvalid : validateModule M = .ok ())
    (hspills : SpillsInside M)
    (hrec : ∀ k f alloc, M.functions[k]? = some f → Relation.TransGen (Calls M) k k →
      allocate f (k * FUNCTION_REGION_BYTES) (reservedArgRegisters M) = .ok alloc → alloc.spills = []) :
    Compilable M := by
  refine ⟨hvalid, parsed_names h, fun f hf => ?_, fun f hf b hb c t e hterm => ?_, hspills, hrec⟩
  -- the entry block is the first block
  · obtain ⟨B, hB, rfl⟩ := Parser.parse_steady h hf
    obtain ⟨g, hg, rfl⟩ := hB.sound
    have hgraph := hg.ok.graph
    exact ⟨_, List.getElem?_eq_getElem hgraph.pos,
      (hgraph.indexed 0 _ (List.getElem?_eq_getElem hgraph.pos)).trans hgraph.entry.symm⟩
  · obtain ⟨B, hB, rfl⟩ := Parser.parse_steady h hf
    -- a target of a branch has one predecessor, and so no phi
    have hnone : ∀ s, s = t ∨ s = e → ¬ HasPhi B.func s := by
      rintro s hs ⟨target, htarget, i, hi, hphi⟩
      obtain ⟨hmem, rfl⟩ := Function.block_some htarget
      have hno := (hB.split b hb c t e hterm target hmem hs).2 i hi
      rw [hphi] at hno
      cases hno
    exact ⟨hnone t (.inl rfl), hnone e (.inr rfl)⟩

end Parsed

/-! ### What the machine does -/

/-- The machine ends with the value of the call in the result register, or as the call fails. -/
inductive Shown : Parser.EvalM RtValue → Result → Prop where
  | value (a : RtValue) : Shown (.ok a) (.value (word a))
  | divideByZero : Shown (.error (.err .divideByZero)) (.trap .divideByZero)

/-- The module stands between the program and the machine. -/
theorem Shown.between {x : Parser.EvalM RtValue} {r : InterpM (Option RtValue)} {res : Result}
    (hx : Parser.Reports x r) (hr : Agrees r res) : Shown x res := by
  match x, hx with
  | .ok a, hx =>
    obtain rfl : r = .ok (some a) := hx
    cases hr
    exact .value a
  | .error (.err .divideByZero), hx =>
    obtain rfl : r = .error (.err .divideByZero) := hx
    cases hr
    exact .divideByZero

/-- What a program reports is not a panic. -/
theorem not_panic_of_reports {x : Parser.EvalM RtValue} {r : InterpM (Option RtValue)}
    (h : Parser.Reports x r) (p : InterpPanic) : r ≠ .error (.panic p) := by
  rintro rfl
  match x, h with
  | .ok a, h => cases h
  | .error (.err e), h => cases h

section Runnable

variable {ε : Type} {validate : Program → Except ε Unit} {source : String} {P : Parser.Program}
  {M : Module} {prog : Program}

/-- **What `chakobsac` compiles does what the source says.** Where `main` ends in the source, the
machine ends with its value in the result register, or in the same division by zero, unless its
memory ends less than `n` frames behind the bottom of the stack, for an `n` that does not depend on
the machine. And where the machine ends, not for want of memory, `main` ends in the source. -/
theorem runnable_correct (hr : Parser.Renders source P)
    (hM : (parseAndValidate source : CliM ε Module) = .ok M)
    (hprog : compileRunnable validate M = .ok prog) (hsh : ∀ d ∈ P, d.unshadowed = true)
    (hspills : SpillsInside M)
    (hrec : ∀ k f alloc, M.functions[k]? = some f → Relation.TransGen (Calls M) k k →
      allocate f (k * FUNCTION_REGION_BYTES) (reservedArgRegisters M) = .ok alloc → alloc.spills = []) :
    (∀ x, Parser.Evaluates P "main" [] x → ∃ n, ∀ (m : MemorySize) (σ : Cells), STACK_BASE ≤ m.bytes →
      σ.Zero → ∃ res, Finishes (prog.next m) (prog.boot σ) res ∧
        (Shown x res ∨ res = .trap .outOfBounds ∧ m.bytes < STACK_BASE + FRAME_BYTES * n)) ∧
    ∀ (m : MemorySize) (σ : Cells) res, STACK_BASE ≤ m.bytes → σ.Zero →
      Finishes (prog.next m) (prog.boot σ) res → res ≠ .trap .outOfBounds →
      ∃ x, Parser.Evaluates P "main" [] x ∧ Shown x res := by
  obtain ⟨hp, hvalid⟩ := parseAndValidate_ok.mp hM
  obtain ⟨f, c, entry, hmain, hparams, hc, hentry, rfl⟩ := compileRunnable_ok hprog
  have hcomp := parsed_compilable hp hvalid hspills hrec
  have hread := Parser.Elaborated.of_parse hr hp hvalid hsh
  obtain ⟨hf, hname⟩ := Module.function_some hmain
  -- the declaration that `main` was read from
  obtain ⟨d, hd, hdname, hdparams⟩ : ∃ d ∈ P, d.name = "main" ∧ d.params = [] := by
    obtain ⟨d, hd, helab⟩ := related_of_mem_right hread.functions hf
    obtain ⟨hn, hps, -⟩ := Parser.elabFn_header helab
    exact ⟨d, hd, hn.symm.trans hname, hps.symm.trans hparams⟩
  obtain ⟨hto, hfrom⟩ := hread.preserves (Parser.wellFormed_of_parse hr hp)
    (Parser.returns_of_validate hvalid hread.functions) hd (show [].map RtValue.ty = _ by rw [hdparams]; rfl)
  rw [hdname, ← hname] at hto hfrom
  rw [← hname] at hentry ⊢
  have hxs : TypedArgs f [] := by
    rw [TypedArgs, hparams]
    rfl
  have hdrives := withDriver_drives c entry
  -- a run that panicked would be the result of an evaluation
  have hpanic : ∀ n p, run M n f.name [] ≠ .error (.panic p) := by
    intro n p hrun
    obtain ⟨x, -, hrep⟩ := hfrom _ ⟨by simp, n, hrun⟩
    exact not_panic_of_reports hrep p rfl
  constructor
  -- from the source over the module to the machine, with the fuel of the run as the number of frames
  · intro x hx
    obtain ⟨r, hrep, hne, n, hrun⟩ := hto x hx
    refine ⟨n, fun m σ hm hz => ?_⟩
    obtain ⟨res, hres, hagrees⟩ := compiled_run hcomp hc hf hentry hxs hdrives hm hz hrun hne
      fun p => not_panic_of_reports hrep p
    exact ⟨res, hres, hagrees.imp_left (Shown.between hrep)⟩
  -- and back
  · intro m σ res hm hz hres hmem
    obtain ⟨r, hruns, hagrees⟩ := compiled_only hcomp hc hf hentry hxs hdrives hm hz hpanic hres hmem
    obtain ⟨x, hx, hrep⟩ := hfrom r hruns
    exact ⟨x, hx, Shown.between hrep hagrees⟩

end Runnable

theorem runnable_correct_gcd : ∃ M prog,
    (parseAndValidate Parser.gcdSource : CliM Unit Module) = .ok M ∧
    compileRunnable (fun _ => (.ok () : Except Unit Unit)) M = .ok prog ∧
    ∃ n, ∀ (m : MemorySize) (σ : Cells), STACK_BASE + FRAME_BYTES * n ≤ m.bytes → σ.Zero →
      Finishes (prog.next m) (prog.boot σ) (.value 1) := by
  have hall : (parseAndValidate Parser.gcdSource : CliM Unit Module).toOption.map (fun M =>
      (compileRunnable (fun _ => (.ok () : Except Unit Unit)) M).toOption.isSome && decide (Unspilled M)) =
      some true := by decide +kernel
  obtain ⟨M, hM⟩ : ∃ M, (parseAndValidate Parser.gcdSource : CliM Unit Module) = .ok M := by
    refine exists_of_isSome ?_
    rw [← Option.isSome_map, hall]
    rfl
  rw [hM] at hall
  obtain ⟨hsome, hunspilled⟩ := Bool.and_eq_true_iff.mp (Option.some.inj hall)
  have hunspilled := of_decide_eq_true hunspilled
  obtain ⟨prog, hprog⟩ := exists_of_isSome hsome
  have heval : Parser.evalCall Parser.gcdProgram 10 "main" [] = .ok (.i64 1) := by decide +kernel
  obtain ⟨hforward, -⟩ := runnable_correct Parser.gcdSource_renders hM hprog (by decide)
    hunspilled.inside fun k f alloc hf _ halloc => hunspilled.spills hf halloc
  obtain ⟨n, hn⟩ := hforward (.ok (.i64 1)) ⟨by simp, 10, heval⟩
  refine ⟨M, prog, hM, hprog, n, fun m σ hm hz => ?_⟩
  obtain ⟨res, hres, hshown | ⟨-, hsmall⟩⟩ := hn m σ (Nat.le_trans (Nat.le_add_right _ _) hm) hz
  · cases hshown
    exact hres
  · exact absurd hsmall (Nat.not_lt.mpr hm)

/-! ### Totality -/

section Total

variable {ε : Type} (validate : Program → Except ε Unit) {M : Module}

/-- The entry of a function of a compiled module. -/
theorem exists_entryOf {c : CompiledModule} {f : Function} (hnames : (M.functions.map (·.name)).Nodup)
    (hc : compileModule M = .ok c) (hf : f ∈ M.functions) : ∃ entry, c.entryOf f.name = some entry := by
  obtain ⟨lowered, hlayout⟩ := compileModule_ok hc
  obtain ⟨k, hk⟩ := List.mem_iff_getElem?.mp hf
  refine ⟨start M k 0, ?_⟩
  rw [CompiledModule.entryOf, hlayout.entry]
  exact Pass1.moduleEntry hlayout.pass1 hnames hk

/-- Over natural numbers every text ends with a program or with a typed error: no slice cuts a
character, nothing is popped from an empty stack, no value, block, phi operand, location or entry is
missing, and no recursion goes on for ever. -/
theorem compileSource_total (source : String) : (compileSource validate source).Graceful := by
  refine Comp.Graceful.bind (.bind ((Parser.frontEnd_total source).2.map _ _) fun M _ => ?_) fun M hM => ?_
  · exact (Comp.Graceful.of_except _ _).bind fun _ _ => .ok
  · obtain ⟨hp, hvalid⟩ := parseAndValidate_ok.mp hM
    have hnames := parsed_names hp
    have hphis : ∀ f ∈ M.functions, PhisCover f := by
      intro f hf b hb incoming hin p hpred
      obtain ⟨defs, hv⟩ := validateFunction_ok_iff.mp ((validateModule_ok_iff.mp hvalid).1 f hf)
      have hblk := Function.block_of_mem hv.nodup hb
      exact (Parser.phi_perm_of_validate hp hvalid hf hblk hin).mem_iff.mpr hpred
    have hcompiled : (compileModule M).Graceful := compileModule_graceful hnames
      (fun f hf => validateFunction_ok_iff.mp ((validateModule_ok_iff.mp hvalid).1 f hf)) hphis
    refine (Comp.Graceful.failIf _ _).bind fun _ hmain => (hcompiled.map _ _).bind fun c hc => ?_
    refine (Comp.Graceful.of_except _ _).bind fun _ _ => ?_
    -- `main` has been found before
    obtain ⟨f, hf, -⟩ := Option.map_eq_some_iff.mp (not_not.mp (failIf_eq_ok.mp hmain))
    obtain ⟨hmem, hname⟩ := Module.function_some hf
    obtain ⟨entry, hentry⟩ := exists_entryOf hnames (mapError_eq_ok.mp hc) hmem
    rw [hname] at hentry
    rw [hentry]
    exact (Comp.Graceful.of_except _ _).bind fun _ _ => .ok

theorem compileSource32_limited {source : String} (hsize : source.utf8ByteSize < 2 ^ 31) :
    Comp.Limited (.parser (.builder .valueOverflow)) (Parser.Exhausting source)
      (compileSource32 validate source) (compileSource validate source) fun _ => True := by
  have hparse := (Parser.parse32_limited hsize).map (fun e => (.parse e : CliError ε)) CliPanic.parser
  have hboth : Comp.Limited (.parser (.builder .valueOverflow)) (Parser.Exhausting source)
      (@parseAndValidate ε .u32 (@Parser.HasBackend.standard .u32) source) (parseAndValidate source)
      fun _ => True := hparse.bind fun _ _ => .same fun _ _ => trivial
  exact hboth.bind fun _ _ => .same fun _ _ => trivial

/-- **`chakobsac` does not panic**, unless a builder runs out of its `2 ^ 32` values; and no source of
less than `2 ^ 16` bytes asks for so many. -/
theorem compileSource32_graceful {source : String} (hsize : source.utf8ByteSize < 2 ^ 31) :
    ((compileSource32 validate source).Graceful ∨
        compileSource32 validate source = Comp.panic (.parser (.builder .valueOverflow)) ∧
          Parser.Exhausting source) ∧
      (source.utf8ByteSize < 2 ^ 16 → (compileSource32 validate source).Graceful) := by
  have htotal := compileSource_total validate source
  have hlimited := compileSource32_limited validate hsize
  refine ⟨hlimited.graceful htotal, fun hshort => ?_⟩
  exact hlimited.eq (Parser.not_exhausting hshort) ▸ htotal

theorem compileSource32_graceful_gcd :
    (compileSource32 (fun _ => (.ok () : Except Unit Unit)) Parser.gcdSource).Graceful :=
  (compileSource32_graceful _ (by decide +kernel)).2 (by decide +kernel)

end Total

end Cli
end Chakobsa
