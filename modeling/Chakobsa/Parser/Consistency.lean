import Chakobsa.Parser.Watched
import Chakobsa.Parser.Totality
import Chakobsa.Parser.Extents
import Chakobsa.Ir.Validate

/-!
# Functions and modules over other builder calls

`Chakobsa.Parser.Watched` is about the body of one function from a settled context. Here it is carried
to whole functions, which begin in such a context (`Settled.new`), and from there to modules.

There are two consequences. No look-up of the parser is lost, whatever the tokens are: with any
other computation in the places where one would be, the parser does the same (`parse_lookups`). And
the two targets of a branch have no other predecessor and no phis (`parse_split`), because the
parser jumps to new blocks and seals the targets of a branch at once.
-/

namespace Chakobsa
namespace Parser

open Ir Lexer FnContext ExceptLemmas

/-! ### Functions -/

section Function

variable {K : Backend} {A : Prop} {n : ℕ} {sigs : Sigs} {toks toks' : List Token} {f : Function}
  {B : SsaBuilder}

theorem cursor_congr {α β : Type} {x : CursorM α} {f' f : α → CursorM β}
    (h : ∀ a toks', x toks = .ok (a, toks') → f' a toks' = f a toks') :
    (x >>= f') toks = (x >>= f) toks := by
  show (x toks >>= fun r => f' r.1 r.2) = (x toks >>= fun r => f r.1 r.2)
  cases hx : x toks with
  | error e => rfl
  | ok r => exact h r.1 r.2 hx

theorem cursor_bind_congr {α β : Type} {x' x : CursorM α} {f : α → CursorM β}
    (h : x' toks = x toks) : (x' >>= f) toks = (x >>= f) toks := by
  show (x' toks >>= fun r => f r.1 r.2) = (x toks >>= fun r => f r.1 r.2)
  rw [h]

/-- A name among the parameters is bound in the entry block. -/
theorem currentDef_param {params : List (String × Ty)} {x : String}
    (h : (params.reverse.find? fun p => p.1 == x).isSome) (name : String) (retTy : Option Ty) :
    (SsaBuilder.new name params retTy).currentDef 0 x ≠ none := by
  rw [List.find?_isSome] at h
  obtain ⟨p, hp, hx⟩ := h
  obtain ⟨i, hi, rfl⟩ := List.getElem_of_mem (List.mem_reverse.mp hp)
  have hfind : (params.zipIdx.reverse.find? fun p => p.1.1 == x).isSome := by
    rw [List.find?_isSome]
    exact ⟨(params[i], i), by simp [List.mem_zipIdx_iff_getElem?], hx⟩
  obtain ⟨q, hq⟩ := Option.isSome_iff_exists.mp hfind
  simp [SsaBuilder.new, hq]

/-- A function begins with its parameters known in the entry block. -/
theorem FnContext.Settled.new (h : FnHeader) (sigs : Sigs) : (FnContext.new h sigs).Settled := by
  have ht := Tame.new h sigs
  have hterm : ∀ p, (FnContext.new h sigs).builder.func.termAt p = none :=
    termAt_new h.name h.params h.retTy
  refine ⟨ht, ⟨ht.sound, fun c e he => absurd he List.not_mem_nil, ⟨fun p t hp => ?_,
    fun p k s₁ s₂ hp => ?_⟩⟩, fun x ty hx => .here (currentDef_param ?_ h.name h.retTy)⟩
  · exact absurd ((hterm p).symm.trans hp) (Option.some_ne_none t).symm
  · exact absurd ((hterm p).symm.trans hp) (Option.some_ne_none _).symm
  · cases hfind : h.params.reverse.find? fun p => p.1 == x with
    | some p => rfl
    | none => simp [lookupVar, FnContext.new, hfind] at hx

/-- `parse_function`, with its builder as it is at `finish`. -/
def parseBuilder (n : ℕ) (sigs : Sigs) : CursorM SsaBuilder := do
  let h ← parseFnHeader n
  let ((), ctx) ← parseBlockBody n (FnContext.new h sigs)
  return ctx.builder

theorem parseBuilder_ok : parseBuilder n sigs toks = .ok (B, toks') ↔
    ∃ h toks₁ ctx, parseFnHeader n toks = .ok (h, toks₁) ∧
      parseBlockBody n (FnContext.new h sigs) toks₁ = .ok (((), ctx), toks') ∧ B = ctx.builder := by
  rw [parseBuilder, cursor_bind]
  refine exists_congr fun h => exists_congr fun toks₁ => ?_
  rw [cursor_bind]
  constructor
  · rintro ⟨hheader, ⟨⟨⟩, ctx⟩, toks₂, hbody, hret⟩
    obtain ⟨rfl, rfl⟩ := cursor_pure.mp hret
    exact ⟨ctx, hheader, hbody, rfl⟩
  · rintro ⟨ctx, hheader, hbody, rfl⟩
    exact ⟨hheader, ((), ctx), toks', hbody, rfl⟩

/-- The function of the builder is what `parse_function` returns. -/
theorem parseFunction_ok (h : parseFunction n sigs toks = .ok (f, toks')) :
    ∃ B, parseBuilder n sigs toks = .ok (B, toks') ∧ f = B.func := by
  obtain ⟨hd, toks₁, hheader, h₁⟩ := cursor_bind.mp h
  obtain ⟨⟨⟨⟩, ctx⟩, toks₂, hbody, hret⟩ := cursor_bind.mp h₁
  obtain ⟨rfl, rfl⟩ := cursor_pure.mp hret
  exact ⟨ctx.builder, parseBuilder_ok.mpr ⟨hd, toks₁, ctx, hheader, hbody, rfl⟩, rfl⟩

/-- A function over a backend that follows the builder. -/
theorem Backend.Follows.parseFunction (hK : K.Follows A) (n : ℕ) (sigs : Sigs) (toks : List Token) :
    (K.parseFunction n sigs toks = Parser.parseFunction n sigs toks ∨
      A ∧ ∀ B toks', parseBuilder n sigs toks = .ok (B, toks') → B.Broken) ∧
    ∀ B toks', parseBuilder n sigs toks = .ok (B, toks') → B.Steady := by
  have hwatch := fun h => watches_block hK n (Settled.new h sigs) rfl
  constructor
  · by_cases hbroken : A ∧ ∀ B toks', parseBuilder n sigs toks = .ok (B, toks') → B.Broken
    · exact .inr hbroken
    refine .inl (cursor_congr fun h toks₁ hheader => cursor_bind_congr ?_)
    refine (hwatch h toks₁).1.resolve_right fun ⟨hA, hlost⟩ => hbroken ⟨hA, fun B toks' hB => ?_⟩
    obtain ⟨h', toks₁', ctx, hheader', hbody, rfl⟩ := parseBuilder_ok.mp hB
    obtain ⟨rfl, rfl⟩ := Prod.mk.inj (Except.ok.inj (hheader'.symm.trans hheader))
    exact hlost () ctx toks' hbody
  · intro B toks' hB
    obtain ⟨h, toks₁, ctx, -, hbody, rfl⟩ := parseBuilder_ok.mp hB
    exact ((hwatch h toks₁).2 () ctx toks' hbody).1.settled.steady

/-- The whole parser, over a backend that never parts from the builder. -/
theorem Backend.Follows.parseFunctions (hK : K.Follows False) (n : ℕ) (sigs : Sigs)
    (starts : List (List Token)) (toks : List Token) :
    K.parseFunctions n sigs starts toks = Parser.parseFunctions n sigs starts toks := by
  induction starts generalizing toks with
  | nil => rfl
  | cons start starts ih =>
    have hset : ∀ β (x : CursorM β), ((set start : CursorM Unit) >>= fun _ => x) toks = x start :=
      fun _ _ => rfl
    refine (hset _ _).trans (Eq.trans ?_ (hset _ _).symm)
    refine (cursor_bind_congr ?_).trans (cursor_congr fun f toks' _ => cursor_bind_congr (ih toks'))
    exact (hK.parseFunction n sigs start).1.resolve_right And.left

theorem Backend.Follows.parseModule (hK : K.Follows False) (n : ℕ) (toks : List Token) :
    K.parseModule n toks = Parser.parseModule n toks := by
  refine cursor_congr fun p toks' _ => cursor_bind_congr ?_
  exact hK.parseFunctions n p.1 p.2 toks'

end Function

/-! ### Look-ups -/

/-- The builder with something else in the places where a look-up would be lost: in the arm for a
sealed block without predecessors, and where the recursion does not end. -/
def Backend.strict (other : SsaBuilder → BlockId → BuildM ParseError (ValueId × SsaBuilder)) :
    Backend where
  terminate := Parser.terminate
  sealBlock := fun b => build fun B => do return ((), ← B.strictSeal other b)
  readVariable := fun x b ty => build fun B => SsaBuilder.strictRead other x ty B.readFuel B b

theorem Backend.strict_follows
    (other : SsaBuilder → BlockId → BuildM ParseError (ValueId × SsaBuilder)) :
    (Backend.strict other).Follows False where
  terminate := fun _ => rfl
  again := fun _ _ _ => .inl rfl
  sealBlock := by
    intro ctx b hs hb hnot hg
    obtain ⟨B', hok, -⟩ := hs.sealBlock (ε := ParseError) hb hnot
    have hstrict := (SsaBuilder.seal_strict other hs hg hok).1
    have hrun : (do return ((), ← ctx.builder.strictSeal other b)) = Except.ok ((), B') := by
      rw [hstrict]
      rfl
    exact (build_run (f := fun B => do return ((), ← B.strictSeal other b)) hrun).trans
      (sealBlock_run hok).symm
  readVariable := by
    intro ctx x b ty hs hb ho hr hx
    obtain ⟨v, B', hok, -⟩ := hs.read (ε := ParseError) hb ho x ty
    have hstrict := (SsaBuilder.read_strict other hs hr hx hok).1
    exact (build_run (f := fun B => SsaBuilder.strictRead other x ty B.readFuel B b) hstrict).trans
      (build_run (f := fun B => B.read x b ty) hok).symm

/-- Whatever is done in these places, and whatever the tokens are, the parser does the same: no
look-up of the parser, and none that seals a block, is ever lost. -/
theorem parse_lookups (other : SsaBuilder → BlockId → BuildM ParseError (ValueId × SsaBuilder))
    (n : ℕ) (toks : List Token) :
    (Backend.strict other).parseModule n toks = parseModule n toks :=
  (Backend.strict_follows other).parseModule n toks

/-! ### Branches -/

/-- Every target of a branch has one predecessor, and no phis. -/
def Split (f : Function) : Prop :=
  ∀ blk ∈ f.blocks, ∀ c s₁ s₂, blk.terminator = some (.branch c s₁ s₂) →
    ∀ target ∈ f.blocks, target.id = s₁ ∨ target.id = s₂ →
      f.predecessors target.id = [blk.id] ∧ ∀ i ∈ target.instructions, i.kind.isPhi = false

/-- A function whose blocks other than `p` do not enter `b`. -/
theorem predecessors_only {f : Function} (hi : f.Indexed) {p b : BlockId}
    (hp : p < f.blocks.length) (hone : (succsOfTerm (f.termAt p)).filter (· == b) = [b])
    (honly : ∀ q ∈ f.predecessors b, q = p) : f.predecessors b = [p] := by
  have hother : ∀ q < f.blocks.length, q ≠ p → (succsOfTerm (f.termAt q)).filter (· == b) = [] := by
    intro q hq hne
    rw [List.filter_eq_nil_iff]
    intro s hs hsb
    obtain rfl := eq_of_beq hsb
    exact hne (honly q (hi.mem_predecessors.mpr ⟨hq, hs⟩))
  rw [hi.predecessors_eq]
  obtain ⟨l₁, l₂, hl⟩ := List.append_of_mem (List.mem_range.mpr hp)
  have hnd : (l₁ ++ p :: l₂).Nodup := hl ▸ List.nodup_range
  have hnil : ∀ l : List ℕ, (∀ q ∈ l, q ∈ List.range f.blocks.length ∧ q ≠ p) →
      l.flatMap (fun q => ((succsOfTerm (f.termAt q)).filter (· == b)).map fun _ => q) = [] := by
    intro l hsub
    rw [List.flatMap_eq_nil_iff]
    intro q hq
    rw [hother q (List.mem_range.mp (hsub q hq).1) (hsub q hq).2]
    rfl
  obtain ⟨-, hnd₂, hdisj⟩ := List.nodup_append.mp hnd
  rw [hl, List.flatMap_append, List.flatMap_cons, hone, hnil l₁, hnil l₂]
  · rfl
  · exact fun q hq => ⟨hl ▸ by simp [hq], fun h => (List.nodup_cons.mp hnd₂).1 (h ▸ hq)⟩
  · exact fun q hq => ⟨hl ▸ by simp [hq], hdisj q hq p (by simp)⟩

/-- The builder leaves such functions. -/
theorem SsaBuilder.Steady.split {B : SsaBuilder} (h : B.Steady) : Split B.func := by
  intro blk hblk c s₁ s₂ hterm target htarget hs
  have hi := h.sound.indexed
  obtain ⟨k, hk⟩ := List.getElem?_of_mem hblk
  obtain ⟨m, hm⟩ := List.getElem?_of_mem htarget
  have hkt : B.func.termAt blk.id = some (.branch c s₁ s₂) := by
    rw [hi k blk hk, Function.termAt, hk]
    exact hterm
  have hmi : B.func.instsAt target.id = target.instructions := by
    rw [hi m target hm, Function.instsAt, hm]
    rfl
  have hlt : blk.id < B.func.blocks.length := by
    rw [hi k blk hk]
    exact (List.getElem?_eq_some_iff.mp hk).1
  obtain ⟨hne, hno₁, hno₂⟩ := h.forked.fork _ _ _ _ hkt
  have hmem : target.id ∈ (Terminator.branch c s₁ s₂).successors := by
    simpa [Terminator.successors] using hs
  have hno : B.NoPhis target.id := hs.elim (fun h => h ▸ hno₁) fun h => h ▸ hno₂
  obtain ⟨-, ⟨p, hp⟩, hphi⟩ := hno
  -- the edge of the branch is the recorded one
  obtain rfl : p = blk.id := by
    have hrec := h.forked.recorded _ _ hkt _ hmem
    rw [hp] at hrec
    exact (List.mem_singleton.mp hrec).symm
  refine ⟨predecessors_only hi hlt ?_ fun q hq => ?_, hmi ▸ hphi⟩
  · rw [hkt]
    show [s₁, s₂].filter (· == target.id) = [target.id]
    rcases hs with h₁ | h₂
    · simp [h₁, hne.symm]
    · simp [h₂, hne]
  · obtain ⟨hqlt, hsucc⟩ := hi.mem_predecessors.mp hq
    cases hqt : B.func.termAt q with
    | none => simp [hqt, succsOfTerm] at hsucc
    | some t =>
      have hrec := h.forked.recorded q t hqt target.id (by simpa [hqt, succsOfTerm] using hsucc)
      rw [hp] at hrec
      exact List.mem_singleton.mp hrec

/-- The functions of an accepted source are what `parse_function` returns. -/
theorem parse_function_of_mem {source : String} {M : Module} (h : parse source = .ok M)
    {f : Function} (hf : f ∈ M.functions) :
    ∃ n sigs start rest, parseFunction n sigs start = .ok (f, rest) := by
  obtain ⟨toks, -, h₁⟩ := bind_eq_ok.mp h
  obtain ⟨⟨M', toks'⟩, hM, hret⟩ := bind_eq_ok.mp h₁
  obtain rfl := Except.ok.inj hret
  obtain ⟨⟨sigs, starts⟩, toks₁, -, h₂⟩ := cursor_bind.mp hM
  obtain ⟨fs, toks₂, hfs, hret⟩ := cursor_bind.mp h₂
  obtain ⟨rfl, -⟩ := cursor_pure.mp hret
  obtain ⟨start, -, rest, hfn⟩ := related_of_mem_right (parseFunctions_forall₂ hfs) hf
  exact ⟨_, sigs, start, rest, hfn⟩

/-- The targets of the branches of a parsed function have one predecessor and no phis. -/
theorem parse_split {source : String} {M : Module} (h : parse source = .ok M) :
    ∀ f ∈ M.functions, Split f := by
  intro f hf
  obtain ⟨n, sigs, start, rest, hfn⟩ := parse_function_of_mem h hf
  obtain ⟨B, hB, rfl⟩ := parseFunction_ok hfn
  exact ((Backend.strict_follows fun _ _ => .error .outOfFuel).parseFunction n sigs start).2 B rest hB
    |>.split

/-- Counting up to 9, in steps of 2 from 5 on. -/
def stepsSource : String :=
  "fn f(n: i64) -> i64 \x7b while n < 9 \x7b if 5 < n \x7b n = n + 1; \x7d n = n + 1; \x7d return n; \x7d"

theorem parse_split_steps :
    ∃ M, parse stepsSource = .ok M ∧ validateModule M = .ok () ∧ ∀ f ∈ M.functions, Split f := by
  have hparse : (parse stepsSource).toOption.map validateModule = some (.ok ()) := by decide +kernel
  cases h : parse stepsSource with
  | ok M =>
    rw [h] at hparse
    exact ⟨M, rfl, Option.some.inj hparse, parse_split h⟩
  | error e =>
    rw [h] at hparse
    cases hparse

end Parser
end Chakobsa
