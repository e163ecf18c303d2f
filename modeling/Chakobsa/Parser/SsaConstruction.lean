import Chakobsa.Parser.SsaPaths

/-!
# SSA construction is correct

A `Session` is a builder together with the log of what its caller has done in each block.
`Disciplined` is the discipline of the parser: a block is written to as long as it has no
terminator, it gets one only if it can be reached from the entry, edges go to blocks that are not
sealed and never to the entry, and a block is sealed once.

A disciplined sequence of calls ends without a panic (`Session.Sound.calls`), and of the function it
builds `ssaConstruction` says what Braun et al. promise: a phi created by a read has one operand
for each predecessor, and the value a read returned denotes, on every path to the place of the
read, what was last written to the variable.
-/

namespace Chakobsa
namespace Parser

open Ir ExceptLemmas

/-- A call of the builder. -/
inductive Call where
  | newBlock
  | emit (b : BlockId) (ty : Ty) (kind : InstKind)
  | terminate (b : BlockId) (term : Terminator)
  | write (x : String) (b : BlockId) (v : ValueId)
  | read (x : String) (b : BlockId) (ty : Ty)
  | sealBlock (b : BlockId)
  deriving Repr

/-- A builder and what its caller has done in each block. -/
structure Session where
  builder : SsaBuilder
  log : BlockId → List Event

namespace Session

/-- `new`, with the parameters written in the entry block. -/
def new (name : String) (params : List (String × Ty)) (retTy : Option Ty) : Session where
  builder := SsaBuilder.new name params retTy
  log := fun b => if b = 0 then params.zipIdx.map fun p => .write p.1.1 p.2 else []

/-- Note an event in `b`. -/
def note (log : BlockId → List Event) (b : BlockId) (e : Event) : BlockId → List Event :=
  insertAt log b (log b ++ [e])

/-- One call. -/
def call (S : Session) : Call → BuildM Empty Session
  | .newBlock => return ⟨S.builder.newBlock.2, S.log⟩
  | .emit b ty kind => do
    let (v, B) ← S.builder.emit b ty kind
    return ⟨B, note S.log b (.inst ⟨v, ty, kind⟩)⟩
  | .terminate b term => do
    let B ← S.builder.terminate b term
    return ⟨B, S.log⟩
  | .write x b v => return ⟨S.builder.writeVariable x b v, note S.log b (.write x v)⟩
  | .read x b ty => do
    let (v, B) ← S.builder.read x b ty
    return ⟨B, note S.log b (.read x v ty)⟩
  | .sealBlock b => do
    let B ← S.builder.sealBlock b
    return ⟨B, S.log⟩

/-- A sequence of calls. -/
def calls : Session → List Call → BuildM Empty Session
  | S, [] => .ok S
  | S, c :: rest => do
    let S ← S.call c
    S.calls rest

/-- A block that can be written to. -/
def OpenBlock (S : Session) (b : BlockId) : Prop :=
  b < S.builder.func.blocks.length ∧ S.builder.isTerminated b = false

/-- The discipline of the parser for one call. -/
def Allowed (S : Session) : Call → Prop
  | .newBlock => True
  | .emit b _ _ => S.OpenBlock b
  | .terminate b term => S.OpenBlock b ∧ S.builder.Reach b ∧ ∀ s ∈ term.successors,
      s < S.builder.func.blocks.length ∧ s ≠ S.builder.func.entry ∧ S.builder.isSealed s = false
  | .write _ b _ => S.OpenBlock b
  | .read _ b _ => S.OpenBlock b
  | .sealBlock b => b < S.builder.func.blocks.length ∧ S.builder.isSealed b = false

/-- Every call respects the discipline in the state in which it is made. -/
def Disciplined : Session → List Call → Prop
  | _, [] => True
  | S, c :: rest => S.Allowed c ∧ ∀ S', S.call c = .ok S' → S'.Disciplined rest

/-- All blocks are terminated and sealed. -/
def Finished (S : Session) : Prop :=
  ∀ b < S.builder.func.blocks.length,
    S.builder.isTerminated b = true ∧ S.builder.isSealed b = true

end Session

section Calls

/-- A ghost state explains a session. -/
def Session.Sound (S : Session) : Prop :=
  ∃ g : Ghost, g.Exact ∧ g.builder = S.builder ∧ g.log = S.log

variable {S S' : Session} {c : Call} {l : List Call}

theorem Session.OpenBlock.term {g : Ghost} {b : BlockId} (hs : g.Sound)
    (h : Session.OpenBlock ⟨g.builder, g.log⟩ b) : b < g.size ∧ g.term b = none := by
  refine ⟨h.1, ?_⟩
  have := h.2
  rw [SsaBuilder.isTerminated_eq hs.ok.graph.indexed] at this
  simpa using this

/-- An allowed call ends, and leaves a state the invariant holds of. -/
theorem Session.Sound.call (h : S.Sound) (hc : S.Allowed c) :
    ∃ S', S.call c = .ok S' ∧ S'.Sound := by
  obtain ⟨g, hs, hB, hl⟩ := h
  obtain ⟨B, log⟩ := S
  obtain rfl : g.builder = B := hB
  obtain rfl : g.log = log := hl
  cases c with
  | newBlock => exact ⟨_, rfl, g.newBlock, hs.newBlock, rfl, rfl⟩
  | emit b ty kind =>
    obtain ⟨hb, ht⟩ := Session.OpenBlock.term hs.toSound hc
    obtain ⟨hok, hs', -, hsame⟩ := hs.toSound.emit (ε := Empty) hb ht ty kind
    exact ⟨⟨_, (g.emit b ty kind).log⟩, by simp [Session.call, hok, Session.note, Ghost.emit],
      _, hs.of_same hs' hsame.size hsame.term hsame.preds, rfl, rfl⟩
  | terminate b term =>
    obtain ⟨hopen, hr, hsucc⟩ := hc
    obtain ⟨hb, ht⟩ := Session.OpenBlock.term hs.toSound hopen
    have hs' : ∀ s ∈ term.successors, s < g.size ∧ s ≠ 0 ∧ g.builder.isSealed s = false := fun s hm =>
      ⟨(hsucc s hm).1, hs.ok.graph.entry ▸ (hsucc s hm).2.1, (hsucc s hm).2.2⟩
    obtain ⟨hok, -⟩ := hs.toSound.terminate (ε := Empty) hb hr hs'
    exact ⟨⟨_, g.log⟩, by simp [Session.call, hok], _, hs.terminate hb ht hr hs', rfl, rfl⟩
  | write x b v =>
    obtain ⟨hb, ht⟩ := Session.OpenBlock.term hs.toSound hc
    obtain ⟨hs', -, hsame⟩ := hs.toSound.write hb ht x v
    exact ⟨_, rfl, g.write x b v, hs.of_same hs' hsame.size hsame.term hsame.preds, rfl, rfl⟩
  | read x b ty =>
    obtain ⟨hb, ht⟩ := Session.OpenBlock.term hs.toSound hc
    obtain ⟨v, g', hok, hs', -, hsame, hlog, -⟩ := hs.toSound.read (ε := Empty) hb ht x ty
    exact ⟨⟨_, g'.log⟩, by simp [Session.call, hok, Session.note, hlog], g',
      hs.of_same hs' hsame.size hsame.term hsame.preds, rfl, rfl⟩
  | sealBlock b =>
    obtain ⟨g', hok, hs', -, hsize, hterm, hpreds, -, hlog, -⟩ :=
      hs.toSound.sealBlock (ε := Empty) hc.1 hc.2
    exact ⟨⟨_, g'.log⟩, by simp [Session.call, hok, hlog], g', hs.of_same hs' hsize hterm hpreds,
      rfl, rfl⟩

theorem Session.Disciplined.cons (ha : S.Allowed c) (hc : S.call c = .ok S')
    (hr : S'.Disciplined l) : S.Disciplined (c :: l) :=
  ⟨ha, fun _ h => Except.ok.inj (hc.symm.trans h) ▸ hr⟩

/-- A disciplined sequence of calls ends, and leaves a state the invariant holds of. -/
theorem Session.Sound.calls (h : S.Sound) (hd : S.Disciplined l) :
    ∃ S', S.calls l = .ok S' ∧ S'.Sound := by
  induction l generalizing S with
  | nil => exact ⟨S, rfl, h⟩
  | cons c l ih =>
    obtain ⟨S₁, hok, hs₁⟩ := h.call hd.1
    obtain ⟨S', hok', hs'⟩ := ih hs₁ (hd.2 S₁ hok)
    exact ⟨S', by simp [Session.calls, hok, hok'], hs'⟩

end Calls

/-- A phi created by a read has one operand for each predecessor of its block (for each edge, so
that a branch with both targets equal counts twice). -/
def PhisComplete (f : Function) (log : BlockId → List Event) : Prop :=
  ∀ b, ∀ i ∈ readPhis f log b, ∃ incoming, i.kind = .phi incoming ∧
    (incoming.map Prod.fst).Perm (f.predecessors b)

/-- On every path to the place of a read, the value the builder returned denotes what was last
written to the variable on the path. -/
def ReadsDenote (f : Function) (log : BlockId → List Event) : Prop :=
  ∀ (α : Type) (fresh : List BlockId → ValueId → α) (π : List BlockId) (b : BlockId), f.Walk π b →
    ∀ l x v ty r, log b = l ++ .read x v ty :: r →
      ∃ a, (afterEvents f log fresh π b l).store x = some a ∧
        (afterEvents f log fresh π b l).env v = some a

/-- In a session begun with `new` and continued by a disciplined sequence of calls no call panics. If
all blocks are finished at the end, the phis are complete; and if also variables are read only where
they have been written and the values written are defined there, the reads are right. -/
theorem ssaConstruction (name : String) (params : List (String × Ty)) (retTy : Option Ty)
    (calls : List Call) (hd : (Session.new name params retTy).Disciplined calls) :
    ∃ S, (Session.new name params retTy).calls calls = .ok S ∧
      (S.Finished → PhisComplete S.builder.func S.log ∧
        (ReadsAssigned S.builder.func S.log → WritesAvailable S.builder.func S.log →
          ReadsDenote S.builder.func S.log)) := by
  have hnew : (Session.new name params retTy).Sound :=
    ⟨Ghost.new name params retTy, .new name params retTy, rfl, rfl⟩
  obtain ⟨S, hok, g, hs, hB, hl⟩ := hnew.calls hd
  refine ⟨S, hok, fun hfin => ?_⟩
  obtain ⟨B, log⟩ := S
  obtain rfl : g.builder = B := hB
  obtain rfl : g.log = log := hl
  have hall : g.AllSealed := fun b hb => (hfin b hb).2
  refine ⟨fun b i hi => ⟨_, hs.readPhi_perm hall hi⟩,
    fun hreads hwrites α fresh π b hw l x v ty r hlog => ?_⟩
  exact readDenotes hs hall hreads hwrites hw hlog

/-! ### A loop -/

/-- A builder for `f(x, y)`. -/
def loopStart : Session := Session.new "f" [("x", .i64), ("y", .i64)] (some .i64)

/-- `while x < y { x = 5; } return x;`, as the parser builds it. -/
def loopCalls : List Call :=
  [.newBlock, .newBlock, .newBlock, .terminate 0 (.jump 1), .read "x" 1 .i64, .read "y" 1 .i64,
    .emit 1 .bool (.bin .cmpLt 2 3), .terminate 1 (.branch 4 2 3), .sealBlock 2, .sealBlock 3,
    .emit 2 .i64 (.constI64 5), .write "x" 2 5, .terminate 2 (.jump 1), .sealBlock 1,
    .read "x" 3 .i64, .terminate 3 (.ret (some 2))]

/-- What has been done in each block then. -/
def loopLog : BlockId → List Event
  | 0 => [.write "x" 0, .write "y" 1]
  | 1 => [.read "x" 2 .i64, .read "y" 3 .i64, .inst ⟨4, .bool, .bin .cmpLt 2 3⟩]
  | 2 => [.inst ⟨5, .i64, .constI64 5⟩, .write "x" 5]
  | 3 => [.read "x" 2 .i64]
  | _ => []

theorem loopCalls_disciplined : loopStart.Disciplined loopCalls :=
  .cons trivial rfl <| .cons trivial rfl <| .cons trivial rfl <|
  .cons ⟨⟨by decide, rfl⟩, ⟨[], .start⟩, by decide⟩ rfl <|
  .cons ⟨by decide, rfl⟩ rfl <| .cons ⟨by decide, rfl⟩ rfl <| .cons ⟨by decide, rfl⟩ rfl <|
  .cons ⟨⟨by decide, rfl⟩, ⟨[0], .step .start (by decide)⟩, by decide⟩ rfl <|
  .cons ⟨by decide, rfl⟩ rfl <| .cons ⟨by decide, rfl⟩ rfl <|
  .cons ⟨by decide, rfl⟩ rfl <| .cons ⟨by decide, rfl⟩ rfl <|
  .cons ⟨⟨by decide, rfl⟩,
    ⟨[1, 0], .step (.step .start (by decide)) (by decide)⟩, by decide⟩ rfl <|
  .cons ⟨by decide, rfl⟩ rfl <| .cons ⟨by decide, rfl⟩ rfl <|
  .cons ⟨⟨by decide, rfl⟩,
    ⟨[1, 0], .step (.step .start (by decide)) (by decide)⟩, by decide⟩ rfl trivial

theorem loopCalls_result {S : Session} (h : loopStart.calls loopCalls = .ok S) :
    S.log = loopLog ∧ S.builder.func.entry = 0 ∧ S.builder.func.params.length = 2 ∧
      S.builder.func.instsAt 2 = [⟨5, .i64, .constI64 5⟩] ∧ S.Finished := by
  have hS : S = _ := Except.ok.inj (h.symm.trans rfl)
  subst hS
  refine ⟨funext fun b => ?_, rfl, rfl, rfl, ?_⟩
  · match b with
    | 0 | 1 | 2 | 3 => rfl
    | b + 4 => rfl
  · show ∀ b < 4, _
    decide

theorem ssaConstruction_loop : ∃ S, loopStart.calls loopCalls = .ok S ∧
    PhisComplete S.builder.func S.log ∧ ReadsDenote S.builder.func S.log := by
  obtain ⟨S, hok, h⟩ := ssaConstruction "f" [("x", .i64), ("y", .i64)] (some .i64) loopCalls
    loopCalls_disciplined
  obtain ⟨hlog, hentry, hparams, hinsts, hfin⟩ := loopCalls_result hok
  have hroot : ∀ π b, S.builder.func.Walk π b → b ≠ 0 → 0 ∈ π := by
    intro π b hw hb
    have := Dominates.of_root b π hw
    rw [hentry] at this
    exact (List.mem_cons.mp this).resolve_left (Ne.symm hb)
  obtain ⟨hphis, hreads⟩ := h hfin
  refine ⟨S, hok, hphis, hreads (fun π b hw l x v ty r hl => ?_) (fun π b hw l x w r hl => ?_)⟩
  · -- both variables have been written in the entry block
    rw [hlog] at hl ⊢
    have hmem : Event.read x v ty ∈ loopLog b := by rw [hl]; simp
    obtain ⟨hb, hx⟩ : b ≠ 0 ∧ (x = "x" ∨ x = "y") := by
      match b with
      | 0 | 2 | b + 4 => simp [loopLog] at hmem
      | 1 | 3 =>
        simp only [loopLog, List.mem_cons, Event.read.injEq] at hmem
        exact ⟨by decide, by tauto⟩
    exact .inr ⟨0, hroot π b hw hb, by rcases hx with rfl | rfl <;> simp [loopLog]⟩
  · rw [hlog] at hl ⊢
    have hmem : Event.write x w ∈ loopLog b := by rw [hl]; simp
    match b with
    | 0 =>
      rcases (by simpa [loopLog] using hmem : x = "x" ∧ w = 0 ∨ x = "y" ∧ w = 1) with h | h
      · exact .inl (by rw [h.2, hparams]; decide)
      · exact .inl (by rw [h.2, hparams]; decide)
    | 2 =>
      -- the constant is emitted in the block itself
      obtain ⟨rfl, rfl⟩ : x = "x" ∧ w = 5 := by simpa [loopLog] using hmem
      refine .inr (.inr ⟨⟨5, .i64, .constI64 5⟩, by simp [hinsts], rfl, fun _ => ?_⟩)
      cases l with
      | nil => simp [loopLog] at hl
      | cons e l =>
        obtain rfl := (List.cons.inj hl).1
        simp [mem_instsOf]
    | 1 | 3 | b + 4 => simp [loopLog] at hmem

end Parser
end Chakobsa
