import Chakobsa.Parser.Capacity
import Chakobsa.Parser.LoopHeaders
import Chakobsa.Parser.StaticSemantics

/-!
# A source that the numbers of 32 bits are not enough for

A variable that is read after `n` loops, and in none of them, gets a phi in the header of each
(`Unread.read`). So `n` empty loops, and then one reading of each of `m` parameters, make `n * m`
values out of `n + m` statements, and `parse32` runs out of values on a source whose size is far
below `2 ^ 31` bytes.
-/

namespace Chakobsa
namespace Parser

open Ir Lexer ExceptLemmas FnContext

/-! ### Look-ups through loops -/

namespace SsaBuilder

/-- Before block `b` there are `n` loops, one after the other, and no block of theirs has a value
of `x`, as far as a look-up in `b` comes. -/
inductive Unread (B : SsaBuilder) (x : String) : ℕ → BlockId → Prop where
  | here {b : BlockId} : Unread B x 0 b
  | loop {n : ℕ} {before header body exit : BlockId} :
      before < header → header < exit → B.isSealed header = true → B.isSealed exit = true →
      B.preds header = [before, body] → B.preds exit = [header] → B.currentDef header x = none →
      B.currentDef exit x = none → Unread B x n before → Unread B x (n + 1) exit

/-- What a look-up of `x` leaves alone. -/
structure Looked (x : String) (B B' : SsaBuilder) : Prop where
  given : B.given ≤ B'.given
  preds : B'.preds = B.preds
  isSealed : B'.isSealed = B.isSealed
  others : ∀ c y, y ≠ x → B'.currentDef c y = B.currentDef c y

section Looked

variable {ε : Type} {B B' B'' : SsaBuilder} {b : BlockId} {x : String} {u : ValueId} {n : ℕ} {ty : Ty}
  {kind : InstKind}

theorem Looked.refl : Looked x B B := ⟨Nat.le_refl _, rfl, rfl, fun _ _ _ => rfl⟩

theorem Looked.trans (h : Looked x B B') (h' : Looked x B' B'') : Looked x B B'' :=
  ⟨h.given.trans h'.given, h'.preds.trans h.preds, h'.isSealed.trans h.isSealed, fun c y hy =>
    (h'.others c y hy).trans (h.others c y hy)⟩

theorem Looked.write : Looked x B (B.writeVariable x b u) := by
  refine ⟨Nat.le_refl _, rfl, rfl, fun c y hy => ?_⟩
  show insertAt B.currentDef b (insertAt (B.currentDef b) x (some u)) c y = _
  by_cases hc : c = b
  · rw [insertAt, if_pos hc, insertAt, if_neg hy, hc]
  · rw [insertAt, if_neg hc]

theorem Looked.blockMut {g : BasicBlock → BasicBlock} (hok : (B.blockMut b g : BuildM ε _) = .ok B') :
    Looked x B B' := by
  obtain ⟨blocks, -, hret⟩ := bind_eq_ok.mp hok
  obtain rfl := Except.ok.inj hret
  exact ⟨Nat.le_refl _, rfl, rfl, fun _ _ _ => rfl⟩

theorem emit_looked (hok : (B.emit b ty kind : BuildM ε _) = .ok (u, B')) :
    B'.given = B.given + 1 ∧ B'.preds = B.preds ∧ B'.isSealed = B.isSealed ∧
      B'.currentDef = B.currentDef := by
  obtain ⟨next, hnext, hok⟩ := bind_eq_ok.mp hok
  obtain ⟨B₁, h₁, hret⟩ := bind_eq_ok.mp hok
  obtain ⟨blocks, -, hblocks⟩ := bind_eq_ok.mp h₁
  obtain rfl := Except.ok.inj hblocks
  obtain ⟨-, rfl⟩ := Prod.mk.inj (Except.ok.inj hret)
  exact ⟨(Except.ok.inj hnext).symm, rfl, rfl, rfl⟩

theorem Looked.emit (hok : (B.emit b ty kind : BuildM ε _) = .ok (u, B')) : Looked x B B' := by
  obtain ⟨hgiven, hpreds, hsealed, hdef⟩ := emit_looked hok
  exact ⟨hgiven ▸ Nat.le_succ _, hpreds, hsealed, fun _ _ _ => by rw [hdef]⟩

/-- A reader that looks up `x`. -/
def ReadsOnly (x : String) (read : SsaBuilder → BlockId → BuildM ε (ValueId × SsaBuilder)) : Prop :=
  ∀ B b r, read B b = .ok r → Looked x B r.2

theorem ReadsOnly.preds {read : SsaBuilder → BlockId → BuildM ε (ValueId × SsaBuilder)}
    (hread : ReadsOnly x read) {ps : List BlockId} {r : List (BlockId × ValueId) × SsaBuilder}
    (hok : readPreds read B ps = .ok r) : Looked x B r.2 := by
  induction ps generalizing B r with
  | nil =>
    obtain rfl := Except.ok.inj hok
    exact .refl
  | cons p ps ih =>
    obtain ⟨⟨v, B₁⟩, h₁, hok⟩ := bind_eq_ok.mp hok
    obtain ⟨⟨incoming, B₂⟩, h₂, hok⟩ := bind_eq_ok.mp hok
    obtain rfl := Except.ok.inj hok
    exact (hread B p _ h₁).trans (ih (r := (incoming, B₂)) h₂)

theorem ReadsOnly.operands {read : SsaBuilder → BlockId → BuildM ε (ValueId × SsaBuilder)}
    (hread : ReadsOnly x read) (hok : addPhiOperands read B u b = .ok B') : Looked x B B' := by
  obtain ⟨⟨incoming, B₁⟩, h₁, hok⟩ := bind_eq_ok.mp hok
  obtain ⟨blk, -, hok⟩ := bind_eq_ok.mp hok
  obtain ⟨insts, -, hok⟩ := bind_eq_ok.mp hok
  exact (hread.preds h₁).trans (.blockMut hok)

theorem readsOnly (x : String) (ty : Ty) (n : ℕ) :
    ReadsOnly x (readVariable x ty n : _ → _ → BuildM ε _) := by
  induction n with
  | zero => exact fun B b r hok => nomatch hok
  | succ n ih =>
    intro B b r hok
    rw [readVariable] at hok
    split at hok
    · obtain rfl := Except.ok.inj hok
      exact .refl
    · unfold readVariableRecursive at hok
      dsimp only at hok
      -- whether the block is sealed, and how many predecessors it has
      split at hok
      · obtain ⟨⟨phi, B₁⟩, h₁, hok⟩ := bind_eq_ok.mp hok
        obtain rfl := Except.ok.inj hok
        have hemit : Looked x B B₁ := .emit h₁
        have hpark : Looked x B (B₁.park b x phi) :=
          ⟨hemit.given, hemit.preds, hemit.isSealed, hemit.others⟩
        exact hpark.trans .write
      · split at hok
        · obtain ⟨⟨phi, B₁⟩, h₁, hok⟩ := bind_eq_ok.mp hok
          obtain rfl := Except.ok.inj hok
          exact (Looked.emit h₁).trans .write
        · obtain ⟨⟨v, B₁⟩, h₁, hok⟩ := bind_eq_ok.mp hok
          obtain rfl := Except.ok.inj hok
          exact (ih _ _ _ h₁).trans .write
        · obtain ⟨⟨phi, B₁⟩, h₁, hok⟩ := bind_eq_ok.mp hok
          obtain ⟨B₂, h₂, hok⟩ := bind_eq_ok.mp hok
          obtain rfl := Except.ok.inj hok
          exact (Looked.emit h₁).trans (Looked.write.trans ((ih.operands h₂).trans .write))

end Looked

section Unread

variable {ε : Type} {B B' : SsaBuilder} {b : BlockId} {x y : String} {n fuel : ℕ} {ty : Ty}

/-- Only the blocks up to `b` matter. -/
theorem Unread.congr (h : Unread B x n b) (hpreds : ∀ c ≤ b, B'.preds c = B.preds c)
    (hsealed : ∀ c ≤ b, B'.isSealed c = B.isSealed c)
    (hdef : ∀ c ≤ b, B'.currentDef c x = B.currentDef c x) : Unread B' x n b := by
  induction h with
  | here => exact .here
  | @loop n before header body exit hb hh hsh hse hph hpe hdh hde hbefore ih =>
    have hlt : before ≤ exit := Nat.le_of_lt (hb.trans hh)
    have hle : header ≤ exit := Nat.le_of_lt hh
    exact .loop hb hh ((hsealed _ hle).trans hsh) ((hsealed _ (Nat.le_refl _)).trans hse)
      ((hpreds _ hle).trans hph) ((hpreds _ (Nat.le_refl _)).trans hpe) ((hdef _ hle).trans hdh)
      ((hdef _ (Nat.le_refl _)).trans hde)
      (ih (fun c hc => hpreds c (hc.trans hlt)) (fun c hc => hsealed c (hc.trans hlt))
        fun c hc => hdef c (hc.trans hlt))

/-- A look-up of one variable leaves the others unread. -/
theorem Looked.unread (h : Looked x B B') (hy : y ≠ x) (hun : Unread B y n b) : Unread B' y n b :=
  hun.congr (fun _ _ => by rw [h.preds]) (fun _ _ => by rw [h.isSealed]) fun c _ => h.others c y hy

/-- A look-up after `n` loops makes `n` phis. -/
theorem Unread.read {r : ValueId × SsaBuilder} (h : Unread B x n b)
    (hok : (readVariable x ty fuel B b : BuildM ε _) = .ok r) : B.given + n ≤ r.2.given := by
  induction n generalizing B b fuel r with
  | zero => exact (readsOnly x ty fuel B b r hok).given
  | succ n ih =>
    cases h with
    | @loop _ before header body _ hb hh hsh hse hph hpe hdh hde hbefore =>
      -- the exit has one predecessor, the header
      obtain ⟨fuel, rfl⟩ : ∃ m, fuel = m + 1 := by
        cases fuel with
        | zero => cases hok
        | succ m => exact ⟨m, rfl⟩
      rw [readVariable, hde] at hok
      simp only [readVariableRecursive, hse, hpe] at hok
      obtain ⟨⟨v, B₁⟩, h₁, hok⟩ := bind_eq_ok.mp hok
      obtain rfl := Except.ok.inj hok
      show B.given + (n + 1) ≤ B₁.given
      -- the header has two, and gets a phi before they are read; the phi is what the other
      -- predecessor, the body, finds on its way back
      obtain ⟨fuel, rfl⟩ : ∃ m, fuel = m + 1 := by
        cases fuel with
        | zero => cases h₁
        | succ m => exact ⟨m, rfl⟩
      rw [readVariable, hdh] at h₁
      simp only [readVariableRecursive, hsh, hph] at h₁
      obtain ⟨⟨phi, B₃⟩, h₃, h₁⟩ := bind_eq_ok.mp h₁
      obtain ⟨B₄, h₄, h₁⟩ := bind_eq_ok.mp h₁
      obtain ⟨-, rfl⟩ := Prod.mk.inj (Except.ok.inj h₁)
      obtain ⟨hgiven, hpreds, hsealed, hdef⟩ := emit_looked h₃
      obtain ⟨⟨incoming, B₅⟩, h₅, h₄⟩ := bind_eq_ok.mp h₄
      obtain ⟨_, -, h₄⟩ := bind_eq_ok.mp h₄
      obtain ⟨_, -, h₄⟩ := bind_eq_ok.mp h₄
      have hlast : B₅.given ≤ B₄.given := (Looked.blockMut (x := x) h₄).given
      have hps : (B₃.writeVariable x header phi).preds header = [before, body] := by
        show B₃.preds header = _
        rw [hpreds, hph]
      rw [hps] at h₅
      obtain ⟨⟨v₁, B₆⟩, h₆, h₅⟩ := bind_eq_ok.mp h₅
      obtain ⟨⟨rest, B₇⟩, h₇, h₅⟩ := bind_eq_ok.mp h₅
      obtain ⟨-, rfl⟩ := Prod.mk.inj (Except.ok.inj h₅)
      have hrest : B₆.given ≤ B₇.given := ((readsOnly x ty fuel).preds h₇).given
      -- what comes before the loop is as it was, with one value more
      have hun : Unread (B₃.writeVariable x header phi) x n before := by
        refine hbefore.congr (fun c _ => congrFun hpreds c) (fun c _ => congrFun hsealed c) fun c hc => ?_
        show insertAt B₃.currentDef header _ c x = _
        rw [insertAt, if_neg (Nat.ne_of_lt (Nat.lt_of_le_of_lt hc hb)), hdef]
      have hbefore' : B₃.given + n ≤ B₆.given := ih hun h₆
      show B.given + (n + 1) ≤ B₄.given
      omega

end Unread

/-- The builder once an empty loop that begins in `b` has its condition. -/
def tested (B : SsaBuilder) (b : BlockId) : SsaBuilder :=
  (B.newBlock.2.terminated b (.jump B.size)).emitted B.size .bool (.constBool false)

/-- The builder once it has its body and its exit as well. -/
def bodied (B : SsaBuilder) (b : BlockId) : SsaBuilder :=
  (B.tested b).newBlock.2.newBlock.2.forked B.size (.branch B.nextValue (B.size + 1) (B.size + 2))
    (B.size + 1) (B.size + 2)

/-- The builder after it. -/
def idled (B : SsaBuilder) (b : BlockId) : SsaBuilder :=
  ((B.bodied b).terminated (B.size + 1) (.jump B.size)).sealed B.size

section Idled

variable {B : SsaBuilder} {b : BlockId} {x : String} {n : ℕ}

theorem size_tested (B : SsaBuilder) (b : BlockId) : (B.tested b).size = B.size + 1 := by
  rw [tested, size_emitted, size_terminated, size_newBlock]

theorem size_bodied (B : SsaBuilder) (b : BlockId) : (B.bodied b).size = B.size + 3 := by
  show ((B.tested b).newBlock.2.newBlock.2.terminated B.size _).size = _
  rw [size_terminated, size_newBlock, size_newBlock, size_tested]

theorem indexed_tested (h : B.func.Indexed) : (B.tested b).func.Indexed := by
  have hjump : (B.newBlock.2.terminated b (.jump B.size)).func.Indexed :=
    (indexed_newBlock h).modify fun _ => rfl
  exact hjump.modify fun _ => rfl

theorem indexed_bodied (h : B.func.Indexed) : (B.bodied b).func.Indexed :=
  (indexed_newBlock (indexed_newBlock (indexed_tested h))).modify fun _ => rfl

/-- The body of the loop is open. -/
theorem bodied_open (h : B.func.Indexed) : (B.bodied b).isTerminated (B.size + 1) = false := by
  have hlt : B.size < (B.tested b).newBlock.2.newBlock.2.size := by
    rw [size_newBlock, size_newBlock, size_tested]
    omega
  rw [isTerminated_eq (indexed_bodied h)]
  show (((B.tested b).newBlock.2.newBlock.2.terminated B.size _).func.termAt (B.size + 1)).isSome = false
  rw [termAt_terminated hlt, if_neg (Nat.succ_ne_self _), newBlock_termAt, newBlock_termAt,
    Function.termAt_of_length_le (size_tested B b).le]
  rfl

/-- The edges of a loop. -/
theorem preds_idled (B : SsaBuilder) (b c : BlockId) :
    (B.idled b).preds c =
      if c = B.size + 2 then [B.size]
      else if c = B.size + 1 then [B.size]
      else if c = B.size then [b, B.size + 1]
      else B.preds c := by
  have htested : (B.tested b).preds c = if c = B.size then [b] else B.preds c := by
    show (B.newBlock.2.terminated b (.jump B.size)).preds c = _
    rw [preds_terminated]
    show insertAt B.preds B.size [] c ++ _ = _
    unfold insertAt
    by_cases hc : c = B.size
    · simp [hc, Terminator.successors]
    · simp [hc, Ne.symm hc, Terminator.successors]
  have hbodied : (B.bodied b).preds c =
      if c = B.size + 2 then [B.size] else if c = B.size + 1 then [B.size] else (B.tested b).preds c := by
    show ((B.tested b).newBlock.2.newBlock.2.terminated B.size _).preds c = _
    rw [preds_terminated]
    show insertAt (insertAt (B.tested b).preds (B.tested b).size []) (B.tested b).newBlock.2.size [] c ++ _ = _
    rw [size_newBlock, size_tested]
    unfold insertAt
    by_cases h₂ : c = B.size + 2
    · simp [h₂, Terminator.successors]
    · by_cases h₁ : c = B.size + 1
      · simp [h₁, Terminator.successors]
      · simp [h₁, h₂, Ne.symm h₁, Ne.symm h₂, Terminator.successors]
  show ((B.bodied b).terminated (B.size + 1) (.jump B.size)).preds c = _
  rw [preds_terminated, hbodied, htested]
  by_cases hc : c = B.size
  · simp [hc, Terminator.successors]
  · simp [hc, Ne.symm hc, Terminator.successors]

theorem isSealed_idled (B : SsaBuilder) (b c : BlockId) :
    (B.idled b).isSealed c =
      if c = B.size then true
      else if c = B.size + 2 then true
      else if c = B.size + 1 then true
      else B.isSealed c := rfl

/-- The blocks of a loop have no values of variables. -/
theorem currentDef_idled (B : SsaBuilder) (b c : BlockId) :
    (B.idled b).currentDef c =
      if c = B.size + 2 then fun _ => none
      else if c = B.size + 1 then fun _ => none
      else if c = B.size then fun _ => none
      else B.currentDef c := by
  show insertAt (insertAt (insertAt B.currentDef B.size fun _ => none) (B.tested b).size fun _ => none)
    (B.tested b).newBlock.2.size (fun _ => none) c = _
  rw [size_newBlock, size_tested]
  rfl

/-- A loop that does not mention the variable. -/
theorem Unread.idled (hb : b < B.size) (h : Unread B x n b) : Unread (B.idled b) x (n + 1) (B.size + 2) := by
  have hne : ∀ c ≤ b, ∀ i, c ≠ B.size + i := fun c hc i =>
    Nat.ne_of_lt ((Nat.lt_of_le_of_lt hc hb).trans_le (Nat.le_add_right _ i))
  have hne₀ : ∀ c ≤ b, c ≠ B.size := fun c hc => hne c hc 0
  refine @Unread.loop _ _ _ b B.size (B.size + 1) _ hb (Nat.lt_add_of_pos_right (by decide))
    ?_ ?_ ?_ ?_ ?_ ?_ (h.congr (fun c hc => ?_) (fun c hc => ?_) fun c hc => ?_)
  · rw [isSealed_idled, if_pos rfl]
  · simp [isSealed_idled]
  · simp [preds_idled]
  · simp [preds_idled]
  · simp [currentDef_idled]
  · simp [currentDef_idled]
  · rw [preds_idled, if_neg (hne c hc 2), if_neg (hne c hc 1), if_neg (hne₀ c hc)]
  · rw [isSealed_idled, if_neg (hne₀ c hc), if_neg (hne c hc 2), if_neg (hne c hc 1)]
  · rw [currentDef_idled, if_neg (hne c hc 2), if_neg (hne c hc 1), if_neg (hne₀ c hc)]

end Idled

end SsaBuilder

/-! ### Empty loops -/

/-- `while false { }`. -/
def idle : Stmt := .while (.bool false) []

section Idle

open SsaBuilder

variable {ctx : FnContext} {B : SsaBuilder} {b : BlockId} {x : String} {n : ℕ}

theorem idle_run (h : ctx.builder.Sound) (hb : ctx.currentBlock < ctx.size) :
    elabStmt idle ctx = .ok ((), { ctx with
      builder := ctx.builder.idled ctx.currentBlock
      currentBlock := ctx.size + 2 }) := by
  obtain ⟨B, scopes, b, retTy, sigs⟩ := ctx
  change b < B.size at hb
  have hidx := h.indexed
  have hsize := size_newBlock B
  -- nothing is parked in the new blocks
  have hseal : ∀ {B' : SsaBuilder} {c d : BlockId}, B'.incompletePhis = B.incompletePhis → B.size ≤ c →
      sealBlock c ⟨B', scopes, d, retTy, sigs⟩ = .ok ((), ⟨B'.sealed c, scopes, d, retTy, sigs⟩) := by
    intro B' c d hparked hc
    exact sealBlock_run (sealBlock_nil ((congrFun hparked c).trans (h.parked_outside hc)))
  -- the four parts of `parse_while`: the header, the condition, the body and the back edge
  have hopen : openWhile ⟨B, scopes, b, retTy, sigs⟩ =
      .ok (B.size, ⟨B.newBlock.2.terminated b (.jump B.size), scopes, B.size, retTy, sigs⟩) :=
    (act_run (newBlock_run rfl)).trans <| (act_run currentBlock_run).trans <| act_run <|
      terminate_run (terminate_ok (indexed_newBlock hidx)
        ((hb.trans (Nat.lt_succ_self _)).trans_eq hsize.symm) _)
  have hcond : elabExpr (.bool false) ⟨B.newBlock.2.terminated b (.jump B.size), scopes, B.size, retTy, sigs⟩ =
      .ok ((B.nextValue, .bool), ⟨B.tested b, scopes, B.size, retTy, sigs⟩) := by
    refine act_run ((act_run currentBlock_run).trans (build_run (emit_ok ?_ ?_ _ _)))
    · exact (indexed_newBlock hidx).modify fun _ => rfl
    · exact (Nat.lt_succ_self _).trans_eq ((size_terminated _).trans hsize).symm
  have hbody : openBody B.size B.nextValue ⟨B.tested b, scopes, B.size, retTy, sigs⟩ =
      .ok (B.size + 2, ⟨B.bodied b, scopes, B.size + 1, retTy, sigs⟩) := by
    have hidx' := indexed_newBlock (indexed_newBlock (indexed_tested (b := b) hidx))
    have hsize₁ : (B.tested b).size = B.size + 1 := size_tested B b
    have hsize₂ : (B.tested b).newBlock.2.size = B.size + 2 := by rw [size_newBlock, hsize₁]
    have hlt : B.size < (B.tested b).newBlock.2.newBlock.2.size := by
      rw [size_newBlock, hsize₂]
      omega
    have hbranch : terminate B.size (.branch B.nextValue (B.size + 1) (B.size + 2))
        ⟨(B.tested b).newBlock.2.newBlock.2, scopes, B.size, retTy, sigs⟩ = .ok ((), ⟨_, _, _, _, _⟩) :=
      terminate_run (terminate_ok hidx' hlt _)
    rw [openBody, act_run (newBlock_run hsize₁), act_run (newBlock_run hsize₂), act_run hbranch]
    refine Eq.trans (act_run (hseal ?_ (Nat.le_succ _))) ?_
    · rfl
    refine Eq.trans (act_run (hseal ?_ (Nat.le_add_right _ 2))) ?_
    · rfl
    rfl
  have hclose : closeWhile B.size (B.size + 2) ⟨B.bodied b, scopes, B.size + 1, retTy, sigs⟩ =
      .ok ((), ⟨B.idled b, scopes, B.size + 2, retTy, sigs⟩) := by
    have hlt : B.size + 1 < (B.bodied b).size := by
      rw [size_bodied]
      omega
    have hend : isTerminated (B.size + 1) ⟨B.bodied b, scopes, B.size + 1, retTy, sigs⟩ =
        .ok (false, ⟨B.bodied b, scopes, B.size + 1, retTy, sigs⟩) := by
      rw [isTerminated_run, bodied_open hidx]
    have hjump : terminate (B.size + 1) (.jump B.size) ⟨B.bodied b, scopes, B.size + 1, retTy, sigs⟩ =
        .ok ((), ⟨_, _, _, _, _⟩) :=
      terminate_run (terminate_ok (indexed_bodied hidx) hlt _)
    rw [closeWhile, act_run currentBlock_run, act_run hend]
    refine Eq.trans (act_run hjump) ?_
    refine Eq.trans (act_run (hseal ?_ (Nat.le_refl _))) ?_
    · rfl
    rfl
  exact (act_run hopen).trans <| (act_run hcond).trans <| (act_run rfl).trans <|
    (act_run hbody).trans <| (act_run rfl).trans hclose

/-- Loops before some statements. -/
theorem idle_steps {xs : List String} {rest : List Stmt} {k : ℕ} {r : Unit × FnContext} (hset : ctx.Settled)
    (hun : ∀ x ∈ xs, Unread ctx.builder x n ctx.currentBlock)
    (hok : elabStmts (List.replicate k idle ++ rest) ctx = .ok r) :
    ∃ c, (∀ x ∈ xs, Unread c.builder x (n + k) c.currentBlock) ∧ elabStmts rest c = .ok r := by
  induction k generalizing n ctx with
  | zero => exact ⟨ctx, hun, hok⟩
  | succ k ih =>
    rw [List.replicate_succ, List.cons_append, elabStmts] at hok
    obtain ⟨_, hterm, hok⟩ := needOpen_bind.mp hok
    obtain ⟨hopen, rfl⟩ := Prod.mk.inj (Except.ok.inj hterm)
    have hrun := idle_run hset.sound hset.here
    obtain ⟨hw, -⟩ := walked_stmt idle hset hopen hrun
    rw [act_run hrun] at hok
    obtain ⟨c, hun', hrest⟩ := ih (n := n + 1) hw.settled (fun x hx => (hun x hx).idled hset.here) hok
    exact ⟨c, fun x hx => (Nat.succ_add_eq_add_succ n k).symm ▸ hun' x hx, hrest⟩

end Idle

/-! ### Readings -/

/-- `x;`. -/
def reading (x : String) : Stmt := .expr (.var x)

section Readings

open SsaBuilder

variable {ctx : FnContext} {rest : List Stmt} {r : Unit × FnContext} {x : String} {n : ℕ}

theorem reading_ok (hok : elabStmts (reading x :: rest) ctx = .ok r) :
    ∃ ty u B', (ctx.builder.read x ctx.currentBlock ty : BuildM ParseError _) = .ok (u, B') ∧
      elabStmts rest (ctx.withBuilder B') = .ok r := by
  rw [elabStmts] at hok
  obtain ⟨_, hterm, hok⟩ := needOpen_bind.mp hok
  obtain ⟨-, rfl⟩ := Prod.mk.inj (Except.ok.inj hterm)
  obtain ⟨_, c, hread, hok⟩ := act_bind.mp (show (elabStmt (reading x) >>= fun _ => elabStmts rest) ctx =
    .ok (r.1, r.2) from hok)
  obtain ⟨v, c', hname, hret⟩ := act_bind.mp (show (readName x noSpan >>= fun _ => pure ()) ctx =
    .ok (_, c) from hread)
  obtain ⟨-, rfl⟩ := act_pure.mp hret
  -- the name is in scope, for the statement is read
  rw [readName, act_run (rfl : (get : ActM FnContext) ctx = .ok (ctx, ctx))] at hname
  cases hty : lookupVar ctx.scopes x with
  | none =>
    rw [hty] at hname
    cases hname
  | some ty =>
    rw [hty] at hname
    obtain ⟨u, c, hvar, hret⟩ := act_bind.mp hname
    obtain ⟨-, rfl⟩ := act_pure.mp hret
    rw [readVariable_eq] at hvar
    obtain ⟨B', hB, rfl⟩ := build_ok.mp hvar
    exact ⟨ty, u, B', hB, hok⟩

/-- Each name costs a phi for every loop. -/
theorem reading_steps {xs : List String} (hnd : xs.Nodup)
    (hun : ∀ x ∈ xs, Unread ctx.builder x n ctx.currentBlock)
    (hok : elabStmts (xs.map reading ++ rest) ctx = .ok r) :
    ∃ c, ctx.builder.given + n * xs.length ≤ c.builder.given ∧ elabStmts rest c = .ok r := by
  induction xs generalizing ctx with
  | nil => exact ⟨ctx, Nat.le_refl _, hok⟩
  | cons x xs ih =>
    obtain ⟨hx, hnd⟩ := List.nodup_cons.mp hnd
    obtain ⟨hunx, hun⟩ := List.forall_mem_cons.mp hun
    obtain ⟨ty, u, B', hread, hok⟩ := reading_ok hok
    have hlooked : Looked x ctx.builder B' := readsOnly x ty _ _ _ _ hread
    have hphis : ctx.builder.given + n ≤ B'.given := hunx.read hread
    -- the other names are as unread as before
    obtain ⟨c, hle, hrest⟩ := ih hnd (fun y hy => hlooked.unread (ne_of_mem_of_not_mem hy hx) (hun y hy)) hok
    refine ⟨c, ?_, hrest⟩
    have hle : B'.given + n * xs.length ≤ c.builder.given := hle
    rw [List.length_cons, Nat.mul_succ]
    omega

theorem ret_given {u : Unit} {c : FnContext} (hok : elabStmts [.ret (.int 1)] ctx = .ok (u, c)) :
    ctx.builder.given ≤ c.builder.given := by
  rw [elabStmts] at hok
  obtain ⟨_, hterm, hok⟩ := needOpen_bind.mp hok
  obtain ⟨-, rfl⟩ := Prod.mk.inj (Except.ok.inj hterm)
  obtain ⟨_, c₁, hret, hnil⟩ := act_bind.mp hok
  obtain ⟨-, rfl⟩ := act_pure.mp hnil
  rw [elabStmt, elabReturn, act_run (rfl : (get : ActM FnContext) ctx = .ok (ctx, ctx))] at hret
  cases hty : ctx.retTy with
  | none =>
    rw [hty] at hret
    cases hret
  | some expected =>
    rw [hty] at hret
    obtain ⟨⟨v, ty⟩, c₂, hconst, hret⟩ := act_bind.mp hret
    obtain ⟨-, hret⟩ := needTy_bind.mp hret
    obtain ⟨v', c₃, hemit, hpair⟩ := act_bind.mp (show (emitHere .i64 (.constI64 1) >>= _) ctx = _ from hconst)
    obtain ⟨-, rfl⟩ := act_pure.mp hpair
    obtain ⟨B, hB, rfl⟩ := build_ok.mp ((act_run currentBlock_run).symm.trans hemit)
    rw [act_run currentBlock_run, terminate_eq] at hret
    obtain ⟨B', hB', rfl⟩ := build_ok.mp hret
    obtain ⟨B₁, hB₁, hpair⟩ := bind_eq_ok.mp hB'
    obtain ⟨-, rfl⟩ := Prod.mk.inj (Except.ok.inj hpair)
    -- the constant is one value more, and the terminator none
    have hconst : Looked "" ctx.builder B := .emit hB
    exact hconst.given.trans (Looked.blockMut (x := "") hB₁).given

end Readings

/-! ### Many phis -/

/-- `k` empty loops, and a reading of each parameter. -/
def manyPhis (xs : List String) (k : ℕ) : FnDecl where
  name := "f"
  params := xs.map fun x => (x, .i64)
  retTy := .i64
  body := List.replicate k idle ++ (xs.map reading ++ [.ret (.int 1)])

section ManyPhis

variable {xs : List String} {k : ℕ} {sigs : Sigs}

theorem manyPhis_given (hnd : xs.Nodup) {c : FnContext}
    (hok : inScope (elabStmts (manyPhis xs k).body) (FnContext.new (manyPhis xs k).header sigs) = .ok ((), c)) :
    k * xs.length ≤ c.builder.given := by
  obtain ⟨c₁, hbody, rfl⟩ := inScope_ok hok
  have hset := (Settled.new (manyPhis xs k).header sigs).scope
  have hhere : ∀ x ∈ xs, (FnContext.new (manyPhis xs k).header sigs).builder.Unread x 0 0 := fun _ _ => .here
  obtain ⟨c₂, hun, hrest⟩ := idle_steps hset hhere hbody
  obtain ⟨c₃, hle, hend⟩ := reading_steps hnd hun hrest
  have hret := ret_given hend
  show _ ≤ c₁.builder.given
  rw [Nat.zero_add] at hle
  omega

theorem legal_idle {P : Program} {ret : Ty} {Γ : Env} {rest : List Stmt} (h : stmtsLegal P ret Γ rest) :
    stmtsLegal P ret Γ (List.replicate k idle ++ rest) := by
  induction k with
  | zero => exact h
  | succ k ih =>
    rw [List.replicate_succ, List.cons_append, stmtsLegal, idle, Stmt.Legal, stmtsLegal]
    exact ⟨⟨rfl, trivial⟩, nofun, ih⟩

theorem legal_reading {P : Program} {ret : Ty} {Γ : Env} {rest : List Stmt}
    (hxs : ∀ x ∈ xs, Γ.lookup x = some .i64) (h : stmtsLegal P ret Γ rest) :
    stmtsLegal P ret Γ (xs.map reading ++ rest) := by
  induction xs with
  | nil => exact h
  | cons x xs ih =>
    obtain ⟨hx, hxs⟩ := List.forall_mem_cons.mp hxs
    rw [List.map_cons, List.cons_append, stmtsLegal, reading, Stmt.Legal, Expr.typeOf]
    exact ⟨⟨_, hx⟩, fun h : false = true => absurd h Bool.false_ne_true, ih hxs⟩

theorem lookup_const {Γ : Env} {τ : Ty} {x : String} (h : ∀ p ∈ Γ, p.2 = τ) (hx : x ∈ Γ.map Prod.fst) :
    Γ.lookup x = some τ := by
  induction Γ with
  | nil => cases hx
  | cons p Γ ih =>
    obtain ⟨y, σ⟩ := p
    obtain ⟨rfl, h⟩ := List.forall_mem_cons.mp h
    by_cases hxy : x = y
    · rw [hxy, List.lookup_cons_self]
    · rw [List.lookup_cons, beq_eq_false_iff_ne.mpr hxy]
      exact ih h ((List.mem_cons.mp hx).resolve_left hxy)

/-- Every name is a parameter, and the bodies of the loops are empty. -/
theorem legal_manyPhis (P : Program) :
    stmtsLegal P (manyPhis xs k).retTy (manyPhis xs k).params.reverse (manyPhis xs k).body := by
  refine legal_idle (legal_reading (fun x hx => lookup_const (fun p hp => ?_) ?_) ?_)
  · obtain ⟨y, -, rfl⟩ := List.mem_map.mp (List.mem_reverse.mp hp)
    rfl
  · simpa [manyPhis] using hx
  · rw [stmtsLegal, stmtsLegal, Stmt.Legal]
    exact ⟨rfl, fun _ => rfl, trivial⟩

theorem stmtsTokens_eq (ss : List Stmt) : stmtsTokens ss = ss.flatMap Stmt.tokens := by
  induction ss with
  | nil => rfl
  | cons s ss ih => rw [stmtsTokens, ih, List.flatMap_cons]

theorem stmtsShaped_eq (ss : List Stmt) : stmtsShaped ss = ss.all Stmt.shaped := by
  induction ss with
  | nil => rfl
  | cons s ss ih => rw [stmtsShaped, ih, List.all_cons]

theorem shaped_manyPhis (xs : List String) (k : ℕ) : stmtsShaped (manyPhis xs k).body = true := by
  rw [stmtsShaped_eq, List.all_eq_true]
  intro s hs
  rcases List.mem_append.mp hs with hs | hs
  · obtain ⟨-, rfl⟩ := List.mem_replicate.mp hs
    rfl
  · rcases List.mem_append.mp hs with hs | hs
    · obtain ⟨x, -, rfl⟩ := List.mem_map.mp hs
      rfl
    · obtain rfl := List.mem_singleton.mp hs
      rfl

end ManyPhis

/-! ### Running out of values -/

/-- A function that asks for too many values, on its own in a source. -/
theorem parse32_overflow {source : String} {d : FnDecl} (hsize : source.utf8ByteSize < 2 ^ 31)
    (hr : Renders source [d]) (hok : ∃ M, parse source = .ok M)
    (hmany : ∀ sigs c, inScope (elabStmts d.body) (FnContext.new d.header sigs) = .ok ((), c) →
      2 ^ 32 ≤ c.builder.given) :
    parse32 source = Comp.panic (.builder .valueOverflow) := by
  obtain ⟨toks, hlex, hk, hs⟩ := hr
  obtain ⟨M, hM⟩ := hok
  obtain ⟨toks', hmodule⟩ := (parse_iff_of_lex hlex).mp hM
  obtain ⟨⟨sigs, starts⟩, last, hscan, h₁⟩ := cursor_bind.mp hmodule
  obtain ⟨-, -, rfl⟩ := (scanSignatures_ok_iff hs (Nat.le_succ _) hk).mp ⟨_, hscan⟩
  obtain ⟨fs, toks₂, hfs, -⟩ := cursor_bind.mp h₁
  obtain ⟨⟨f, toks₁, hf⟩, -⟩ := List.forall_mem_cons.mp (parseFunctions_each hfs)
  obtain ⟨B, hB, -⟩ := parseFunction_ok hf
  obtain ⟨h, body, c, hheader, hbody, rfl⟩ := parseBuilder_ok.mp hB
  -- over natural numbers the body is read to its end, with too many values
  have hgiven : 2 ^ 32 ≤ c.builder.given := by
    obtain ⟨ts, rest, rfl, hts, hrest⟩ := kinds_append_split (show kinds toks = d.tokens ++ [.eof] by
      rw [hk, Program.tokens, List.flatMap_cons, List.flatMap_nil, List.append_nil])
    have hlen : d.tokens.length ≤ (ts ++ rest).length + 1 := by
      rw [← hts, kinds, List.length_map, List.length_append]
      omega
    have hne : rest ≠ [] := by
      rintro rfl
      cases hrest
    obtain ⟨ctx, hctx, heq⟩ := parseBuilder_reads (by simpa [Program.shaped] using hs) hlen hts hne hB
    exact heq ▸ hmany _ ctx hctx
  -- over `u32`s it cannot be
  have hcount := countable_of_lex hlex hsize
  have hpays := paysFor_block hcount.bounds (toks.length + 1)
    (hcount.affords sigs List.suffix_rfl (lex_endsInEof hlex).hasEof hheader)
  have hstop := (hpays.1.resolve_left fun heq =>
    Nat.not_lt.mpr hgiven (hpays.2 ⟨((), c), toks₁⟩ (heq.trans hbody)).budget.small).1
  have hfunction : @parseFunction .u32 (@HasBackend.standard .u32) (toks.length + 1) sigs toks =
      Comp.panic (.builder .valueOverflow) := by
    show (parseFnHeader (toks.length + 1) toks >>= fun r => _) = _
    rw [hheader]
    show (@parseBlockBody .u32 (@HasBackend.standard .u32) _ _ _ >>= fun r => _) = _
    rw [hstop]
    rfl
  have hmodule : @parseModule .u32 (@HasBackend.standard .u32) (toks.length + 1) toks =
      Comp.panic (.builder .valueOverflow) := by
    show (scanSignatures (toks.length + 1) (fun _ => none) [] toks >>= fun r => _) = _
    rw [hscan]
    show ((@parseFunction .u32 (@HasBackend.standard .u32) _ sigs toks >>= fun r => _) >>= fun r => _) = _
    rw [hfunction]
    rfl
  show (lexTokens source >>= fun toks => _) = _
  rw [lexTokens_lex.mpr hlex]
  show (@parseModule .u32 (@HasBackend.standard .u32) (toks.length + 1) toks >>= fun r => _) = _
  rw [hmodule]
  rfl

/-! ### The source -/

/-- The bytes of a rendering, with a space after every token. -/
def bytes (ks : List TokenKind) : ℕ := (ks.map fun k => size (lexeme k) + 1).sum

/-- `a`, `aa`, `aaa` and so on. -/
def nthName (i : ℕ) : String := String.ofList (List.replicate (i + 1) 'a')

/-- The tokens of a program, with a space between each two. -/
def spaced (d : FnDecl) : String := String.ofList (render d.tokens [])

section Text

variable {ks : List TokenKind} {m k : ℕ} {xs : List String} {x : String}

theorem render_bytes (ks : List TokenKind) : size (render ks []) ≤ bytes ks := by
  induction ks with
  | nil => exact Nat.le_refl _
  | cons kind ks ih =>
    cases ks with
    | nil => exact Nat.le_succ _
    | cons next ks =>
      show size (lexeme kind ++ (' ' :: render (next :: ks) [])) ≤ _
      rw [size_append, size_space _ (c := ' ') (by decide)]
      show _ ≤ size (lexeme kind) + 1 + bytes (next :: ks)
      omega

theorem bytes_cons (kind : TokenKind) (ks : List TokenKind) :
    bytes (kind :: ks) = size (lexeme kind) + 1 + bytes ks := rfl

theorem bytes_append (ks ks' : List TokenKind) : bytes (ks ++ ks') = bytes ks + bytes ks' := by
  rw [bytes, List.map_append, List.sum_append]
  rfl

theorem bytes_flatMap_le {α : Type} {l : List α} {f : α → List TokenKind} (h : ∀ a ∈ l, bytes (f a) ≤ m) :
    bytes (l.flatMap f) ≤ m * l.length := by
  induction l with
  | nil => exact Nat.le_refl _
  | cons a l ih =>
    obtain ⟨ha, hl⟩ := List.forall_mem_cons.mp h
    rw [List.flatMap_cons, bytes_append, List.length_cons, Nat.mul_succ, Nat.add_comm]
    exact Nat.add_le_add (ih hl) ha

theorem bytes_params_le {ps : List (String × Ty)} (h : ∀ p ∈ ps, size p.1.toList ≤ m ∧ p.2 = .i64)
    (sep : List TokenKind) (hsep : bytes sep ≤ 2) : bytes (paramsTokens sep ps) ≤ (m + 9) * ps.length := by
  induction ps generalizing sep with
  | nil => exact Nat.le_refl _
  | cons p ps ih =>
    obtain ⟨⟨hx, hty⟩, hps⟩ := List.forall_mem_cons.mp h
    have hrest := ih hps [.comma] (by decide +kernel)
    have htoken : size (lexeme (tyToken .i64)) = 3 := by decide +kernel
    have hcolon : size (lexeme .colon) = 1 := by decide +kernel
    have hname : size (lexeme (.ident p.1)) ≤ m := hx
    rw [paramsTokens, bytes_append, bytes_cons, bytes_cons, bytes_cons, hty, htoken, hcolon,
      List.length_cons, Nat.mul_succ]
    omega

theorem tokens_manyPhis (xs : List String) (k : ℕ) :
    (manyPhis xs k).tokens = [.fnKw, .ident "f", .lParen] ++
      ((paramsTokens [] (manyPhis xs k).params ++ [.rParen, .arrow, tyToken .i64]) ++
        ([.lBrace] ++ (stmtsTokens (manyPhis xs k).body ++ [.rBrace]))) := rfl

/-- The size of the source, in the number of loops, the number of names and their length. -/
theorem size_spaced (h : ∀ x ∈ xs, size x.toList ≤ m) :
    (spaced (manyPhis xs k)).utf8ByteSize ≤ 16 * k + 2 * ((m + 9) * xs.length) + 31 := by
  have hparams : bytes (paramsTokens [] (manyPhis xs k).params) ≤ (m + 9) * xs.length := by
    refine (bytes_params_le (m := m) (fun p hp => ?_) [] (by decide)).trans_eq ?_
    · obtain ⟨x, hx, rfl⟩ := List.mem_map.mp hp
      exact ⟨h x hx, rfl⟩
    · rw [manyPhis, List.length_map]
  have hloops : bytes ((List.replicate k idle).flatMap Stmt.tokens) ≤ 16 * k := by
    refine (bytes_flatMap_le fun s hs => ?_).trans_eq (by rw [List.length_replicate])
    obtain ⟨-, rfl⟩ := List.mem_replicate.mp hs
    decide +kernel
  have hreads : bytes ((xs.map reading).flatMap Stmt.tokens) ≤ (m + 9) * xs.length := by
    refine (bytes_flatMap_le fun s hs => ?_).trans_eq (by rw [List.length_map])
    obtain ⟨x, hx, rfl⟩ := List.mem_map.mp hs
    have hmark : bytes [.semicolon] = 2 := by decide +kernel
    have hname : size (lexeme (.ident x)) ≤ m := h x hx
    show bytes [.ident x, .semicolon] ≤ _
    rw [bytes_cons, hmark]
    omega
  have hbody : bytes (stmtsTokens (manyPhis xs k).body) ≤ 16 * k + ((m + 9) * xs.length + 11) := by
    have hret : bytes (Stmt.tokens (.ret (.int 1))) = 11 := by decide +kernel
    rw [stmtsTokens_eq, manyPhis, List.flatMap_append, List.flatMap_append, List.flatMap_singleton,
      bytes_append, bytes_append, hret]
    omega
  -- the tokens around the parameters and the body
  have hopen : bytes [.fnKw, .ident "f", .lParen] = 7 := by decide +kernel
  have hclose : bytes [.rParen, .arrow, tyToken .i64] = 9 := by decide +kernel
  have hbrace : bytes [.lBrace] = 2 ∧ bytes [.rBrace] = 2 := by decide +kernel
  rw [spaced, size_ofList]
  refine (render_bytes _).trans ?_
  rw [tokens_manyPhis, bytes_append, bytes_append, bytes_append, bytes_append, bytes_append, hopen, hclose,
    hbrace.1, hbrace.2]
  omega

/-- No reserved word is made of `a`s. -/
theorem keyword_all_a {s : String} {kind : TokenKind} (h : keyword s = some kind) :
    s.toList.all (· == 'a') = false := by
  unfold keyword at h
  split at h <;> first | decide +kernel | cases h

theorem nthName_lexical (i : ℕ) : Lexical (.ident (nthName i)) := by
  refine ⟨?_, 'a', List.replicate i 'a', String.toList_ofList, rfl, fun d hd => ?_⟩
  · by_contra hkey
    obtain ⟨kind, hkind⟩ := Option.ne_none_iff_exists'.mp hkey
    have hnot := keyword_all_a hkind
    rw [nthName, String.toList_ofList] at hnot
    simp at hnot
  · obtain ⟨-, rfl⟩ := List.mem_replicate.mp hd
    rfl

theorem size_nthName (i : ℕ) : size (nthName i).toList = i + 1 := by
  rw [nthName, String.toList_ofList, size_eq_length, List.length_replicate]
  intro c hc
  obtain ⟨-, rfl⟩ := List.mem_replicate.mp hc
  decide

theorem nthName_nodup (m : ℕ) : ((List.range m).map nthName).Nodup := by
  refine List.nodup_range.map fun i j hij => ?_
  have := size_nthName i
  rw [hij, size_nthName] at this
  omega

/-- The tokens that are written in one way only. -/
def fixed : TokenKind → Bool
  | .ident _ | .int _ | .eof => false
  | _ => true

theorem lexical_fixed (h : ks.all fixed = true) : ∀ kind ∈ ks, Lexical kind := by
  intro kind hk
  have hfixed := List.all_eq_true.mp h kind hk
  cases kind <;> trivial

theorem lexical_params {ps : List (String × Ty)} (h : ∀ p ∈ ps, Lexical (.ident p.1))
    {sep : List TokenKind} (hsep : sep.all fixed = true) :
    ∀ kind ∈ paramsTokens sep ps, Lexical kind := by
  induction ps generalizing sep with
  | nil => exact fun kind hk => absurd hk List.not_mem_nil
  | cons p ps ih =>
    obtain ⟨hp, hps⟩ := List.forall_mem_cons.mp h
    have hty : Lexical (tyToken p.2) := by cases p.2 <;> trivial
    exact List.forall_mem_append.mpr ⟨lexical_fixed hsep, List.forall_mem_cons.mpr ⟨hp,
      List.forall_mem_cons.mpr ⟨trivial, List.forall_mem_cons.mpr ⟨hty, ih hps rfl⟩⟩⟩⟩

theorem lexical_manyPhis (h : ∀ x ∈ xs, Lexical (.ident x)) :
    ∀ kind ∈ (manyPhis xs k).tokens, Lexical kind := by
  have hparams : ∀ kind ∈ paramsTokens [] (manyPhis xs k).params, Lexical kind := by
    refine lexical_params (fun p hp => ?_) rfl
    obtain ⟨x, hx, rfl⟩ := List.mem_map.mp hp
    exact h x hx
  have hbody : ∀ s ∈ (manyPhis xs k).body, ∀ kind ∈ s.tokens, Lexical kind := by
    intro s hs
    rcases List.mem_append.mp hs with hs | hs
    · obtain ⟨-, rfl⟩ := List.mem_replicate.mp hs
      exact lexical_fixed rfl
    · rcases List.mem_append.mp hs with hs | hs
      · obtain ⟨x, hx, rfl⟩ := List.mem_map.mp hs
        exact List.forall_mem_cons.mpr ⟨h x hx, lexical_fixed rfl⟩
      · obtain rfl := List.mem_singleton.mp hs
        have hone : Lexical (.int 1) := show (1 : I64).toNat < 2 ^ 63 by decide
        exact List.forall_mem_cons.mpr ⟨trivial, List.forall_mem_cons.mpr ⟨hone, lexical_fixed rfl⟩⟩
  have hname : Lexical (.ident "f") := ⟨rfl, 'f', [], rfl, rfl, by simp⟩
  have hstart : ∀ kind ∈ [TokenKind.fnKw, .ident "f", .lParen], Lexical kind :=
    List.forall_mem_cons.mpr ⟨trivial, List.forall_mem_cons.mpr ⟨hname, lexical_fixed rfl⟩⟩
  have hstmts : ∀ kind ∈ stmtsTokens (manyPhis xs k).body, Lexical kind := by
    intro kind hk
    rw [stmtsTokens_eq] at hk
    obtain ⟨s, hs, hk⟩ := List.mem_flatMap.mp hk
    exact hbody s hs kind hk
  rw [tokens_manyPhis]
  refine List.forall_mem_append.mpr ⟨hstart, List.forall_mem_append.mpr ⟨?_, ?_⟩⟩
  · exact List.forall_mem_append.mpr ⟨hparams, lexical_fixed rfl⟩
  · exact List.forall_mem_append.mpr ⟨lexical_fixed rfl, List.forall_mem_append.mpr ⟨hstmts, lexical_fixed rfl⟩⟩

theorem manyPhis_renders (h : ∀ x ∈ xs, Lexical (.ident x)) :
    Renders (spaced (manyPhis xs k)) [manyPhis xs k] := by
  obtain ⟨toks, hcut, hk⟩ := render_cuts 0 (lexical_manyPhis (k := k) h)
    (show ∀ sep ∈ ([] : List (List Char)), Separator sep by simp)
  refine ⟨toks, hcut.lexed, hk.trans ?_, ?_⟩
  · rw [Program.tokens, List.flatMap_cons, List.flatMap_nil, List.append_nil]
  · rw [Program.shaped, List.all_cons, shaped_manyPhis]
    rfl

/-- Over natural numbers the source is accepted. -/
theorem manyPhis_accepted (h : ∀ x ∈ xs, Lexical (.ident x)) (hnd : xs.Nodup) :
    ∃ M, parse (spaced (manyPhis xs k)) = .ok M := by
  have hdistinct : Program.Distinct [manyPhis xs k] := by
    refine ⟨List.nodup_singleton _, fun d hd => ?_⟩
    obtain rfl := List.mem_singleton.mp hd
    simpa [manyPhis, Function.comp_def] using hnd
  have hbodies : ∀ d ∈ [manyPhis xs k], ∃ f, elabFn (Program.sigs [manyPhis xs k]) d = .ok f := by
    intro d hd
    obtain rfl := List.mem_singleton.mp hd
    exact (elabFn_iff _ _).mpr (legal_manyPhis _)
  obtain ⟨fs, hfs⟩ := mapM_exists hbodies
  exact ⟨⟨fs⟩, (parse_renders (manyPhis_renders h)).mpr ⟨hdistinct, hfs⟩⟩

/-- With as many loops and names as that, and a text that is not too long, values run out. -/
theorem manyPhis_overflow (h : ∀ x ∈ xs, Lexical (.ident x)) (hnd : xs.Nodup) (hmany : 2 ^ 32 ≤ k * xs.length)
    (hsize : (spaced (manyPhis xs k)).utf8ByteSize < 2 ^ 31) :
    parse32 (spaced (manyPhis xs k)) = Comp.panic (.builder .valueOverflow) :=
  parse32_overflow hsize (manyPhis_renders h) (manyPhis_accepted h hnd) fun _ _ hok =>
    hmany.trans (manyPhis_given hnd hok)

end Text

/-- `fn f(a: i64, aa: i64, ...) -> i64 { while false { } while false { } ... a; aa; ... return 1; }`,
with `2 ^ 12` parameters and `2 ^ 20` loops. -/
def longSource : String := spaced (manyPhis ((List.range (2 ^ 12)).map nthName) (2 ^ 20))

/-- The source has some 34 million bytes. -/
theorem longSource_overflow :
    longSource.utf8ByteSize < 2 ^ 31 ∧ parse32 longSource = Comp.panic (.builder .valueOverflow) := by
  have hlength : ((List.range (2 ^ 12)).map nthName).length = 2 ^ 12 := by
    rw [List.length_map, List.length_range]
  have hsize : longSource.utf8ByteSize < 2 ^ 31 := by
    refine (size_spaced (m := 2 ^ 12) fun x hx => ?_).trans_lt ?_
    · obtain ⟨i, hi, rfl⟩ := List.mem_map.mp hx
      rw [size_nthName]
      exact List.mem_range.mp hi
    · rw [hlength]
      decide
  refine ⟨hsize, manyPhis_overflow (fun x hx => ?_) (nthName_nodup _) ?_ hsize⟩
  · obtain ⟨i, -, rfl⟩ := List.mem_map.mp hx
    exact nthName_lexical i
  · rw [hlength]
    decide

end Parser
end Chakobsa
