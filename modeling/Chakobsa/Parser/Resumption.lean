import Chakobsa.Parser.Histories
import Chakobsa.Parser.SsaPaths
import Chakobsa.Ir.PhiOrder
import Chakobsa.Ir.Fuel

/-!
# Running a function from a place in its history

The history of a finished function says where in a block the parser has been, and `resume` runs the
function from there on. `Holds` is the invariant that connects such a run with the variables of the
program: whatever definition of a variable reaches the place, the interpreter has bound it to what
the variable has got. Each event keeps it (`Holds.inst`, `Holds.write`, `Holds.read`), and so does
an edge, on which phis are resolved (`Holds.arrive`).
-/

namespace Chakobsa
namespace Parser

open Ir Chakobsa.Comp ExceptLemmas

/-! ### Finished functions -/

/-- The state after the last call: every block is sealed. -/
structure Ghost.Finished (G : Ghost) : Prop extends G.Tidy where
  allSealed : G.AllSealed

section Available

variable {G : Ghost} {π : List BlockId} {b : BlockId} {l r : List Event} {x : String} {v : ValueId}

/-- On every path, what reaches a block's entry is defined there if this is so at the ends of the
predecessors. -/
theorem Ghost.Finished.entry_available (h : G.Finished)
    (hpred : ∀ p π', π = p :: π' → ∀ x v, G.outDef p x = some v →
      Available G.builder.func G.log π' p (G.log p) v)
    (hw : G.builder.func.Walk π b) (hd : defAfter (G.entryDef b) [] x = some v) :
    Available G.builder.func G.log π b [] v := by
  obtain ⟨d, hentry, rfl⟩ := Option.map_eq_some_iff.mp (show (G.entryDef b x).map _ = some v by
    simpa [defAfter, lastWrite] using hd)
  cases d with
  | phi u =>
    obtain ⟨i, hi, hid, hlog, -⟩ := h.toExact.phi_matches h.allSealed hentry
    exact .inr (.inr ⟨i, hi, hid, fun hm => absurd hm hlog⟩)
  | copy u =>
    obtain ⟨-, p, hp, hout⟩ := h.ok.entries.copy b x u hentry
    cases π with
    | nil =>
      rw [h.toExact.walk_nil hw, h.ok.graph.entryPreds] at hp
      cases hp
    | cons q π' =>
      obtain ⟨-, hq⟩ := h.toExact.walk_cons hw
      obtain rfl : q = p := by simpa [hp] using hq
      exact (hpred q π' rfl x u hout).step

/-- On every path the definition of a variable and the value last computed are defined. -/
theorem Ghost.Finished.available (h : G.Finished) (hw : G.builder.func.Walk π b)
    (hl : G.log b = l ++ r) :
    (∀ x v, defAfter (G.entryDef b) l x = some v → Available G.builder.func G.log π b l v) ∧
      ∀ v, lastValue l = some v → Available G.builder.func G.log π b l v := by
  induction π generalizing b l r with
  | nil => exact go [] (fun _ _ he => nomatch he) hw hl
  | cons p π ih =>
    obtain ⟨hwp, -⟩ := h.toExact.walk_cons hw
    refine go (p :: π) (fun q π' he x v hv => ?_) hw hl
    obtain ⟨rfl, rfl⟩ := List.cons.inj he
    exact (ih (r := []) hwp (List.append_nil _).symm).1 x v hv
where
  /-- The events of one block. -/
  go {b : BlockId} {l r : List Event} (π : List BlockId)
      (hpred : ∀ p π', π = p :: π' → ∀ x v, G.outDef p x = some v →
        Available G.builder.func G.log π' p (G.log p) v)
      (hw : G.builder.func.Walk π b) (hl : G.log b = l ++ r) :
      (∀ x v, defAfter (G.entryDef b) l x = some v → Available G.builder.func G.log π b l v) ∧
        ∀ v, lastValue l = some v → Available G.builder.func G.log π b l v := by
    induction l using List.reverseRecOn generalizing r with
    | nil => exact ⟨fun x v hd => h.entry_available hpred hw hd, fun v hv => nomatch hv⟩
    | append_singleton l e ih =>
      obtain ⟨hdefs, hlast⟩ := ih (r := e :: r) (by simpa using hl)
      have hmono : ∀ v, Available G.builder.func G.log π b l v →
          Available G.builder.func G.log π b (l ++ [e]) v := fun v hv =>
        hv.mono (by rw [instsOf_append]; exact List.subset_append_left _ _)
      cases e with
      | inst i =>
        refine ⟨fun x v hd => hmono v (hdefs x v (by simpa using hd)), fun v hv => ?_⟩
        -- the instruction itself, which has just been executed
        rw [lastValue_snoc_inst] at hv
        obtain rfl := Option.some.inj hv
        have hmem : i ∈ G.builder.func.instsAt b :=
          h.ok.logs.emitted b i (mem_instsOf.mpr (by rw [hl]; simp))
        exact .inr (.inr ⟨i, hmem, rfl, fun _ => mem_instsOf.mpr (by simp)⟩)
      | write y w =>
        refine ⟨fun x v hd => hmono v ?_, fun v hv => hmono v (hlast v (by simpa using hv))⟩
        -- what is written is the value before it, or a parameter
        rw [defAfter_snoc_write] at hd
        split at hd
        · obtain rfl := Option.some.inj hd
          rcases h.writes b l y w r (by simpa using hl) with hw' | hlt
          · exact hlast w hw'
          · exact .inl hlt
        · exact hdefs x v hd
      | read y w ty =>
        refine ⟨fun x v hd => hmono v (hdefs x v (by simpa using hd)), fun v hv => hmono v ?_⟩
        rw [lastValue_snoc_read] at hv
        obtain rfl := Option.some.inj hv
        exact hdefs y w (h.ok.logs.reads b l y w ty r (by simpa using hl))

/-- Values are written only where they are defined. -/
theorem Ghost.Finished.writesAvailable (h : G.Finished) : WritesAvailable G.builder.func G.log := by
  intro π b hw l x w r hl
  rcases h.writes b l x w r hl with hv | hlt
  · exact (h.available hw hl).2 w hv
  · exact .inl hlt

end Available

/-! ### Running on from a place -/

/-- A place in a block, after some of its events; `next` is the first value id that is not in use
yet. -/
structure Place where
  block : BlockId
  done : List Event
  next : ValueId

/-- The end of a block under construction. -/
def Ghost.place (g : Ghost) (b : BlockId) : Place := ⟨b, g.log b, g.builder.nextValue⟩

section Resume

variable (M : Module) (G : Ghost)

/-- Follow a terminator in `b`. -/
def leave (b : BlockId) (env : Env) (k : ℕ) (t : Terminator) : InterpM (Option RtValue) := do
  match ← execTerminator env t with
  | .goto target => loop M k G.builder.func target (some b) env
  | .done v => .ok v

/-- Run the function of `G` on from a place. -/
def resume (p : Place) (env : Env) (k : ℕ) : InterpM (Option RtValue) := do
  let rest := instsOf ((G.log p.block).drop p.done.length)
  let env ← rest.foldlM (execInst M (callWith (loop M k))) env
  leave M G p.block env k (← Comp.expect .terminatorMissing (G.term p.block))

end Resume

section Resume

variable {M : Module} {G : Ghost} {b p : BlockId} {l r : List Event} {n m : ValueId} {env : Env}
  {t : Terminator}

theorem leave_rising (t : Terminator) : Rising fun k => leave M G b env k t := by
  refine Rising.bind (.const _) fun exit => ?_
  cases exit with
  | goto target => exact loop_rising M _ target _ env
  | done v => exact .const _

theorem resume_rising (p : Place) (env : Env) : Rising (resume M G p env) := by
  refine Rising.bind (fun k => ?_) fun env => .bind (.const _) fun t => leave_rising t
  refine Approx.foldlM (fun env i => execInst_approx ?_ env i) _
  exact fun g xs => callWith_rising M g xs k

/-- The next event is an instruction. -/
theorem resume_inst {i : Instruction} (hl : G.log b = l ++ .inst i :: r) (m : ValueId) :
    resume M G ⟨b, l, n⟩ env = fun k => execInst M (callWith (loop M k)) env i >>= fun env =>
      resume M G ⟨b, l ++ [.inst i], m⟩ env k := by
  funext k
  unfold resume
  dsimp only
  have hrest : (G.log b).drop (l ++ [Event.inst i]).length = r := by
    rw [hl, show l ++ .inst i :: r = (l ++ [.inst i]) ++ r by simp, List.drop_left]
  rw [hrest, hl, List.drop_left, show instsOf (.inst i :: r) = i :: instsOf r from rfl, List.foldlM_cons,
    bind_assoc]

/-- The next events are no instructions. -/
theorem resume_skip {e : List Event} (hl : G.log b = l ++ (e ++ r)) (he : instsOf e = []) (m : ValueId) :
    resume M G ⟨b, l, n⟩ env = resume M G ⟨b, l ++ e, m⟩ env := by
  funext k
  unfold resume
  dsimp only
  have hrest : (G.log b).drop (l ++ e).length = r := by
    rw [hl, ← List.append_assoc, List.drop_left]
  rw [hrest, hl, List.drop_left, instsOf_append, he, List.nil_append]

/-- At the end of the block its terminator is followed. -/
theorem resume_end (ht : G.term b = some t) :
    resume M G ⟨b, G.log b, n⟩ env = fun k => leave M G b env k t := by
  funext k
  unfold resume
  dsimp only
  rw [List.drop_length, ht]
  rfl

/-- Entering a block, once its phis are read. -/
theorem loop_resume (h : G.Sound) (hb : b < G.size) {rs : List (ValueId × RtValue)}
    {cameFrom : Option BlockId}
    (hrs : phiResults env cameFrom (G.builder.func.instsAt b) = .ok rs) (m : ValueId) (k : ℕ) :
    loop M (k + 1) G.builder.func b cameFrom env = resume M G ⟨b, [], m⟩ (env.insertAll rs) k := by
  have hblock := h.ok.graph.indexed.block_some_iff.mpr ⟨hb, rfl⟩
  -- the instructions of the block that are no phis have been emitted, in this order
  have hbody : (G.builder.func.instsAt b).foldlM (execInst M (callWith (loop M k))) (env.insertAll rs) =
      (instsOf (G.log b)).foldlM (execInst M (callWith (loop M k))) (env.insertAll rs) := by
    rw [← foldlM_execInst_filter, h.ok.logs.body, foldlM_execInst_filter]
  rw [loop, hblock]
  unfold resume
  dsimp only [expect_some, ok_bind]
  rw [hrs, ok_bind, hbody]
  rfl

end Resume

/-! ### The invariant -/

/-- The variables that have been given a value, with that value. -/
abbrev Store : Type := String → Option RtValue

/-- What holds of a run of the function of `G` at a place. -/
structure Holds (G : Ghost) (p : Place) (env : Env) (σ : Store) : Prop where
  reach : ∃ π, G.builder.func.Walk π p.block
  /-- Whatever definition of a variable reaches the place is what the variable has got. -/
  held : ∀ x v, defAfter (G.entryDef p.block) p.done x = some v → ∃ a, env v = some a ∧ σ x = some a
  last : ∀ v, lastValue p.done = some v → env v ≠ none

section Holds

variable {M : Module} {G : Ghost} {b p s : BlockId} {l r : List Event} {n m : ValueId} {env env' : Env}
  {σ : Store} {x : String} {v : ValueId} {a : RtValue} {ty : Ty} {t : Terminator}

theorem Holds.next (h : Holds G ⟨b, l, n⟩ env σ) (m : ValueId) : Holds G ⟨b, l, m⟩ env σ :=
  ⟨h.reach, h.held, h.last⟩

/-- An instruction is executed, or the value of a phi is there already. -/
theorem Holds.inst (hG : G.Finished) (h : Holds G ⟨b, l, n⟩ env σ) {i : Instruction}
    (hl : G.log b = l ++ .inst i :: r) (henv : ∀ v, v ≠ i.id → env' v = env v) (hi : env' i.id ≠ none)
    (m : ValueId) : Holds G ⟨b, l ++ [.inst i], m⟩ env' σ := by
  refine ⟨h.reach, fun x v hd => ?_, fun v hv => ?_⟩
  · rw [defAfter_snoc_inst] at hd
    have hne := hG.toExact.defAfter_ne hG.allSealed hG.writesAvailable h.reach hl hd
    rw [henv v hne]
    exact h.held x v hd
  · rw [lastValue_snoc_inst] at hv
    exact Option.some.inj hv ▸ hi

/-- A variable that is read has the value that was looked up for it. -/
theorem Holds.read (hG : G.Finished) (h : Holds G ⟨b, l, n⟩ env σ)
    (hl : G.log b = l ++ .read x v ty :: r) (m : ValueId) :
    ∃ a, env v = some a ∧ σ x = some a ∧ Holds G ⟨b, l ++ [.read x v ty], m⟩ env σ := by
  obtain ⟨a, hv, hx⟩ := h.held x v (hG.ok.logs.reads b l x v ty r hl)
  refine ⟨a, hv, hx, h.reach, fun y w hd => h.held y w (by simpa using hd), fun w hw => ?_⟩
  rw [lastValue_snoc_read] at hw
  rw [← Option.some.inj hw, hv]
  exact Option.some_ne_none a

theorem Holds.write (h : Holds G ⟨b, l, n⟩ env σ) (hv : env v = some a) (x : String) (m : ValueId) :
    Holds G ⟨b, l ++ [.write x v], m⟩ env (insertAt σ x (some a)) := by
  refine ⟨h.reach, fun y w hd => ?_, fun w hw => h.last w (by simpa using hw)⟩
  rw [defAfter_snoc_write] at hd
  unfold insertAt
  split at hd
  · next hxy =>
    rw [if_pos hxy.symm]
    exact ⟨a, Option.some.inj hd ▸ hv, rfl⟩
  · next hxy =>
    rw [if_neg (Ne.symm hxy)]
    exact h.held y w hd

/-- The successors of a terminator have the block as a predecessor. -/
theorem Ghost.Exact.pred_of_succ (h : G.Exact) (ht : G.term p = some t) (hs : s ∈ t.successors) :
    p ∈ G.builder.preds s := by
  refine h.edge_iff.mp ⟨_, h.ok.graph.indexed.block_some_iff.mpr ⟨?_, rfl⟩, ?_⟩
  · by_contra hlt
    have hnone : G.term p = none := Function.termAt_of_length_le (Nat.not_lt.mp hlt)
    rw [ht] at hnone
    cases hnone
  · show s ∈ succsOfTerm (G.term p)
    rw [ht]
    exact hs

/-- The operands of the phis of a block, on the edge from `p`: those of a phi for a variable are its
definitions, and those of an emitted phi what was computed last. -/
theorem Ghost.Finished.operand (hG : G.Finished) (hp : p ∈ G.builder.preds b) {i : Instruction}
    (hi : i ∈ G.builder.func.instsAt b) {incoming : List (BlockId × ValueId)}
    (hk : i.kind = .phi incoming) :
    ∃ w, incoming.find? (fun e => e.1 == p) = some (p, w) ∧
      ((i ∈ instsOf (G.log b) ∧ lastValue (G.log p) = some w) ∨
        i ∉ instsOf (G.log b) ∧ ∃ x, G.entryDef b x = some (.phi i.id) ∧ G.outDef p x = some w) := by
  by_cases hmem : i ∈ instsOf (G.log b)
  · obtain ⟨-, hpreds, hvals⟩ := hG.phis b i hmem incoming hk
    have hsome : (incoming.find? fun e => e.1 == p).isSome := by
      rw [← hpreds] at hp
      obtain ⟨e, he, rfl⟩ := List.mem_map.mp hp
      exact List.find?_isSome.mpr ⟨e, he, beq_self_eq_true _⟩
    obtain ⟨⟨q, w⟩, hfind⟩ := Option.isSome_iff_exists.mp hsome
    obtain rfl : q = p := by simpa using List.find?_some hfind
    exact ⟨w, hfind, .inl ⟨hmem, hvals _ (List.mem_of_find?_eq_some hfind)⟩⟩
  · obtain ⟨x, w, hx, hout, hfind⟩ := hG.toExact.readPhi_find hG.allSealed hp (mem_readPhis.mpr ⟨hi, hmem⟩)
    rw [hk] at hfind
    exact ⟨w, hfind, .inr ⟨hmem, x, hx, hout⟩⟩

/-- A block that some walk leads to exists. -/
theorem Ghost.Exact.lt_of_pred (h : G.Exact) (hp : p ∈ G.builder.preds b) : b < G.size :=
  h.ok.graph.lt_of_pred hp

theorem phiResults_ok (env : Env) (cameFrom : Option BlockId) {l : List Instruction}
    (h : ∀ i ∈ l, ∀ incoming, i.kind = .phi incoming → ∃ a, phiValue env cameFrom incoming = .ok a) :
    ∃ rs, phiResults env cameFrom l = .ok rs := by
  induction l with
  | nil => exact ⟨[], rfl⟩
  | cons i l ih =>
    obtain ⟨rs, hrs⟩ := ih fun j hj => h j (List.mem_cons_of_mem _ hj)
    cases hk : i.kind with
    | phi incoming =>
      obtain ⟨a, ha⟩ := h i List.mem_cons_self incoming hk
      rw [phiResults_cons_phi env cameFrom hk, ha, hrs]
      exact ⟨_, rfl⟩
    | _ =>
      rw [phiResults_cons_other env cameFrom (by rw [hk]; rfl)]
      exact ⟨rs, hrs⟩

/-- Over an edge: the phis of the block are resolved, and the invariant is kept. -/
theorem Holds.arrive (hG : G.Finished) (h : Holds G ⟨p, G.log p, n⟩ env σ)
    (hp : p ∈ G.builder.preds b) (m : ValueId) :
    ∃ env', (∀ M k, loop M (k + 1) G.builder.func b (some p) env = resume M G ⟨b, [], m⟩ env' k) ∧
      Holds G ⟨b, [], m⟩ env' σ ∧
      (∀ i ∈ instsOf (G.log b), i.kind.isPhi = true → ∀ w, lastValue (G.log p) = some w →
        env' i.id = env w) ∧
      ∀ v, (∀ i ∈ G.builder.func.instsAt b, i.id ≠ v) → env' v = env v := by
  have hvalue : ∀ {incoming w a}, incoming.find? (fun e => e.1 == p) = some (p, w) → env w = some a →
      phiValue env (some p) incoming = .ok a := by
    intro incoming w a hfind hw
    rw [phiValue, expect_some, ok_bind, hfind, expect_some, ok_bind]
    exact Env.get_eq_ok.mpr hw
  obtain ⟨rs, hrs⟩ := phiResults_ok env (some p) (l := G.builder.func.instsAt b) <| by
    intro i hi incoming hk
    obtain ⟨w, hfind, ⟨-, hlast⟩ | ⟨-, x, -, hout⟩⟩ := hG.operand hp hi hk
    · obtain ⟨a, ha⟩ := Option.ne_none_iff_exists'.mp (h.last w hlast)
      exact ⟨a, hvalue hfind ha⟩
    · obtain ⟨a, ha, -⟩ := h.held x w hout
      exact ⟨a, hvalue hfind ha⟩
  have hnd : ((G.builder.func.instsAt b).map (·.id)).Nodup := hG.ok.values.nodup b
  obtain ⟨hphis, hrest⟩ := phis_at_once (hnd.sublist (List.filter_sublist.map _)) hrs
  -- what a phi has got on the edge
  have hphi : ∀ i ∈ G.builder.func.instsAt b, ∀ incoming, i.kind = .phi incoming → ∀ w a,
      incoming.find? (fun e => e.1 == p) = some (p, w) → env w = some a →
      env.insertAll rs i.id = some a := by
    intro i hi incoming hk w a hfind ha
    exact Env.get_eq_ok.mp ((hphis i hi incoming hk).trans (hvalue hfind ha))
  obtain ⟨π, hw⟩ := h.reach
  have hwalk : G.builder.func.Walk (p :: π) b := .step hw (hG.toExact.edge_iff.mpr hp)
  refine ⟨env.insertAll rs, fun M k => loop_resume hG.toSound (hG.toExact.lt_of_pred hp) hrs m k,
    ⟨⟨_, hwalk⟩, fun x v hd => ?_, fun v hv => by cases hv⟩, fun i hi hk w hw => ?_,
    fun v hv => hrest v fun i hi _ => hv i hi⟩
  · obtain ⟨d, hentry, rfl⟩ := Option.map_eq_some_iff.mp (show (G.entryDef b x).map _ = some v by
      simpa [defAfter, lastWrite] using hd)
    cases d with
    | phi u =>
      obtain ⟨i, hi, rfl, hlog, incoming, hk, -⟩ := hG.toExact.phi_matches hG.allSealed hentry
      obtain ⟨w, hfind, ⟨hin, -⟩ | ⟨-, y, hy, hout⟩⟩ := hG.operand hp hi hk
      · exact absurd hin hlog
      · obtain rfl := hG.ok.entries.inj b x y i.id hentry hy
        obtain ⟨a, ha, hx⟩ := h.held x w hout
        exact ⟨a, hphi i hi incoming hk w a hfind ha, hx⟩
    | copy u =>
      obtain ⟨-, q, hq, hout⟩ := hG.ok.entries.copy b x u hentry
      obtain rfl : p = q := by simpa [hq] using hp
      have hne := hG.toExact.not_defined_after hq ⟨_, hwalk⟩ fun π' hw' =>
        (hG.available hw' (List.append_nil _).symm).1 x u hout
      obtain ⟨a, ha, hx⟩ := h.held x u hout
      refine ⟨a, ?_, hx⟩
      rw [show (EntryDef.copy u).val = u from rfl, hrest u fun i hi _ => hne i hi]
      exact ha
  · have hmem := hG.ok.logs.emitted b i hi
    cases hkind : i.kind with
    | phi incoming =>
      obtain ⟨w', hfind, ⟨-, hlast⟩ | ⟨hnot, -⟩⟩ := hG.operand hp hmem hkind
      · obtain rfl := Option.some.inj (hlast.symm.trans hw)
        obtain ⟨a, ha⟩ := Option.ne_none_iff_exists'.mp (h.last w' hlast)
        rw [ha, hphi i hmem incoming hkind w' a hfind ha]
      · exact absurd hi hnot
    | _ =>
      rw [hkind] at hk
      cases hk

end Holds

end Parser
end Chakobsa
