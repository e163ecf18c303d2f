import Chakobsa.Codegen.Code
import Chakobsa.Codegen.Machine

/-!
# A parallel move is a simultaneous assignment

The code of `parallel_move` on the machine: every source is copied to its staging slot, and then
every destination gets the contents of its slot. So all destinations have the values the sources had
at the start, whatever they have in common (`execAll_moveCode`). Besides the destinations only the
staging slots and `SCRATCH_1` change; `SCRATCH_1` is left with the value that came last through it.
-/

namespace Chakobsa
namespace Codegen

open Ir

/-! ### Locations -/

/-- The value in a location. -/
def Cells.read (σ : Cells) : Loc → I64
  | .reg r => σ.regs r
  | .spill a => σ.mem a

def Loc.isSpill : Loc → Bool
  | .reg _ => false
  | .spill _ => true

/-- The address of staging slot `i`. -/
def slot (base i : ℕ) : ℕ := base + i * 8

/-- A location a value can have while the `n` slots from `base` on are staging slots: an allocatable
register, or an address in memory that is none of the slots. -/
def Loc.Apart (m : MemorySize) (base n : ℕ) : Loc → Prop
  | .reg r => r < NUM_GP_REGS
  | .spill a => m.Contains a ∧ ∀ i < n, a ≠ slot base i

/-- The register `ZERO_REG` holds zero. -/
def Cells.Zero (σ : Cells) : Prop := σ.regs ZERO_REG = 0

section

variable {m : MemorySize} {σ : Cells} {base n : ℕ} {l : Loc} {r : ℕ} {v : I64}

theorem slot_inj {i j : ℕ} (h : slot base i = slot base j) : i = j := by
  simp only [slot] at h
  omega

theorem contains_slot {i : ℕ} (h : base + n * 8 ≤ m.bytes) (hi : i < n) : m.Contains (slot base i) := by
  simp only [MemorySize.Contains, slot]
  omega

/-- An access relative to `ZERO_REG` is to the address in the instruction. -/
theorem Cells.Zero.address (h : σ.Zero) (a : ℤ) : σ.address ZERO_REG a = a := by
  simp [Cells.address, show σ.regs ZERO_REG = 0 from h]

theorem Cells.Zero.load (h : σ.Zero) {a : ℤ} (ha : m.Contains a) (r : ℕ) :
    Instr.exec m ⟨.load, r, ZERO_REG, 0, a⟩ σ = .ok (σ.setReg r (σ.mem a)) := by
  simp only [Instr.exec, h.address, if_pos ha]

theorem Cells.Zero.store (h : σ.Zero) {a : ℤ} (ha : m.Contains a) (r : ℕ) :
    Instr.exec m ⟨.store, ZERO_REG, r, 0, a⟩ σ = .ok (σ.setMem a (σ.regs r)) := by
  simp only [Instr.exec, h.address, if_pos ha]

theorem Cells.Zero.setReg (h : σ.Zero) (hr : r ≠ ZERO_REG) : (σ.setReg r v).Zero :=
  (Cells.setReg_of_ne hr.symm).trans h

theorem Cells.Zero.setMem (h : σ.Zero) (a : ℤ) : (σ.setMem a v).Zero := h

theorem scratch1_ne_zero : SCRATCH_1 ≠ ZERO_REG := by decide

/-- Writing the scratch register or a staging slot leaves a location alone. -/
theorem Loc.Apart.read_setReg (h : l.Apart m base n) : (σ.setReg SCRATCH_1 v).read l = σ.read l := by
  cases l with
  | reg r =>
    have hr : r ≠ SCRATCH_1 := Nat.ne_of_lt (Nat.lt_trans h (by decide))
    exact Cells.setReg_of_ne hr
  | spill a => rfl

theorem Loc.Apart.read_setMem (h : l.Apart m base n) {i : ℕ} (hi : i < n) :
    (σ.setMem (slot base i) v).read l = σ.read l := by
  cases l with
  | reg r => rfl
  | spill a => exact Cells.setMem_of_ne (by exact_mod_cast h.2 i hi)

end

/-! ### The two loops -/

/-- The source of the last move that goes through the scratch register. -/
def lastThrough (through : Loc × Loc → Bool) (moves : List (Loc × Loc)) : Option Loc :=
  (moves.reverse.find? through).map Prod.fst

theorem lastThrough_cons (through : Loc × Loc → Bool) (p : Loc × Loc) (moves : List (Loc × Loc)) :
    lastThrough through (p :: moves) =
      (lastThrough through moves).or (if through p then some p.1 else none) := by
  simp only [lastThrough, List.reverse_cons, List.find?_append, List.find?_singleton]
  cases moves.reverse.find? through with
  | some q => rfl
  | none => by_cases hp : through p = true <;> simp [hp]

/-- What `i` staged sources leave behind. -/
structure Staged (base i : ℕ) (moves : List (Loc × Loc)) (σ σ' : Cells) : Prop where
  regs : ∀ r, r ≠ SCRATCH_1 → σ'.regs r = σ.regs r
  mem : ∀ a : ℤ, (∀ k < moves.length, a ≠ slot base (i + k)) → σ'.mem a = σ.mem a
  slots : ∀ k p, moves[k]? = some p → σ'.mem (slot base (i + k)) = σ.read p.1
  scratch : σ'.regs SCRATCH_1 =
    ((lastThrough (fun p => p.1.isSpill) moves).map σ.read).getD (σ.regs SCRATCH_1)

section Moves

variable {m : MemorySize} {σ : Cells} {base n : ℕ} {moves : List (Loc × Loc)}

theorem execAll_stageCode {src : Loc} {i : ℕ} (hz : σ.Zero) (hsrc : src.Apart m base n)
    (hbase : base + n * 8 ≤ m.bytes) (hi : i < n) :
    execAll m (stageCode (slot base i) src) σ =
      .ok ((if src.isSpill then σ.setReg SCRATCH_1 (σ.read src) else σ).setMem (slot base i)
        (σ.read src)) := by
  have hslot := contains_slot hbase hi
  cases src with
  | reg r =>
    rw [stageCode, Loc.loadCode, Loc.regOr, List.nil_append, execAll_cons (hz.store hslot r)]
    rfl
  | spill a =>
    rw [stageCode, Loc.loadCode, Loc.regOr, List.singleton_append,
      execAll_cons (hz.load hsrc.1 SCRATCH_1),
      execAll_cons ((hz.setReg scratch1_ne_zero).store hslot SCRATCH_1), Cells.setReg_self]
    rfl

theorem stageAll_run {i : ℕ} (hz : σ.Zero) (hsrc : ∀ p ∈ moves, p.1.Apart m base n)
    (hbase : base + n * 8 ≤ m.bytes) (hi : i + moves.length ≤ n) :
    ∃ σ', execAll m (stageAll base i moves) σ = .ok σ' ∧ Staged base i moves σ σ' := by
  induction moves generalizing σ i with
  | nil => exact ⟨σ, rfl, fun _ _ => rfl, fun _ _ => rfl, by simp, rfl⟩
  | cons p moves ih =>
    obtain ⟨src, dst⟩ := p
    rw [List.length_cons] at hi
    have hi' : i < n := by omega
    have hsrc₀ : src.Apart m base n := hsrc (src, dst) List.mem_cons_self
    have hok := execAll_stageCode hz hsrc₀ hbase hi'
    -- the other sources are not touched
    have hread : ∀ l : Loc, l.Apart m base n →
        ((if src.isSpill then σ.setReg SCRATCH_1 (σ.read src) else σ).setMem (slot base i)
          (σ.read src)).read l = σ.read l := by
      intro l hl
      rw [hl.read_setMem hi']
      split
      · exact hl.read_setReg
      · rfl
    have hz' : ((if src.isSpill then σ.setReg SCRATCH_1 (σ.read src) else σ).setMem (slot base i)
        (σ.read src)).Zero := by
      refine Cells.Zero.setMem ?_ _
      split
      · exact hz.setReg scratch1_ne_zero
      · exact hz
    have hmem : (if src.isSpill then σ.setReg SCRATCH_1 (σ.read src) else σ).mem = σ.mem := by
      split <;> rfl
    obtain ⟨σ', hok', hs⟩ := ih hz' (fun p hp => hsrc p (List.mem_cons_of_mem _ hp))
      (i := i + 1) (by omega)
    refine ⟨σ', ?_, fun r hr => ?_, fun a ha => ?_, fun k p hk => ?_, ?_⟩
    · exact (execAll_append hok).trans hok'
    · rw [hs.regs r hr, Cells.setMem_regs]
      split
      · exact Cells.setReg_of_ne hr
      · rfl
    · have ha₀ : a ≠ slot base i := by simpa using ha 0 (Nat.succ_pos _)
      rw [hs.mem a fun k hk => ?_, Cells.setMem_of_ne ha₀, hmem]
      have := ha (k + 1) (by simpa using hk)
      rwa [show i + 1 + k = i + (k + 1) by omega]
    · cases k with
      | zero =>
        obtain rfl : (src, dst) = p := by simpa using hk
        rw [Nat.add_zero, hs.mem _ fun k _ => ?_, Cells.setMem_self]
        intro he
        have := slot_inj (by exact_mod_cast he)
        omega
      | succ k =>
        have hk' : moves[k]? = some p := by simpa using hk
        rw [show i + (k + 1) = i + 1 + k by omega, hs.slots k p hk',
          hread _ (hsrc p (List.mem_cons_of_mem _ (List.mem_of_getElem? hk')))]
    · rw [hs.scratch, lastThrough_cons, Cells.setMem_regs]
      cases hlast : lastThrough (fun p => p.1.isSpill) moves with
      | some l =>
        obtain ⟨q, hq, rfl⟩ := Option.map_eq_some_iff.mp hlast
        have hmem := List.mem_reverse.mp (List.mem_of_find?_eq_some hq)
        simp [hread _ (hsrc q (List.mem_cons_of_mem _ hmem))]
      | none => by_cases hspill : src.isSpill = true <;> simp [hspill]

/-- What restored destinations leave behind, if the staging slots hold the values of the sources
under `val`. -/
structure Unstaged (moves : List (Loc × Loc)) (val : Loc → I64) (σ σ' : Cells) : Prop where
  dests : ∀ p ∈ moves, σ'.read p.2 = val p.1
  regs : ∀ r, r ≠ SCRATCH_1 → (∀ p ∈ moves, p.2 ≠ .reg r) → σ'.regs r = σ.regs r
  mem : ∀ a : ℤ, (∀ p ∈ moves, ∀ b : ℕ, p.2 = .spill b → a ≠ b) → σ'.mem a = σ.mem a
  scratch : σ'.regs SCRATCH_1 =
    ((lastThrough (fun p => p.2.isSpill) moves).map val).getD (σ.regs SCRATCH_1)

/-- What the code for one destination does. -/
def Cells.write (σ : Cells) (dst : Loc) (v : I64) : Cells :=
  match dst with
  | .reg r => σ.setReg r v
  | .spill a => (σ.setReg SCRATCH_1 v).setMem a v

theorem execAll_unstageCode {dst : Loc} {i : ℕ} (hz : σ.Zero) (hdst : dst.Apart m base n)
    (hbase : base + n * 8 ≤ m.bytes) (hi : i < n) :
    execAll m (unstageCode (slot base i) dst) σ = .ok (σ.write dst (σ.mem (slot base i))) := by
  have hslot := contains_slot hbase hi
  cases dst with
  | reg r =>
    rw [unstageCode, execAll_cons (hz.load hslot r)]
    rfl
  | spill a =>
    rw [unstageCode, execAll_cons (hz.load hslot SCRATCH_1),
      execAll_cons ((hz.setReg scratch1_ne_zero).store hdst.1 SCRATCH_1), Cells.setReg_self]
    rfl

theorem Cells.write_read (dst : Loc) (v : I64) : (σ.write dst v).read dst = v := by
  cases dst with
  | reg r => exact Cells.setReg_self
  | spill a => exact Cells.setMem_self

theorem Cells.Zero.write {dst : Loc} (h : σ.Zero) (hdst : dst.Apart m base n) (v : I64) :
    (σ.write dst v).Zero := by
  cases dst with
  | reg r => exact h.setReg (Nat.ne_of_lt (Nat.lt_trans hdst (by decide)))
  | spill a => exact (h.setReg (v := v) scratch1_ne_zero).setMem a

theorem unstageAll_run {i : ℕ} {val : Loc → I64} (hz : σ.Zero)
    (hdst : ∀ p ∈ moves, p.2.Apart m base n) (hnd : (moves.map Prod.snd).Nodup)
    (hbase : base + n * 8 ≤ m.bytes) (hi : i + moves.length ≤ n)
    (hslots : ∀ k p, moves[k]? = some p → σ.mem (slot base (i + k)) = val p.1) :
    ∃ σ', execAll m (unstageAll base i moves) σ = .ok σ' ∧ Unstaged moves val σ σ' := by
  induction moves generalizing σ i with
  | nil => exact ⟨σ, rfl, by simp, fun _ _ _ => rfl, fun _ _ => rfl, rfl⟩
  | cons p moves ih =>
    obtain ⟨src, dst⟩ := p
    rw [List.length_cons] at hi
    rw [List.map_cons, List.nodup_cons] at hnd
    have hi' : i < n := by omega
    have hdst₀ : dst.Apart m base n := hdst (src, dst) List.mem_cons_self
    have hval : σ.mem (slot base i) = val src := hslots 0 (src, dst) rfl
    have hok := execAll_unstageCode hz hdst₀ hbase hi'
    rw [hval] at hok
    -- the slots of the other destinations are not touched
    have hrest : ∀ k p, moves[k]? = some p →
        (σ.write dst (val src)).mem (slot base (i + 1 + k)) = val p.1 := by
      intro k p hk
      have hklt := (List.getElem?_eq_some_iff.mp hk).1
      rw [← hslots (k + 1) p (by simpa using hk), show i + (k + 1) = i + 1 + k by omega]
      cases dst with
      | reg r => rfl
      | spill a =>
        exact Cells.setMem_of_ne fun h => hdst₀.2 _ (by omega) (Int.ofNat_inj.mp h).symm
    obtain ⟨σ', hok', hs⟩ := ih (hz.write hdst₀ _) (fun p hp => hdst p (List.mem_cons_of_mem _ hp))
      hnd.2 (i := i + 1) (by omega) hrest
    refine ⟨σ', (execAll_append hok).trans hok', fun p hp => ?_, fun r hr hne => ?_,
      fun a ha => ?_, ?_⟩
    · rcases List.mem_cons.mp hp with rfl | hp
      · -- no other destination is this one
        have hother : ∀ q ∈ moves, q.2 ≠ dst := fun q hq he =>
          hnd.1 (List.mem_map.mpr ⟨q, hq, he⟩)
        show σ'.read dst = val src
        rw [← Cells.write_read (σ := σ) dst (val src)]
        cases dst with
        | reg r =>
          have hr : r ≠ SCRATCH_1 := Nat.ne_of_lt (Nat.lt_trans hdst₀ (by decide))
          exact hs.regs r hr hother
        | spill a =>
          exact hs.mem a fun q hq b hb he => hother q hq (by rw [hb, Int.ofNat_inj.mp he])
      · exact hs.dests p hp
    · rw [hs.regs r hr fun p hp => hne p (List.mem_cons_of_mem _ hp)]
      have hdr : dst ≠ .reg r := hne (src, dst) List.mem_cons_self
      cases dst with
      | reg x => exact Cells.setReg_of_ne fun h => hdr (by rw [h])
      | spill a => exact Cells.setReg_of_ne hr
    · rw [hs.mem a fun p hp => ha p (List.mem_cons_of_mem _ hp)]
      cases dst with
      | reg x => rfl
      | spill b => exact Cells.setMem_of_ne (ha (src, .spill b) List.mem_cons_self b rfl)
    · rw [hs.scratch, lastThrough_cons]
      cases lastThrough (fun p => p.2.isSpill) moves with
      | some l => rfl
      | none =>
        cases dst with
        | reg x =>
          have hx : SCRATCH_1 ≠ x := (Nat.ne_of_lt (Nat.lt_trans hdst₀ (by decide))).symm
          simp [Loc.isSpill, Cells.write, hx]
        | spill b => simp [Loc.isSpill, Cells.write]

/-! ### The parallel move -/

/-- All destinations have got the values the sources had, and nothing else has changed but the
staging slots and the scratch register, which holds the value that came last through it. -/
structure Moved (base : ℕ) (moves : List (Loc × Loc)) (σ σ' : Cells) : Prop where
  dests : ∀ p ∈ moves, σ'.read p.2 = σ.read p.1
  regs : ∀ r, r ≠ SCRATCH_1 → (∀ p ∈ moves, p.2 ≠ .reg r) → σ'.regs r = σ.regs r
  mem : ∀ a : ℤ, (∀ p ∈ moves, ∀ b : ℕ, p.2 = .spill b → a ≠ b) →
    (∀ k < moves.length, a ≠ slot base k) → σ'.mem a = σ.mem a
  scratch : σ'.regs SCRATCH_1 = (((lastThrough (fun p => p.2.isSpill) moves).or
    (lastThrough (fun p => p.1.isSpill) moves)).map σ.read).getD (σ.regs SCRATCH_1)

theorem execAll_moveCode (hz : σ.Zero) (hsrc : ∀ p ∈ moves, p.1.Apart m base moves.length)
    (hdst : ∀ p ∈ moves, p.2.Apart m base moves.length) (hnd : (moves.map Prod.snd).Nodup)
    (hbase : base + moves.length * 8 ≤ m.bytes) :
    ∃ σ', execAll m (moveCode base moves) σ = .ok σ' ∧ Moved base moves σ σ' := by
  obtain ⟨σ₁, hok₁, h₁⟩ := stageAll_run hz hsrc hbase (i := 0) (Nat.zero_add _).le
  have hz₁ : σ₁.Zero := (h₁.regs ZERO_REG scratch1_ne_zero.symm).trans hz
  obtain ⟨σ₂, hok₂, h₂⟩ := unstageAll_run hz₁ hdst hnd hbase (i := 0) (Nat.zero_add _).le h₁.slots
  refine ⟨σ₂, (execAll_append hok₁).trans hok₂, h₂.dests, fun r hr hne => ?_, fun a ha hs => ?_, ?_⟩
  · rw [h₂.regs r hr hne, h₁.regs r hr]
  · rw [h₂.mem a ha, h₁.mem a fun k hk => by simpa using hs k hk]
  · rw [h₂.scratch, h₁.scratch]
    cases lastThrough (fun p => p.2.isSpill) moves <;> rfl

end Moves

/-! ### Whatever the size of the memory -/

/-- A location the allocator can give a value while the `n` slots from `base` on are staging slots:
a register below the reserved ones, or the address of another cell. The addresses of spill slots and
of staging slots are multiples of 8 (`StaticMemory.aligned`), so that another address is the address
of 8 other bytes, and a move from cell to cell is one of the bytes they stand for. -/
def Loc.Allocatable (base n : ℕ) : Loc → Prop
  | .reg r => r < NUM_GP_REGS
  | .spill a => ∀ i < n, a ≠ slot base i

/-- The memory has the cell of a location. -/
def MemorySize.Holds (m : MemorySize) : Loc → Prop
  | .reg _ => True
  | .spill a => m.Contains a

section Fits

variable {m : MemorySize} {σ σ' σ'' : Cells} {base n : ℕ} {moves : List (Loc × Loc)} {i : Instr}
  {code : List Instr} {l : Loc}

theorem Loc.Allocatable.apart (h : l.Allocatable base n) (hm : m.Holds l) : l.Apart m base n := by
  cases l with
  | reg r => exact h
  | spill a => exact ⟨hm, h⟩

theorem execAll_cons_ok (h : execAll m (i :: code) σ = .ok σ'') :
    ∃ σ', i.exec m σ = .ok σ' ∧ execAll m code σ' = .ok σ'' := by
  rw [execAll, List.foldlM_cons] at h
  exact ExceptLemmas.bind_eq_ok.mp h

theorem Cells.Zero.load_ok {r : ℕ} {a : ℤ} (hz : σ.Zero) (hr : r ≠ ZERO_REG)
    (h : Instr.exec m ⟨.load, r, ZERO_REG, 0, a⟩ σ = .ok σ') : m.Contains a ∧ σ'.Zero := by
  by_cases ha : m.Contains a
  · rw [hz.load ha] at h
    obtain rfl := Except.ok.inj h
    exact ⟨ha, hz.setReg hr⟩
  · simp only [Instr.exec, hz.address, if_neg ha, reduceCtorEq] at h

theorem Cells.Zero.store_ok {r : ℕ} {a : ℤ} (hz : σ.Zero)
    (h : Instr.exec m ⟨.store, ZERO_REG, r, 0, a⟩ σ = .ok σ') : m.Contains a ∧ σ'.Zero := by
  by_cases ha : m.Contains a
  · rw [hz.store ha] at h
    obtain rfl := Except.ok.inj h
    exact ⟨ha, hz.setMem a⟩
  · simp only [Instr.exec, hz.address, if_neg ha, reduceCtorEq] at h

/-- Sources that have been staged are in memory, and so are their slots. -/
theorem stageAll_fits {i : ℕ} (hz : σ.Zero)
    (h : execAll m (stageAll base i moves ++ code) σ = .ok σ'') :
    (∀ p ∈ moves, m.Holds p.1) ∧ (∀ k < moves.length, m.Contains (slot base (i + k))) ∧
      ∃ σ', σ'.Zero ∧ execAll m code σ' = .ok σ'' := by
  induction moves generalizing σ i with
  | nil => exact ⟨by simp, by simp, σ, hz, h⟩
  | cons p moves ih =>
    obtain ⟨src, dst⟩ := p
    -- after the load of the source
    have hstore : ∀ {σ₁ : Cells} {r : ℕ}, σ₁.Zero → m.Holds src →
        execAll m (⟨.store, ZERO_REG, r, 0, slot base i⟩ :: (stageAll base (i + 1) moves ++ code)) σ₁ =
          .ok σ'' →
        (∀ p ∈ (src, dst) :: moves, m.Holds p.1) ∧
          (∀ k < ((src, dst) :: moves).length, m.Contains (slot base (i + k))) ∧
          ∃ σ', σ'.Zero ∧ execAll m code σ' = .ok σ'' := by
      intro σ₁ r hz₁ hsrc h₁
      obtain ⟨σ₂, hexec, h₂⟩ := execAll_cons_ok h₁
      obtain ⟨hslot, hz₂⟩ := hz₁.store_ok hexec
      obtain ⟨hsrcs, hslots, hrest⟩ := ih hz₂ h₂
      refine ⟨List.forall_mem_cons.mpr ⟨hsrc, hsrcs⟩, fun k hk => ?_, hrest⟩
      cases k with
      | zero => exact hslot
      | succ k =>
        rw [show i + (k + 1) = i + 1 + k by omega]
        exact hslots k (Nat.lt_of_succ_lt_succ hk)
    cases src with
    | reg r => exact hstore hz trivial h
    | spill a =>
      obtain ⟨σ₁, hexec, h₁⟩ := execAll_cons_ok h
      obtain ⟨hload, hz₁⟩ := hz.load_ok scratch1_ne_zero hexec
      exact hstore hz₁ hload h₁

/-- Destinations that have been written are in memory. -/
theorem unstageAll_fits {i : ℕ} (hz : σ.Zero) (hdst : ∀ p ∈ moves, p.2.Allocatable base n)
    (h : execAll m (unstageAll base i moves) σ = .ok σ'') : ∀ p ∈ moves, m.Holds p.2 := by
  induction moves generalizing σ i with
  | nil => simp
  | cons p moves ih =>
    obtain ⟨src, dst⟩ := p
    obtain ⟨hdst₀, hdsts⟩ := List.forall_mem_cons.mp hdst
    rw [List.forall_mem_cons]
    cases dst with
    | reg r =>
      obtain ⟨σ₁, hload, h₁⟩ := execAll_cons_ok h
      have hr : r ≠ ZERO_REG := Nat.ne_of_lt (Nat.lt_trans hdst₀ (by decide))
      obtain ⟨-, hz₁⟩ := hz.load_ok hr hload
      exact ⟨trivial, ih hz₁ hdsts h₁⟩
    | spill a =>
      obtain ⟨σ₁, hload, h₁⟩ := execAll_cons_ok h
      obtain ⟨-, hz₁⟩ := hz.load_ok scratch1_ne_zero hload
      obtain ⟨σ₂, hstore, h₂⟩ := execAll_cons_ok h₁
      obtain ⟨ha, hz₂⟩ := hz₁.store_ok hstore
      exact ⟨ha, ih hz₂ hdsts h₂⟩

end Fits

/-- The registers and the memory after a simultaneous assignment: every destination has the value
its source had before, and all else is as it was, but for `SCRATCH_1` and the slots. -/
structure Assigned (base : ℕ) (moves : List (Loc × Loc)) (σ σ' : Cells) : Prop where
  dests : ∀ p ∈ moves, σ'.read p.2 = σ.read p.1
  regs : ∀ r, r ≠ SCRATCH_1 → (∀ p ∈ moves, p.2 ≠ .reg r) → σ'.regs r = σ.regs r
  mem : ∀ a : ℤ, (∀ p ∈ moves, ∀ b : ℕ, p.2 = .spill b → a ≠ b) →
    (∀ k < moves.length, a ≠ slot base k) → σ'.mem a = σ.mem a

/-- The code `parallel_move` emits is a simultaneous assignment, whatever sources and destinations
have in common. It ends unless the memory lacks one of the cells, and then it traps. In what the
code generator asks for, the addresses and `temp.next` are multiples of 8, and a cell is the 8 bytes
from its address on. -/
theorem parallelMove_assigns {f : Function} {regionEnd : ℕ} {temp temp' : Temps}
    {moves : List (Loc × Loc)} {code : List Instr}
    (h : parallelMove f regionEnd temp moves = .ok (code, temp'))
    (hloc : ∀ p ∈ moves, p.1.Allocatable temp.next moves.length ∧
      p.2.Allocatable temp.next moves.length)
    (hnd : (moves.map Prod.snd).Nodup) (m : MemorySize) {σ : Cells} (hz : σ.Zero) :
    (∀ σ', execAll m code σ = .ok σ' → Assigned temp.next moves σ σ') ∧
      ((∀ p ∈ moves, m.Holds p.1 ∧ m.Holds p.2) → temp.next + moves.length * 8 ≤ m.bytes →
        ∃ σ', execAll m code σ = .ok σ') := by
  obtain ⟨hr, -⟩ := parallelMove_ok h
  obtain ⟨rfl, -⟩ := Prod.mk.inj hr
  have hassigns : (∀ p ∈ moves, m.Holds p.1 ∧ m.Holds p.2) →
      temp.next + moves.length * 8 ≤ m.bytes →
        ∃ σ', execAll m (moveCode temp.next moves) σ = .ok σ' ∧ Assigned temp.next moves σ σ' := by
    intro hm hbase
    obtain ⟨σ', hok, hmoved⟩ := execAll_moveCode hz
      (fun p hp => (hloc p hp).1.apart (hm p hp).1) (fun p hp => (hloc p hp).2.apart (hm p hp).2)
      hnd hbase
    exact ⟨σ', hok, hmoved.dests, hmoved.regs, hmoved.mem⟩
  refine ⟨fun σ' hexec => ?_, fun hm hbase => ?_⟩
  · -- the code has ended, so that the memory has all the cells
    obtain ⟨hsrcs, hslots, σ₁, hz₁, hexec₁⟩ := stageAll_fits hz hexec
    have hdsts := unstageAll_fits hz₁ (fun p hp => (hloc p hp).2) hexec₁
    by_cases hne : moves = []
    · subst hne
      obtain rfl : σ = σ' := Except.ok.inj hexec
      exact ⟨by simp, fun _ _ _ => rfl, fun _ _ _ => rfl⟩
    · have hlen := List.length_pos_iff.mpr hne
      have hlast := hslots (moves.length - 1) (by omega)
      simp only [MemorySize.Contains, slot] at hlast
      obtain ⟨σ₂, hok, hassigned⟩ := hassigns (fun p hp => ⟨hsrcs p hp, hdsts p hp⟩) (by omega)
      obtain rfl : σ' = σ₂ := Except.ok.inj (hexec.symm.trans hok)
      exact hassigned
  · obtain ⟨σ', hok, -⟩ := hassigns hm hbase
    exact ⟨σ', hok⟩

/-- Two registers and a spilled value change places in a cycle, and one of them is copied as well. -/
def cycleMoves : List (Loc × Loc) :=
  [(.reg 0, .reg 1), (.reg 1, .spill 0), (.spill 0, .reg 0), (.reg 1, .spill 8)]

def cycleCells : Cells where
  regs := fun r => if r = 0 then 5 else if r = 1 then 6 else 0
  mem := fun a => if a = 0 then 7 else 0

theorem parallelMove_assigns_cycle : ∃ code temp',
    parallelMove ⟨"f", [], none, [], 0⟩ 4096 ⟨16, []⟩ cycleMoves = .ok (code, temp') ∧
      (∀ σ', execAll ⟨4096, by decide⟩ code cycleCells = .ok σ' →
        Assigned 16 cycleMoves cycleCells σ') ∧
      ∃ σ', execAll ⟨4096, by decide⟩ code cycleCells = .ok σ' := by
  refine ⟨_, _, rfl, ?_⟩
  have hslots : ∀ p ∈ cycleMoves, p.1.Allocatable 16 4 ∧ p.2.Allocatable 16 4 := by
    simp only [cycleMoves, List.forall_mem_cons, List.not_mem_nil, false_implies, implies_true,
      and_true, Loc.Allocatable, NUM_GP_REGS]
    decide
  have hzero : cycleCells.Zero := rfl
  have h := @parallelMove_assigns ⟨"f", [], none, [], 0⟩ 4096 ⟨16, []⟩ _ cycleMoves _ rfl hslots
    (by decide) ⟨4096, by decide⟩ _ hzero
  refine ⟨h.1, h.2 ?_ (by decide)⟩
  simp only [cycleMoves, List.forall_mem_cons, List.not_mem_nil, false_implies, implies_true,
    and_true, MemorySize.Holds]
  decide

end Codegen
end Chakobsa
