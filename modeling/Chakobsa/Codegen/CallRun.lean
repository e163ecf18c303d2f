import Chakobsa.Codegen.InstRun

/-!
# What the code around a call does

Before a call the registers of the live values are stored from the stack pointer on, the pointer is
moved behind them, and the arguments are moved into the argument registers. After it the pointer is
moved back, the registers are loaded again, and the result is moved to where its value lives.

`prologue_run` and `epilogue_run` say what the two pieces do to registers and memory. All that can go
wrong is that the stack leaves the memory: then the prologue traps, and the memory is smaller than
what the pointer was to be moved to.
-/

namespace Chakobsa
namespace Codegen

open Ir

section Access

variable {m : MemorySize} {σ σ' : Cells} {b r off : ℕ} {i : Instr} {code code' : List Instr}
  {tr : Trap}

theorem execAll_cons_error (h : i.exec m σ = .error tr) : execAll m (i :: code) σ = .error tr := by
  rw [execAll, List.foldlM_cons, h]
  rfl

theorem execAll_append_error (h : execAll m code σ = .error tr) :
    execAll m (code ++ code') σ = .error tr := by
  rw [execAll] at h ⊢
  rw [List.foldlM_append, h]
  rfl

/-- An address on the stack. -/
theorem stack_address (hp : (σ.regs STACK_PTR).toInt = b) (off : ℕ) :
    σ.address STACK_PTR off = ((b + off : ℕ) : ℤ) := by
  rw [Cells.address, hp]
  exact (Int.natCast_add b off).symm

theorem store_stack (hp : (σ.regs STACK_PTR).toInt = b) (h : b + off + 8 ≤ m.bytes) (r : ℕ) :
    Instr.exec m ⟨.store, STACK_PTR, r, 0, (off : ℤ)⟩ σ =
      .ok (σ.setMem ((b + off : ℕ) : ℤ) (σ.regs r)) := by
  simp only [Instr.exec, stack_address hp]
  rw [if_pos ⟨by omega, by omega⟩]

theorem store_stack_trap (hp : (σ.regs STACK_PTR).toInt = b) (h : m.bytes < b + off + 8) (r : ℕ) :
    Instr.exec m ⟨.store, STACK_PTR, r, 0, (off : ℤ)⟩ σ = .error .outOfBounds := by
  simp only [Instr.exec, stack_address hp]
  refine if_neg fun hin => ?_
  have := hin.2
  omega

theorem load_stack (hp : (σ.regs STACK_PTR).toInt = b) (h : b + off + 8 ≤ m.bytes) (r : ℕ) :
    Instr.exec m ⟨.load, r, STACK_PTR, 0, (off : ℤ)⟩ σ =
      .ok (σ.setReg r (σ.mem ((b + off : ℕ) : ℤ))) := by
  simp only [Instr.exec, stack_address hp]
  rw [if_pos ⟨by omega, by omega⟩]

end Access

/-! ### Saving and restoring -/

/-- Registers have been stored from slot `i` of the frame at `b` on. -/
structure Saved (b i : ℕ) (saved : List (ValueId × ℕ)) (σ τ : Cells) : Prop where
  regs : τ.regs = σ.regs
  slots : ∀ (j : ℕ) (p : ValueId × ℕ), saved[j]? = some p →
    τ.mem (slot b (i + j) : ℤ) = σ.regs p.2
  mem : ∀ a : ℤ, (∀ j < saved.length, a ≠ slot b (i + j)) → τ.mem a = σ.mem a

section Frame

variable {m : MemorySize} {σ τ : Cells} {b i n : ℕ} {saved : List (ValueId × ℕ)}

theorem saveAll_run (hp : (σ.regs STACK_PTR).toInt = b) :
    (∃ τ, execAll m (saveAll i saved) σ = .ok τ ∧ Saved b i saved σ τ ∧
      (saved ≠ [] → b + (i + saved.length) * 8 ≤ m.bytes)) ∨
    execAll m (saveAll i saved) σ = .error .outOfBounds ∧
      m.bytes < b + (i + saved.length) * 8 := by
  induction saved generalizing σ i with
  | nil => exact .inl ⟨σ, rfl, ⟨rfl, by simp, fun _ _ => rfl⟩, by simp⟩
  | cons p saved ih =>
    obtain ⟨v, reg⟩ := p
    by_cases hroom : b + i * 8 + 8 ≤ m.bytes
    · -- the first register is stored, and the others behind it
      have hstore := store_stack hp hroom reg
      rw [saveAll, execAll_cons hstore]
      rcases @ih (σ.setMem ((b + i * 8 : ℕ) : ℤ) (σ.regs reg)) (i + 1) hp with
        ⟨τ, hτ, hs, hend⟩ | ⟨htrap, hsize⟩
      · refine .inl ⟨τ, hτ, ⟨hs.regs, fun j p hj => ?_, fun a ha => ?_⟩, fun _ => ?_⟩
        · cases j with
          | zero =>
            obtain rfl : (v, reg) = p := by simpa using hj
            rw [hs.mem _ fun j _ he => ?_]
            · exact Cells.setMem_self
            · have := slot_inj (Int.ofNat_inj.mp he)
              omega
          | succ j =>
            have hslot := hs.slots j p (by simpa using hj)
            rwa [Nat.add_right_comm, Nat.add_assoc] at hslot
        · rw [hs.mem a fun j hj => ?_]
          · exact Cells.setMem_of_ne (ha 0 (by simp))
          · have := ha (j + 1) (by simpa using hj)
            rwa [Nat.add_right_comm, Nat.add_assoc]
        · cases saved with
          | nil => simpa [Nat.add_mul, Nat.add_assoc] using hroom
          | cons q saved =>
            have := hend (List.cons_ne_nil _ _)
            simp only [List.length_cons] at this ⊢
            omega
      · refine .inr ⟨htrap, ?_⟩
        rw [List.length_cons]
        omega
    · -- there is no room for the first one already
      refine .inr ⟨execAll_cons_error (store_stack_trap hp (by omega) reg), ?_⟩
      rw [List.length_cons]
      omega

/-- Moving the stack pointer. -/
theorem push_run (hp : (σ.regs STACK_PTR).toInt = b) (hlt : b + n < 2 ^ 63) :
    ∃ τ, execAll m (bumpCode .add n) σ = .ok τ ∧ (τ.regs STACK_PTR).toInt = ((b + n : ℕ) : ℤ) ∧
      τ.mem = σ.mem ∧ ∀ r, r ≠ SCRATCH_1 → r ≠ STACK_PTR → τ.regs r = σ.regs r := by
  unfold bumpCode
  split
  · refine ⟨_, rfl, ?_, rfl, fun r h₁ h₂ => ?_⟩
    · have hadd : (σ.regs STACK_PTR + BitVec.ofInt 64 (n : ℤ)).toInt = ((b + n : ℕ) : ℤ) := by
        rw [BitVec.toInt_add, hp, toInt_ofInt_of_lt (by omega), Int.bmod_def]
        omega
      exact hadd
    · exact (Cells.setReg_of_ne h₂).trans (Cells.setReg_of_ne h₁)
  · next hn =>
    obtain rfl : n = 0 := by omega
    exact ⟨σ, rfl, hp, rfl, fun _ _ _ => rfl⟩

theorem pop_run (hp : (σ.regs STACK_PTR).toInt = ((b + n : ℕ) : ℤ)) (hlt : b + n < 2 ^ 63) :
    ∃ τ, execAll m (bumpCode .sub n) σ = .ok τ ∧ (τ.regs STACK_PTR).toInt = (b : ℤ) ∧
      τ.mem = σ.mem ∧ ∀ r, r ≠ SCRATCH_1 → r ≠ STACK_PTR → τ.regs r = σ.regs r := by
  unfold bumpCode
  split
  · refine ⟨_, rfl, ?_, rfl, fun r h₁ h₂ => ?_⟩
    · have hsub : (σ.regs STACK_PTR - BitVec.ofInt 64 (n : ℤ)).toInt = (b : ℤ) := by
        rw [BitVec.toInt_sub, hp, toInt_ofInt_of_lt (by omega), Int.bmod_def]
        omega
      exact hsub
    · exact (Cells.setReg_of_ne h₂).trans (Cells.setReg_of_ne h₁)
  · next hn =>
    obtain rfl : n = 0 := by omega
    exact ⟨σ, rfl, hp, rfl, fun _ _ _ => rfl⟩

/-- Every register gets the value in its slot. -/
theorem restoreAll_run (hp : (σ.regs STACK_PTR).toInt = b)
    (hroom : saved ≠ [] → b + (i + saved.length) * 8 ≤ m.bytes)
    (hregs : ∀ p ∈ saved, p.2 < NUM_GP_REGS) (hnd : (saved.map Prod.snd).Nodup) :
    ∃ τ, execAll m (restoreAll i saved) σ = .ok τ ∧ τ.mem = σ.mem ∧
      (∀ (j : ℕ) (p : ValueId × ℕ), saved[j]? = some p →
        τ.regs p.2 = σ.mem (slot b (i + j) : ℤ)) ∧
      ∀ r, r ∉ saved.map Prod.snd → τ.regs r = σ.regs r := by
  induction saved generalizing σ i with
  | nil => exact ⟨σ, rfl, rfl, by simp, fun _ _ => rfl⟩
  | cons p saved ih =>
    obtain ⟨v, reg⟩ := p
    rw [List.map_cons, List.nodup_cons] at hnd
    have hend := hroom (List.cons_ne_nil _ _)
    rw [List.length_cons] at hend
    have hload : Instr.exec m ⟨.load, reg, STACK_PTR, 0, ((i * 8 : ℕ) : ℤ)⟩ σ =
        .ok (σ.setReg reg (σ.mem ((b + i * 8 : ℕ) : ℤ))) := load_stack hp (by omega) reg
    have hptr : STACK_PTR ≠ reg :=
      ((ne_of_lt_gp (hregs (v, reg) List.mem_cons_self)).2.2.2.1).symm
    have hp' : ((σ.setReg reg (σ.mem ((b + i * 8 : ℕ) : ℤ))).regs STACK_PTR).toInt = b := by
      rw [Cells.setReg_of_ne hptr]
      exact hp
    obtain ⟨τ, hτ, hmem, hslots, hother⟩ := ih (i := i + 1) hp' (fun _ => by omega)
      (fun q hq => hregs q (List.mem_cons_of_mem _ hq)) hnd.2
    refine ⟨τ, (execAll_cons hload).trans hτ, hmem, fun j p hj => ?_, fun r hr => ?_⟩
    · cases j with
      | zero =>
        obtain rfl : (v, reg) = p := by simpa using hj
        rw [hother reg hnd.1]
        exact Cells.setReg_self
      | succ j =>
        rw [hslots j p (by simpa using hj), Nat.add_right_comm, Nat.add_assoc]
        rfl
    · rw [List.map_cons, List.mem_cons, not_or] at hr
      rw [hother r hr.2]
      exact Cells.setReg_of_ne hr.1

end Frame

/-! ### Before the call -/

/-- Where control leaves for the callee: the registers are saved in the frame at `b`, the stack
pointer is behind them, and the arguments are in their registers. -/
structure Called (loc : ValueId → Loc) (b base : ℕ) (saved : List (ValueId × ℕ))
    (args : List ValueId) (σ τ : Cells) : Prop where
  zero : τ.Zero
  pointer : (τ.regs STACK_PTR).toInt = ((b + saved.length * 8 : ℕ) : ℤ)
  passed : ∀ (i : ℕ) (a : ValueId), args[i]? = some a → τ.regs i = σ.read (loc a)
  slots : ∀ (j : ℕ) (p : ValueId × ℕ), saved[j]? = some p → τ.mem (slot b j : ℤ) = σ.regs p.2
  mem : ∀ a : ℤ, a < b → (∀ k < args.length, a ≠ slot base k) → τ.mem a = σ.mem a

section Prologue

variable {m : MemorySize} {σ : Cells} {loc : ValueId → Loc} {b base : ℕ}
  {saved : List (ValueId × ℕ)} {args : List ValueId}

theorem argMoveList_dests (loc : ValueId → Loc) (i : ℕ) (args : List ValueId) :
    (argMoveList loc i args).map Prod.snd = (List.range' i args.length).map Loc.reg := by
  induction args generalizing i with
  | nil => rfl
  | cons a args ih => rw [argMoveList, List.map_cons, ih, List.length_cons, List.range'_succ,
      List.map_cons]

theorem argMoveList_getElem (loc : ValueId → Loc) (i : ℕ) (args : List ValueId) {j : ℕ}
    {a : ValueId} (h : args[j]? = some a) :
    (argMoveList loc i args)[j]? = some (loc a, .reg (i + j)) := by
  induction args generalizing i j with
  | nil => simp at h
  | cons c args ih =>
    cases j with
    | zero =>
      obtain rfl : c = a := by simpa using h
      rfl
    | succ j =>
      rw [argMoveList, List.getElem?_cons_succ, ih (i + 1) (by simpa using h)]
      congr 3
      omega

theorem mem_argMoveList {loc : ValueId → Loc} {i : ℕ} {args : List ValueId} {p : Loc × Loc}
    (h : p ∈ argMoveList loc i args) :
    ∃ a ∈ args, ∃ j, i ≤ j ∧ j < i + args.length ∧ p = (loc a, .reg j) := by
  induction args generalizing i with
  | nil => cases h
  | cons c args ih =>
    rcases List.mem_cons.mp h with rfl | h
    · exact ⟨c, List.mem_cons_self, i, Nat.le_refl i, by simp, rfl⟩
    · obtain ⟨a, ha, j, hj, hlt, rfl⟩ := ih h
      refine ⟨a, List.mem_cons_of_mem _ ha, j, by omega, ?_, rfl⟩
      rw [List.length_cons]
      omega

/-- **Before a call.** Registers are saved and arguments are moved, unless the memory ends before
the frame does. -/
theorem prologue_run (hz : σ.Zero) (hp : (σ.regs STACK_PTR).toInt = b) (hbase : STACK_BASE ≤ b)
    (hb : b ≤ m.bytes) (hbelow : ∀ a ∈ args, (loc a).Below)
    (hapart : ∀ a ∈ args, (loc a).Apart m base args.length)
    (hspill : ∀ a ∈ args, ∀ s, loc a = .spill s → s + 8 ≤ STACK_BASE)
    (hargs : args.length ≤ NUM_GP_REGS)
    (hslots : args ≠ [] → base + args.length * 8 ≤ STACK_BASE) :
    (∃ τ, execAll m (prologueCode loc base saved args) σ = .ok τ ∧
      Called loc b base saved args σ τ ∧ b + saved.length * 8 ≤ m.bytes) ∨
    execAll m (prologueCode loc base saved args) σ = .error .outOfBounds ∧
      m.bytes < b + saved.length * 8 := by
  have hfits := m.fits
  unfold prologueCode
  rcases @saveAll_run m σ b 0 saved hp with ⟨σ₁, h₁, hs, hroom⟩ | ⟨htrap, hsize⟩
  · left
    have hroom' : b + saved.length * 8 ≤ m.bytes := by
      cases saved with
      | nil => simpa using hb
      | cons p saved => simpa using hroom (List.cons_ne_nil _ _)
    obtain ⟨σ₂, h₂, hp₂, hmem₂, hregs₂⟩ := push_run (m := m) (σ := σ₁) (b := b)
      (n := saved.length * 8) (hs.regs ▸ hp) (by omega)
    -- what the moves read is where it was
    have hregs : ∀ r, r < NUM_GP_REGS → σ₂.regs r = σ.regs r := fun r hr => by
      obtain ⟨hr₁, -, -, hr₂, -⟩ := ne_of_lt_gp hr
      rw [hregs₂ r hr₁ hr₂, hs.regs]
    have hlow : ∀ a : ℤ, a < b → σ₂.mem a = σ.mem a := fun a ha => by
      rw [hmem₂, hs.mem a fun j _ he => ?_]
      unfold slot at he
      omega
    have hread : ∀ a ∈ args, σ₂.read (loc a) = σ.read (loc a) := fun a ha => by
      have hbl := hbelow a ha
      have hsp := hspill a ha
      cases hl : loc a with
      | reg r =>
        rw [hl] at hbl
        exact hregs r hbl
      | spill s =>
        have := hsp s hl
        exact hlow s (by omega)
    have hz₂ : σ₂.Zero := by
      rw [Cells.Zero, hregs₂ ZERO_REG (by decide) (by decide), hs.regs]
      exact hz
    -- the moves themselves
    have hmove : ∃ τ, execAll m (moveCode base (argMoveList loc 0 args)) σ₂ = .ok τ ∧
        Moved base (argMoveList loc 0 args) σ₂ τ := by
      by_cases hnil : args = []
      · subst hnil
        exact ⟨σ₂, rfl, by simp [argMoveList], fun _ _ _ => rfl, fun _ _ _ => rfl, rfl⟩
      · refine execAll_moveCode hz₂ ?_ ?_ ?_ ?_
        · intro p hpm
          obtain ⟨a, ha, j, -, -, rfl⟩ := mem_argMoveList hpm
          rw [argMoveList_length]
          exact hapart a ha
        · intro p hpm
          obtain ⟨a, ha, j, -, hj, rfl⟩ := mem_argMoveList hpm
          exact Nat.lt_of_lt_of_le hj (by simpa using hargs)
        · rw [argMoveList_dests]
          exact (List.nodup_range').map fun _ _ h => Loc.reg.inj h
        · rw [argMoveList_length]
          exact (hslots hnil).trans (hbase.trans hb)
    obtain ⟨τ, hτ, hmoved⟩ := hmove
    -- the destinations are argument registers, so the stack is not touched
    have hdest : ∀ r, NUM_GP_REGS ≤ r → r ≠ SCRATCH_1 → τ.regs r = σ₂.regs r := fun r hr hne => by
      refine hmoved.regs r hne fun p hpm he => ?_
      obtain ⟨a, -, j, -, hj, rfl⟩ := mem_argMoveList hpm
      have : j = r := Loc.reg.inj he
      omega
    have hmem : ∀ a : ℤ, (∀ k < args.length, a ≠ slot base k) → τ.mem a = σ₂.mem a := fun a ha => by
      refine hmoved.mem a (fun p hpm c he => ?_) fun k hk => ha k (by simpa using hk)
      obtain ⟨_, -, j, -, -, rfl⟩ := mem_argMoveList hpm
      cases he
    refine ⟨τ, ?_, ⟨?_, ?_, fun i a hi => ?_, fun j p hj => ?_, fun a ha hst => ?_⟩, hroom'⟩
    · rw [List.append_assoc, execAll_append h₁, execAll_append h₂, hτ]
    · exact (hdest ZERO_REG (by decide) (by decide)).trans hz₂
    · rw [hdest STACK_PTR (by decide) (by decide)]
      exact hp₂
    · have hi' := argMoveList_getElem loc 0 args hi
      rw [Nat.zero_add] at hi'
      rw [← hread a (List.mem_of_getElem? hi)]
      exact hmoved.dests _ (List.mem_of_getElem? hi')
    · rw [hmem, hmem₂, ← hs.slots j p hj, Nat.zero_add]
      intro k hk he
      have hne : args ≠ [] := by
        rintro rfl
        cases hk
      have hs' := hslots hne
      unfold slot at he
      omega
    · rw [hmem a hst, hlow a ha]
  · right
    rw [List.append_assoc, execAll_append_error htrap]
    exact ⟨rfl, by simpa using hsize⟩

end Prologue

/-! ### After the call -/

section Epilogue

variable {m : MemorySize} {σ : Cells} {dst : Loc} {b : ℕ} {saved : List (ValueId × ℕ)}

/-- **After a call.** The stack pointer is back, the result is where its value lives, and every
other register that was saved has its value from the frame. -/
theorem epilogue_run (hz : σ.Zero)
    (hp : (σ.regs STACK_PTR).toInt = ((b + saved.length * 8 : ℕ) : ℤ))
    (hb : b + saved.length * 8 ≤ m.bytes) (hregs : ∀ p ∈ saved, p.2 < NUM_GP_REGS)
    (hnd : (saved.map Prod.snd).Nodup) (hdst : dst.Below) (hin : m.Holds dst) :
    ∃ τ, execAll m (epilogueCode dst saved) σ = .ok τ ∧ τ.Zero ∧
      (τ.regs STACK_PTR).toInt = (b : ℤ) ∧ τ.read dst = σ.regs RET_REG ∧
      (∀ (j : ℕ) (p : ValueId × ℕ), saved[j]? = some p → dst ≠ .reg p.2 →
        τ.regs p.2 = σ.mem (slot b j : ℤ)) ∧
      ∀ a : ℤ, (∀ s : ℕ, dst = .spill s → a ≠ s) → τ.mem a = σ.mem a := by
  have hfits := m.fits
  obtain ⟨σ₁, h₁, hp₁, hmem₁, hregs₁⟩ := pop_run (m := m) hp (by omega)
  obtain ⟨σ₂, h₂, hmem₂, hslots, hother⟩ := restoreAll_run (m := m) (i := 0) hp₁
    (fun _ => by omega) hregs hnd
  have hkeep : ∀ r, NUM_GP_REGS ≤ r → r ≠ SCRATCH_1 → r ≠ STACK_PTR → σ₂.regs r = σ.regs r := by
    intro r hr hs₁ hs₂
    rw [hother r fun hm => ?_, hregs₁ r hs₁ hs₂]
    obtain ⟨p, hpm, rfl⟩ := List.mem_map.mp hm
    exact absurd (hregs p hpm) (Nat.not_lt.mpr hr)
  have hptr : σ₂.regs STACK_PTR = σ₁.regs STACK_PTR := hother STACK_PTR fun hm => by
    obtain ⟨p, hpm, he⟩ := List.mem_map.mp hm
    exact (ne_of_lt_gp (hregs p hpm)).2.2.2.1 he
  have hz₂ : σ₂.Zero := (hkeep ZERO_REG (by decide) (by decide) (by decide)).trans hz
  have hret : σ₂.regs RET_REG = σ.regs RET_REG := hkeep RET_REG (by decide) (by decide) (by decide)
  -- the result register is not a register of a value, so the move is there
  have hne : dst.regOr SCRATCH_1 ≠ RET_REG := by
    cases dst with
    | reg r => exact (ne_of_lt_gp hdst).2.2.1
    | spill s => exact (by decide : SCRATCH_1 ≠ RET_REG)
  have h₃ : execAll m (resultCode dst) σ₂ = .ok (σ₂.write dst (σ₂.regs RET_REG)) := by
    rw [resultCode, if_pos hne]
    exact compute_exec rfl hz₂ hin
  have hw := wrote_write σ₂ dst (σ₂.regs RET_REG)
  refine ⟨_, ?_, hw.zero hdst hz₂, ?_, hw.value.trans hret, fun j p hj hd => ?_, fun a ha => ?_⟩
  · rw [epilogueCode, List.append_assoc, execAll_append h₁, execAll_append h₂, h₃]
  · rw [hw.pointer hdst, hptr]
    exact hp₁
  · obtain ⟨hr₁, hr₂, -⟩ := ne_of_lt_gp (hregs p (List.mem_of_getElem? hj))
    rw [hw.regs p.2 hd hr₁ hr₂, hslots j p hj, hmem₁, Nat.zero_add]
  · rw [hw.mem a ha, hmem₂, hmem₁]

end Epilogue

end Codegen
end Chakobsa
