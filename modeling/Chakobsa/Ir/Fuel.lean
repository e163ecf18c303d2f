import Chakobsa.Ir.Interp
import Chakobsa.Lib.Fueled

/-!
# The interpreter and its fuel

With more fuel the interpreter gives no other result (`loop_rising`), so that a run has one result
at most (`Runs.unique`).
-/

namespace Chakobsa
namespace Ir

open Chakobsa.Comp

variable {M : Module} {f : Function}

theorem execInst_approx {callee callee' : Function → List RtValue → InterpM (Option RtValue)}
    (h : ∀ f xs, Approx (callee f xs) (callee' f xs)) (env : Env) (i : Instruction) :
    Approx (execInst M callee env i) (execInst M callee' env i) := by
  unfold execInst
  cases i.kind with
  | call name args =>
    dsimp only
    cases M.function name with
    | none => exact .refl _
    | some g => exact (Approx.refl _).bind fun xs => (h g xs).bind fun _ => .refl _
  | _ => exact .refl _

theorem callWith_approx {enter enter' : Function → BlockId → Option BlockId → Env →
    InterpM (Option RtValue)} (h : ∀ f b from' env, Approx (enter f b from' env) (enter' f b from' env))
    (f : Function) (args : List RtValue) : Approx (callWith enter f args) (callWith enter' f args) := by
  unfold callWith
  split
  · exact .refl _
  · exact h _ _ _ _

theorem loop_rising (M : Module) (f : Function) (b : BlockId) (cameFrom : Option BlockId) (env : Env) :
    Rising fun k => loop M k f b cameFrom env := by
  intro k
  induction k generalizing f b cameFrom env with
  | zero => exact .outOfFuel
  | succ k ih =>
    show Approx (loop M (k + 1) f b cameFrom env) (loop M (k + 2) f b cameFrom env)
    rw [loop, loop]
    refine (Approx.refl _).bind fun blk => (Approx.refl _).bind fun phis => ?_
    refine (Approx.foldlM (fun env i => execInst_approx ?_ env i) _).bind fun env => ?_
    · exact fun g xs => callWith_approx (fun f b from' env => ih f b from' env) g xs
    · refine (Approx.refl _).bind fun term => (Approx.refl _).bind fun exit => ?_
      cases exit with
      | goto target => exact ih f target (some b) env
      | done v => exact .refl _

theorem callWith_rising (M : Module) (f : Function) (args : List RtValue) :
    Rising fun k => callWith (loop M k) f args :=
  fun k => callWith_approx (fun f b from' env => loop_rising M f b from' env k) f args

theorem run_rising (M : Module) (entry : String) (args : List RtValue) :
    Rising fun k => run M k entry args := by
  unfold run
  cases M.function entry with
  | none => exact .const _
  | some f => exact callWith_rising M f args

/-- The result of a run is the only one. -/
theorem Runs.unique {entry : String} {args : List RtValue} {r r' : InterpM (Option RtValue)}
    (h : Runs M entry args r) (h' : Runs M entry args r') : r = r' := by
  obtain ⟨hr, k, hk⟩ := h
  obtain ⟨hr', m, hm⟩ := h'
  have hrise := run_rising M entry args
  rcases Nat.le_total k m with hle | hle
  · have hkm := hrise.le hle
    simp only [hk, hm] at hkm
    exact (hkm.eq hr).symm
  · have hmk := hrise.le hle
    simp only [hk, hm] at hmk
    exact hmk.eq hr'

end Ir
end Chakobsa
