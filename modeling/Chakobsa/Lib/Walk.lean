import Mathlib.Data.List.Basic
import Mathlib.Tactic.Common

/-!
# Walks and dominance in a rooted graph

A `Walk edge root π b` is a walk from `root` to `b`; `π` lists the nodes visited before `b`,
the latest first, so that a walk grows by `cons` and an induction on a walk goes from its end to
its start. `Dominates` and `StrictlyDominates` are the usual relations on top of it.

`Meets Q b` says that every walk to `b` visits a node of `Q`, for instance one in which a variable
is assigned. What happens to it when the graph grows is said by `Covers`: every walk in the new
graph goes on from a walk in the old one. New edges that lead into dead ends, and new edges that
lead back to a dominator, leave every old node covered (`Covers.extend`); a region that is entered
from one old node only is covered by that node (`Covers.enter`).
-/

namespace Chakobsa

section Walk

variable {B : Type} (edge : B → B → Prop) (root : B)

/-- A walk from `root` to a node, with the nodes visited before it, the latest first. -/
inductive Walk : List B → B → Prop where
  | start : Walk [] root
  | step {π : List B} {p b : B} : Walk π p → edge p b → Walk (p :: π) b

/-- `d` lies on every walk to `b`. -/
def Dominates (d b : B) : Prop := ∀ π, Walk edge root π b → d ∈ b :: π

/-- `d` lies on every walk to `b`, and is another node. -/
def StrictlyDominates (d b : B) : Prop := d ≠ b ∧ Dominates edge root d b

variable {edge root}

theorem Dominates.refl (b : B) : Dominates edge root b b := fun _ _ => List.mem_cons_self

/-- A node on a walk is reached by a walk that is a suffix of it. -/
theorem Walk.prefix {π : List B} {b c : B} (h : Walk edge root π b) (hc : c ∈ b :: π) :
    ∃ π', Walk edge root π' c ∧ c :: π' <:+ b :: π := by
  induction h with
  | start =>
    obtain rfl : c = root := by simpa using hc
    exact ⟨[], .start, List.suffix_rfl⟩
  | @step π p b hw he ih =>
    rcases List.mem_cons.mp hc with rfl | hc
    · exact ⟨p :: π, .step hw he, List.suffix_rfl⟩
    · obtain ⟨π', hw', hs⟩ := ih hc
      exact ⟨π', hw', hs.trans (List.suffix_cons _ _)⟩

/-- A node that can be reached is reached by a walk that visits no node twice. -/
theorem Walk.nodup {π : List B} {b : B} (h : Walk edge root π b) :
    ∃ π', Walk edge root π' b ∧ (b :: π').Nodup := by
  classical
  induction h with
  | start => exact ⟨[], .start, by simp⟩
  | @step π p b hw he ih =>
    obtain ⟨π', hw', hnd⟩ := ih
    by_cases hb : b ∈ p :: π'
    · obtain ⟨π'', hw'', hs⟩ := hw'.prefix hb
      exact ⟨π'', hw'', hnd.sublist hs.sublist⟩
    · exact ⟨p :: π', .step hw' he, List.nodup_cons.mpr ⟨hb, hnd⟩⟩

/-- A graph with more edges has more walks. -/
theorem Walk.mono {edge' : B → B → Prop} (hsub : ∀ p b, edge p b → edge' p b) {π : List B} {b : B}
    (h : Walk edge root π b) : Walk edge' root π b := by
  induction h with
  | start => exact .start
  | step _ he ih => exact .step ih (hsub _ _ he)

/-- Every walk starts at the root. -/
theorem Dominates.of_root (b : B) : Dominates edge root root b := by
  intro π hw
  induction hw with
  | start => exact List.mem_cons_self
  | step _ _ ih => exact List.mem_cons_of_mem _ ih

/-- The only predecessor of a node dominates it. -/
theorem Dominates.of_pred {d b : B} (hb : b ≠ root) (h : ∀ p, edge p b → p = d) :
    Dominates edge root d b := by
  intro π hw
  cases hw with
  | start => exact absurd rfl hb
  | @step π p _ _ he => exact List.mem_cons_of_mem _ (h p he ▸ List.mem_cons_self)

theorem Dominates.trans {a b c : B} (hab : Dominates edge root a b)
    (hbc : Dominates edge root b c) : Dominates edge root a c := by
  intro π hw
  obtain ⟨π', hw', hs⟩ := hw.prefix (hbc π hw)
  exact hs.subset (hab π' hw')

/-! ### Growing graphs -/

section Growing

variable {edge' edge'' : B → B → Prop} {b b' b'' : B} {Q Q' : B → Prop}

/-- Every walk to `b` visits a node of `Q`. -/
def Meets (edge : B → B → Prop) (root : B) (Q : B → Prop) (b : B) : Prop :=
  ∀ π, Walk edge root π b → ∃ c ∈ b :: π, Q c

/-- Every walk to `b'` in the second graph goes on from a walk to `b` in the first. -/
def Covers (edge edge' : B → B → Prop) (root b b' : B) : Prop :=
  ∀ π', Walk edge' root π' b' → ∃ π, Walk edge root π b ∧ b :: π ⊆ b' :: π'

theorem Covers.refl : Covers edge edge root b b := fun π hw => ⟨π, hw, List.Subset.refl _⟩

/-- What dominates `b` dominates every node whose walks go on from one to `b`. -/
theorem Dominates.covers {d : B} (h : Dominates edge root d b) (hc : Covers edge edge' root b b') :
    Dominates edge' root d b' := by
  intro π' hw'
  obtain ⟨π, hw, hsub⟩ := hc π' hw'
  exact hsub (h π hw)

/-- What every walk to `b` meets, every walk meets that goes on from one. -/
theorem Meets.covers (h : Meets edge root Q b) (hc : Covers edge edge' root b b')
    (hQ : ∀ c, Q c → Q' c) : Meets edge' root Q' b' := by
  intro π' hw'
  obtain ⟨π, hw, hsub⟩ := hc π' hw'
  obtain ⟨c, hc, hq⟩ := h π hw
  exact ⟨c, hsub hc, hQ c hq⟩

/-- What is met by every walk to `b`, and not in `b`, is met before `b`. -/
theorem Meets.pred {p : B} (h : Meets edge root Q b) (hb : ¬ Q b) (hp : edge p b) :
    Meets edge root Q p := by
  intro π hw
  obtain ⟨c, hc, hq⟩ := h (p :: π) (.step hw hp)
  rcases List.mem_cons.mp hc with rfl | hc
  · exact absurd hq hb
  · exact ⟨c, hc, hq⟩

/-- New edges lead into dead ends or back to a dominator: the old nodes stay covered. -/
theorem Covers.extend {Dead : B → Prop}
    (hnew : ∀ p c, edge' p c → edge p c ∨ Dead c ∨ Dominates edge root c p)
    (hdead : ∀ c d, Dead c → ¬ edge' c d) (hb : ¬ Dead b) : Covers edge edge' root b b := by
  intro π' hw'
  induction hw' with
  | start => exact ⟨[], .start, List.Subset.refl _⟩
  | @step π' p b hw' he ih =>
    -- the walk has left `p`, which is then no dead end
    obtain ⟨π, hw, hsub⟩ := ih fun hp => hdead p b hp he
    rcases hnew p b he with he | hd | hdom
    · exact ⟨p :: π, .step hw he, List.cons_subset_cons b hsub⟩
    · exact absurd hd hb
    · -- the old walk to `p` has come through `b` already
      obtain ⟨π₀, hw₀, hsuf⟩ := hw.prefix (hdom π hw)
      exact ⟨π₀, hw₀,
        List.Subset.trans (List.Subset.trans hsuf.subset hsub) (List.subset_cons_self _ _)⟩

/-- Walks within the old nodes are old walks, and the new nodes are entered from `b` only: so every
walk to a new node goes on from an old walk to `b`. -/
theorem Covers.enter {Old : B → Prop} (hroot : Old root)
    (hold : ∀ p c, edge' p c → Old c → Old p ∧ edge p c)
    (hnew : ∀ p c, edge' p c → Old p → ¬ Old c → p = b) {c : B} :
    (Old c → Covers edge edge' root c c) ∧ (¬ Old c → Covers edge edge' root b c) := by
  have hwalk : ∀ {π' c}, Walk edge' root π' c → Old c → Walk edge root π' c := by
    intro π' c hw'
    induction hw' with
    | start => exact fun _ => .start
    | step _ he ih =>
      intro hc
      exact .step (ih (hold _ _ he hc).1) (hold _ _ he hc).2
  refine ⟨fun hc π' hw' => ⟨π', hwalk hw' hc, List.Subset.refl _⟩, fun hc π' hw' => ?_⟩
  induction hw' with
  | start => exact absurd hroot hc
  | @step π' p c hw' he ih =>
    by_cases hp : Old p
    · obtain rfl := hnew p c he hp hc
      exact ⟨π', hwalk hw' hp, List.subset_cons_self _ _⟩
    · obtain ⟨π, hw, hsub⟩ := ih hp
      exact ⟨π, hw, List.Subset.trans hsub (List.subset_cons_self _ _)⟩

end Growing

end Walk

end Chakobsa
