/-
  Otterbrix.Lib.FinishOrder

  The order in which a depth-first search finishes, latest first.  Whatever an element leads to
  was finished before it and stands behind it in the list.  Such a list is closed under the
  relation, and without repetitions it has no cycle.
-/
import Mathlib.Data.List.Nodup
import Mathlib.Logic.Relation

namespace FinishOrder

open Relation

variable {α : Type} {r : α → α → Prop} {a b : α} {l : List α}

variable (r) in
/-- What an element of the list leads to stands behind it. -/
def Settled : List α → Prop
  | [] => True
  | a :: l => (∀ b, r a b → b ∈ l) ∧ Settled l

theorem Settled.mem_of_rel (h : Settled r l) (ha : a ∈ l) (hab : r a b) : b ∈ l := by
  induction l with
  | nil => exact absurd ha List.not_mem_nil
  | cons c l ih =>
    rcases List.mem_cons.mp ha with rfl | hrest
    · exact List.mem_cons_of_mem _ (h.1 b hab)
    · exact List.mem_cons_of_mem _ (ih h.2 hrest)

theorem Settled.mem_of_reach (h : Settled r l) (ha : a ∈ l) (hab : ReflTransGen r a b) :
    b ∈ l := by
  induction hab with
  | refl => exact ha
  | tail _ hstep ih => exact h.mem_of_rel ih hstep

/-- **No cycle.**  A path stays behind the element it starts from. -/
theorem Settled.acyclic (h : Settled r l) (hnodup : l.Nodup) (ha : a ∈ l) : ¬TransGen r a a := by
  intro hcycle
  induction l with
  | nil => exact absurd ha List.not_mem_nil
  | cons c l ih =>
    obtain ⟨hnot, hrest⟩ := List.nodup_cons.mp hnodup
    rcases List.mem_cons.mp ha with rfl | hmem
    · obtain ⟨d, hfirst, hback⟩ := TransGen.head'_iff.mp hcycle
      exact hnot (h.2.mem_of_reach (h.1 d hfirst) hback)
    · exact ih h.2 hrest hmem

end FinishOrder
