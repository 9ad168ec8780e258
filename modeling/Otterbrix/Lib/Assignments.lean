/-
  Otterbrix.Lib.Assignments

  A list of assignments to the places of a state, executed one after the other, against the
  assignment of all of them at once.

  An assignment computes its value from the whole state it finds, so a later one sees what the
  earlier ones have written.  The run ends in the state with all goals written exactly if every
  assignment yields its goal on the state in which the goals before it have been written.
-/
import Mathlib.Data.List.Nodup
import Mathlib.Logic.Function.Basic

namespace Otterbrix
namespace Assignments

variable {ι α : Type*} [DecidableEq ι]

/-- A place and the value to be written there, if it can be computed. -/
structure Assignment (ι α : Type*) where
  place : ι
  value : (ι → α) → Option α

/-- One assignment. -/
def step (s : ι → α) (a : Assignment ι α) : Option (ι → α) :=
  (a.value s).map (Function.update s a.place)

/-- The assignments in order. -/
def run (as : List (Assignment ι α)) (s : ι → α) : Option (ι → α) := as.foldlM step s

/-- The state with the goals written at the places given. -/
def written (goal s : ι → α) (places : List ι) : ι → α :=
  fun x => if x ∈ places then goal x else s x

theorem written_nil (goal s : ι → α) : written goal s [] = s := by
  funext x
  exact if_neg List.not_mem_nil

/-- Writing the first goal and then the others. -/
theorem written_update (goal s : ι → α) (x : ι) (places : List ι) :
    written goal (Function.update s x (goal x)) places = written goal s (x :: places) := by
  funext y
  by_cases hy : y ∈ places
  · rw [written, if_pos hy, written, if_pos (List.mem_cons_of_mem x hy)]
  by_cases hyx : y = x
  · subst hyx
    rw [written, if_neg hy, Function.update_self, written, if_pos List.mem_cons_self]
  · have hcons : y ∉ x :: places := by simp [hy, hyx]
    rw [written, if_neg hy, Function.update_of_ne hyx, written, if_neg hcons]

theorem run_cons (a : Assignment ι α) (as : List (Assignment ι α)) (s : ι → α) :
    run (a :: as) s = (a.value s).bind fun v => run as (Function.update s a.place v) := by
  rw [run, List.foldlM_cons]
  show (step s a).bind (run as) = _
  rw [step, Option.bind_map]
  rfl

/-- A place that is not assigned keeps its value. -/
theorem run_frame {as : List (Assignment ι α)} {s s' : ι → α} (h : run as s = some s') {x : ι}
    (hx : x ∉ as.map Assignment.place) : s' x = s x := by
  induction as generalizing s with
  | nil =>
    obtain rfl : s = s' := Option.some.inj h
    rfl
  | cons a as ih =>
    rw [run_cons, Option.bind_eq_some_iff] at h
    obtain ⟨v, -, hrun⟩ := h
    rw [List.map_cons, List.mem_cons, not_or] at hx
    rw [ih hrun hx.2, Function.update_of_ne hx.1]

/-- **In order and all at once** agree exactly if every assignment yields its goal where the goals
    before it have been written. -/
theorem run_eq_written_iff {as : List (Assignment ι α)} (hnodup : (as.map Assignment.place).Nodup)
    (goal s : ι → α) :
    run as s = some (written goal s (as.map Assignment.place)) ↔
      ∀ before a behind, as = before ++ a :: behind →
        a.value (written goal s (before.map Assignment.place)) = some (goal a.place) := by
  induction as generalizing s with
  | nil =>
    refine iff_of_true ?_ fun before a behind h => ?_
    · rw [List.map_nil, written_nil]
      rfl
    · exact absurd h (by simp)
  | cons a as ih =>
    rw [List.map_cons, List.nodup_cons] at hnodup
    have hrest := ih hnodup.2 (Function.update s a.place (goal a.place))
    rw [written_update] at hrest
    rw [run_cons, List.map_cons]
    constructor
    · intro h
      obtain ⟨v, hv, hrun⟩ := Option.bind_eq_some_iff.mp h
      -- The first place is not written again, so its goal was written first.
      have hgoal : v = goal a.place := by
        have hkept := run_frame hrun hnodup.1
        rw [Function.update_self, written, if_pos List.mem_cons_self] at hkept
        exact hkept.symm
      subst hgoal
      intro before b behind hsplit
      rcases List.cons_eq_append_iff.mp hsplit with ⟨rfl, hhead⟩ | ⟨before', rfl, htail⟩
      · obtain ⟨rfl, -⟩ := List.cons_eq_cons.mp hhead
        rw [List.map_nil, written_nil]
        exact hv
      · have hb := hrest.mp hrun before' b behind htail
        rwa [written_update] at hb
    · intro h
      have hfirst := h [] a as rfl
      rw [List.map_nil, written_nil] at hfirst
      rw [hfirst, Option.bind_some]
      refine hrest.mpr fun before b behind hsplit => ?_
      have hb := h (a :: before) b behind (by rw [hsplit, List.cons_append])
      rwa [List.map_cons, ← written_update] at hb

end Assignments
end Otterbrix
