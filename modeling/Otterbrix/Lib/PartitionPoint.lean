/-
  Otterbrix.Lib.PartitionPoint

  The partition point of a list of flags, which is what a binary search for a bound returns, and
  the choice of the elements of a list that pass a check which may be undefined.
-/
import Mathlib.Data.List.Basic

namespace Otterbrix

variable {α : Type}

/-! ## Partition points -/

/-- The number of leading `true`s; `none` if a `true` stands after a `false`, where a binary search
    has no defined answer. -/
def partitionPoint (flags : List Bool) : Option Nat :=
  let n := (flags.takeWhile id).length
  if (flags.drop n).all (! ·) then some n else none

/-- In a list whose passing elements come first, they are those before the partition point. -/
theorem partitionPoint_of_pairwise {p : α → Bool} {l : List α}
    (h : l.Pairwise fun a b => p b = true → p a = true) :
    partitionPoint (l.map p) = some (l.filter p).length ∧
      l.take (l.filter p).length = l.filter p ∧
      l.drop (l.filter p).length = l.filter fun a => !p a := by
  induction l with
  | nil => exact ⟨rfl, rfl, rfl⟩
  | cons a l ih =>
    obtain ⟨hhead, htail⟩ := List.pairwise_cons.mp h
    obtain ⟨hn, htake, hdrop⟩ := ih htail
    cases ha : p a with
    | true =>
      rw [List.filter_cons_of_pos ha, List.length_cons]
      refine ⟨?_, ?_, ?_⟩
      · revert hn
        unfold partitionPoint
        simp only [List.map_cons, ha, List.takeWhile_cons, id_eq, if_true, List.length_cons,
          List.drop_succ_cons]
        intro hn
        split at hn <;> simp_all
      · rw [List.take_succ_cons, htake]
      · rw [List.drop_succ_cons, List.filter_cons_of_neg (by simp [ha]), hdrop]
    | false =>
      -- nothing after a failed check passes
      have hall : ∀ b ∈ l, p b = false := fun b hb => by
        cases hb' : p b with
        | false => rfl
        | true => rw [hhead b hb hb'] at ha; exact ha
      have hnone : (a :: l).filter p = [] := by
        rw [List.filter_eq_nil_iff]
        intro b hb
        rcases List.mem_cons.mp hb with rfl | hb
        · simp [ha]
        · simp [hall b hb]
      rw [hnone]
      refine ⟨?_, List.take_zero, ?_⟩
      · unfold partitionPoint
        simp only [List.map_cons, ha, List.takeWhile_cons, id_eq, Bool.false_eq_true, if_false,
          List.length_nil, List.drop_zero, List.all_cons, Bool.not_false, Bool.true_and]
        rw [if_pos]
        simpa using hall
      · rw [List.length_nil, List.drop_zero, eq_comm, List.filter_eq_self]
        intro b hb
        rcases List.mem_cons.mp hb with rfl | hb
        · simp [ha]
        · simp [hall b hb]

theorem mapM_eq_map {check : α → Option Bool} {p : α → Bool} {l : List α}
    (h : ∀ a ∈ l, check a = some (p a)) : l.mapM check = some (l.map p) := by
  induction l with
  | nil => rfl
  | cons a l ih =>
    obtain ⟨ha, hl⟩ := List.forall_mem_cons.mp h
    rw [List.mapM_cons, ha, ih hl]
    rfl

/-! ## Selections -/

/-- The elements that pass. -/
def select (check : α → Option Bool) : List α → Option (List α)
  | [] => some []
  | a :: l => do
      let keep ← check a
      let rest ← select check l
      return if keep then a :: rest else rest

theorem select_eq_filter {check : α → Option Bool} {p : α → Bool} {l : List α}
    (h : ∀ a ∈ l, check a = some (p a)) : select check l = some (l.filter p) := by
  induction l with
  | nil => rfl
  | cons a l ih =>
    have ha := h a List.mem_cons_self
    have hl := ih fun b hb => h b (List.mem_cons_of_mem _ hb)
    rw [select, ha, hl, List.filter_cons]
    rfl

theorem of_select_singleton {check : α → Option Bool} {p : α → Bool} {a : α}
    (h : select check [a] = some ([a].filter p)) : check a = some (p a) := by
  unfold select at h
  cases hc : check a with
  | none => rw [hc] at h; exact absurd h (by simp)
  | some keep =>
    rw [hc] at h
    cases keep <;> cases hp : p a <;> simp_all [select]

end Otterbrix
