/-
  Otterbrix.Lib.ThetaJoin

  The relational join of two multisets of rows under an arbitrary condition, and the rows of
  one side that have no partner.  Both are what a loop over either side collects.
-/
import Mathlib.Data.Multiset.Bind

namespace Otterbrix

variable {α β γ : Type}

/-- One row for each pair that matches. -/
def thetaJoin (m : α → β → Bool) (pair : α → β → γ) (ls : Multiset α) (rs : Multiset β) :
    Multiset γ :=
  ((ls ×ˢ rs).filter fun p => m p.1 p.2).map fun p => pair p.1 p.2

/-- The rows of `ls` without a partner in `rs`. -/
def unmatched (m : α → β → Bool) (ls : Multiset α) (rs : Multiset β) : Multiset α :=
  ls.filter fun l => ∀ r ∈ rs, m l r = false

variable (m : α → β → Bool) (pair : α → β → γ)

/-- The join as a sum over both sides. -/
theorem thetaJoin_eq_bind (ls : Multiset α) (rs : Multiset β) :
    thetaJoin m pair ls rs = ls.bind fun l => (rs.filter fun r => m l r).map (pair l) := by
  induction ls using Multiset.induction with
  | empty => rfl
  | cons l ls ih =>
    rw [Multiset.cons_bind, ← ih]
    unfold thetaJoin
    rw [Multiset.cons_product, Multiset.filter_add, Multiset.map_add, Multiset.filter_map,
      Multiset.map_map]
    rfl

/-- Nothing depends on which side is the outer one. -/
theorem thetaJoin_swap (ls : Multiset α) (rs : Multiset β) :
    thetaJoin m pair ls rs = thetaJoin (fun r l => m l r) (fun r l => pair l r) rs ls := by
  have hswap : rs ×ˢ ls = (ls ×ˢ rs).map Prod.swap := by
    show (rs.bind fun r => ls.map (Prod.mk r)) = (ls.bind fun l => rs.map (Prod.mk l)).map Prod.swap
    rw [Multiset.map_bind]
    simp only [Multiset.map_map]
    exact Multiset.bind_map_comm rs ls
  unfold thetaJoin
  rw [hswap, Multiset.filter_map, Multiset.map_map]
  rfl

/-- What a loop over the left rows collects. -/
theorem thetaJoin_coe (ls : List α) (rs : List β) :
    thetaJoin m pair (ls : Multiset α) (rs : Multiset β) =
      (ls.flatMap fun l => (rs.filter fun r => m l r).map (pair l) : List γ) := by
  rw [thetaJoin_eq_bind, ← Multiset.coe_bind]
  refine Multiset.bind_congr fun l _ => ?_
  rw [Multiset.filter_coe, Multiset.map_coe]
  simp only [Bool.decide_eq_true]

/-- What a loop over the right rows collects. -/
theorem thetaJoin_coe_right (ls : List α) (rs : List β) :
    thetaJoin m pair (ls : Multiset α) (rs : Multiset β) =
      (rs.flatMap fun r => (ls.filter fun l => m l r).map fun l => pair l r : List γ) := by
  rw [thetaJoin_swap, thetaJoin_coe]

/-- A loop that adds to each row's share something of its own. -/
theorem coe_flatMap_append (f g : α → List γ) (ls : List α) :
    ((ls.flatMap fun l => f l ++ g l : List γ) : Multiset γ) =
      (ls.flatMap f : List γ) + (ls.flatMap g : List γ) := by
  rw [← Multiset.coe_bind, ← Multiset.coe_bind, ← Multiset.coe_bind, ← Multiset.bind_add]
  exact Multiset.bind_congr fun l _ => by rw [Multiset.coe_add]

/-- The rows without a partner, collected one by one. -/
theorem unmatched_coe (ls : List α) (rs : List β) (only : α → γ) :
    ((unmatched m ls rs).map only) =
      (ls.flatMap fun l => if rs.any (m l) then [] else [only l] : List γ) := by
  unfold unmatched
  rw [Multiset.filter_coe, Multiset.map_coe]
  congr 1
  induction ls with
  | nil => rfl
  | cons l ls ih =>
    rw [List.flatMap_cons, ← ih]
    by_cases h : ∀ r ∈ rs, m l r = false
    · have hany : rs.any (m l) = false := List.any_eq_false.mpr fun r hr => by rw [h r hr]; simp
      rw [List.filter_cons_of_pos (by simpa using h), hany]
      rfl
    · have hany : rs.any (m l) = true := by
        rw [List.any_eq_true]
        by_contra hnone
        exact h fun r hr => Bool.eq_false_iff.mpr fun hm => hnone ⟨r, hr, hm⟩
      rw [List.filter_cons_of_neg (by simpa using h), hany]
      rfl

end Otterbrix
