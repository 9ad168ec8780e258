/-
  Otterbrix.Lib.Rounds

  A step repeated on states that show rows, and the least set of rows that contains the first
  state's and is closed under the step.

  Closed means: from any state with rows of the set the step makes rows of the set.  Where the step
  works row by row, the least closed set is what the rounds show together.
-/
import Mathlib.Data.Set.Finite.Basic
import Mathlib.Data.Finset.Card
import Mathlib.Data.List.Nodup
import Mathlib.Logic.Function.Iterate

namespace Otterbrix
namespace Rounds

variable {σ α : Type*} (rows : σ → List α) (step : σ → σ)

/-! ## Closed sets -/

/-- From rows of `S` the step makes rows of `S`. -/
def ClosedUnder (S : Set α) : Prop :=
  ∀ s, (∀ x ∈ rows s, x ∈ S) → ∀ x ∈ rows (step s), x ∈ S

/-- The least set with the rows of `start` that is closed under the step. -/
def LeastClosed (start : σ) : Set α :=
  {x | ∀ S : Set α, (∀ y ∈ rows start, y ∈ S) → ClosedUnder rows step S → x ∈ S}

/-- The rows of the start and of the first `n` rounds, in order. -/
def upTo (start : σ) (n : Nat) : List α :=
  (List.range (n + 1)).flatMap fun i => rows (step^[i] start)

variable {rows step} {start : σ}

theorem upTo_succ (n : Nat) :
    upTo rows step start (n + 1) = upTo rows step start n ++ rows (step^[n + 1] start) := by
  unfold upTo
  rw [List.range_succ (n := n + 1), List.flatMap_append, List.flatMap_singleton]

theorem mem_upTo {n : Nat} {x : α} :
    x ∈ upTo rows step start n ↔ ∃ i, i ≤ n ∧ x ∈ rows (step^[i] start) := by
  unfold upTo
  simp only [List.mem_flatMap, List.mem_range, Nat.lt_succ_iff]

theorem upTo_sublist {n m : Nat} (hnm : n ≤ m) :
    (upTo rows step start n).Sublist (upTo rows step start m) := by
  induction m, hnm using Nat.le_induction with
  | base => exact List.Sublist.refl _
  | succ m _ ih =>
    rw [upTo_succ]
    exact ih.trans (List.sublist_append_left _ _)

theorem LeastClosed.closed : ClosedUnder rows step (LeastClosed rows step start) :=
  fun s hs x hx S hstart hclosed => hclosed s (fun y hy => hs y hy S hstart hclosed) x hx

/-- Every round stays in the least closed set. -/
theorem LeastClosed.round (n : Nat) :
    ∀ x ∈ rows (step^[n] start), x ∈ LeastClosed rows step start := by
  induction n with
  | zero => exact fun x hx S hstart _ => hstart x hx
  | succ n ih =>
    rw [Function.iterate_succ_apply']
    exact closed _ ih

/-- Rounds that are closed are the least closed set. -/
theorem LeastClosed.eq_upTo {n : Nat}
    (hclosed : ClosedUnder rows step {x | x ∈ upTo rows step start n}) (x : α) :
    x ∈ LeastClosed rows step start ↔ x ∈ upTo rows step start n := by
  constructor
  · exact fun hx => hx _ (fun y hy => mem_upTo.mpr ⟨0, Nat.zero_le n, hy⟩) hclosed
  · intro hx
    obtain ⟨i, -, hi⟩ := mem_upTo.mp hx
    exact round i x hi

/-! ## Steps that work row by row -/

variable (rows step) in
/-- The step makes of each row what `derives` says, whatever the other rows are. -/
def ByRow (derives : α → α → Prop) : Prop :=
  ∀ s x, x ∈ rows (step s) ↔ ∃ y ∈ rows s, derives y x

namespace ByRow

variable {derives : α → α → Prop}

/-- After a round without rows there are none. -/
theorem empty_of_le (h : ByRow rows step derives) {n m : Nat} (hnm : n ≤ m)
    (hn : rows (step^[n] start) = []) : rows (step^[m] start) = [] := by
  induction m, hnm using Nat.le_induction with
  | base => exact hn
  | succ m _ ih =>
    rw [Function.iterate_succ_apply']
    refine List.eq_nil_iff_forall_not_mem.mpr fun x hx => ?_
    obtain ⟨y, hy, -⟩ := (h _ x).mp hx
    rw [ih] at hy
    cases hy

/-- Rounds up to one without rows are closed. -/
theorem closed_upTo (h : ByRow rows step derives) {n : Nat}
    (hn : rows (step^[n + 1] start) = []) :
    ClosedUnder rows step {x | x ∈ upTo rows step start n} := by
  intro s hs x hx
  obtain ⟨y, hy, hyx⟩ := (h s x).mp hx
  obtain ⟨i, -, hyi⟩ := mem_upTo.mp (hs y hy)
  have hnext : x ∈ rows (step^[i + 1] start) := by
    rw [Function.iterate_succ_apply']
    exact (h _ x).mpr ⟨y, hyi, hyx⟩
  refine mem_upTo.mpr ⟨i + 1, ?_, hnext⟩
  by_contra hlate
  rw [h.empty_of_le (by omega) hn] at hnext
  cases hnext

end ByRow

/-- If no round is without rows and none repeats a row, the least closed set is infinite. -/
theorem LeastClosed.not_finite (hrounds : ∀ n, rows (step^[n + 1] start) ≠ [])
    (hnodup : ∀ n, (upTo rows step start n).Nodup) :
    ¬(LeastClosed rows step start).Finite := by
  classical
  intro hfinite
  have hlength : ∀ n, n ≤ (upTo rows step start n).length := by
    intro n
    induction n with
    | zero => exact Nat.zero_le _
    | succ n ih =>
      rw [upTo_succ, List.length_append]
      have := List.length_pos_of_ne_nil (hrounds n)
      omega
  have hcard : ∀ n, n ≤ hfinite.toFinset.card := by
    intro n
    have hsub : (upTo rows step start n).toFinset ⊆ hfinite.toFinset := by
      intro x hx
      obtain ⟨i, -, hi⟩ := mem_upTo.mp (List.mem_toFinset.mp hx)
      exact hfinite.mem_toFinset.mpr (LeastClosed.round i x hi)
    have := Finset.card_le_card hsub
    rw [List.toFinset_card_of_nodup (hnodup n)] at this
    exact Nat.le_trans (hlength n) this
  exact absurd (hcard (hfinite.toFinset.card + 1)) (by omega)

end Rounds
end Otterbrix
