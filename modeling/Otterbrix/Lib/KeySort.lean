/-
  Otterbrix.Lib.KeySort

  Sorting by a key whose order among equal keys is unspecified: a result is any arrangement of the
  elements in which the keys ascend.  There is always one, and it is the only one iff elements with
  equal keys are equal.

  Several sources can be collected in any order and sorted together (`MergesBy`).
-/
import Mathlib.Data.List.Sort
import Mathlib.Order.Basic

namespace Otterbrix

variable {α κ : Type} [LinearOrder κ] {key : α → κ} {xs ys out : List α}

/-- `out` is a result of sorting `xs` by `key`. -/
structure SortsBy (key : α → κ) (xs out : List α) : Prop where
  perm : out.Perm xs
  ascending : (out.map key).Pairwise (· ≤ ·)

namespace SortsBy

theorem exists_result (key : α → κ) (xs : List α) : ∃ out, SortsBy key xs out := by
  refine ⟨xs.mergeSort fun a b => decide (key a ≤ key b), List.mergeSort_perm _ _, ?_⟩
  rw [List.pairwise_map]
  have hsorted : (xs.mergeSort fun a b => decide (key a ≤ key b)).Pairwise
      fun a b => decide (key a ≤ key b) = true := by
    apply List.pairwise_mergeSort
    · intro a b c hab hbc
      exact decide_eq_true (le_trans (of_decide_eq_true hab) (of_decide_eq_true hbc))
    · intro a b
      simpa using le_total (key a) (key b)
  exact hsorted.imp fun h => of_decide_eq_true h

theorem of_perm (h : SortsBy key xs out) (hperm : xs.Perm ys) : SortsBy key ys out :=
  ⟨h.perm.trans hperm, h.ascending⟩

/-- Elements with different keys leave no choice. -/
theorem unique (hkeys : ∀ a ∈ xs, ∀ b ∈ xs, key a = key b → a = b) {out' : List α}
    (h : SortsBy key xs out) (h' : SortsBy key xs out') : out = out' := by
  have hascending := List.pairwise_map.mp h.ascending
  have hascending' := List.pairwise_map.mp h'.ascending
  refine List.Perm.eq_of_pairwise (fun a b ha hb hab hba => ?_) hascending hascending'
    (h.perm.trans h'.perm.symm)
  exact hkeys a (h.perm.mem_iff.mp ha) b (h'.perm.mem_iff.mp hb) (le_antisymm hab hba)

/-- Two elements with equal keys can change places. -/
theorem exists_other {a b : α} (ha : a ∈ xs) (hb : b ∈ xs) (hkey : key a = key b) (hne : a ≠ b)
    (h : SortsBy key xs out) : ∃ out', SortsBy key xs out' ∧ out' ≠ out := by
  have swap : ∀ {a b : α} {p q r : List α}, key a = key b → a ≠ b →
      out = p ++ a :: (q ++ b :: r) → ∃ out', SortsBy key xs out' ∧ out' ≠ out := by
    rintro a b p q r hkey hne rfl
    refine ⟨p ++ b :: (q ++ a :: r), ⟨?_, ?_⟩, fun heq => ?_⟩
    · refine List.Perm.trans ?_ h.perm
      apply List.Perm.append_left p
      have hleft : (b :: (q ++ a :: r)).Perm (b :: a :: (q ++ r)) :=
        List.Perm.cons b List.perm_middle
      have hright : (a :: (q ++ b :: r)).Perm (a :: b :: (q ++ r)) :=
        List.Perm.cons a List.perm_middle
      exact hleft.trans ((List.Perm.swap a b _).trans hright.symm)
    · have hsame : (p ++ b :: (q ++ a :: r)).map key = (p ++ a :: (q ++ b :: r)).map key := by
        simp only [List.map_append, List.map_cons, hkey]
      rw [hsame]
      exact h.ascending
    · exact hne (List.cons.inj (List.append_cancel_left heq)).1.symm
  obtain ⟨p, s, hsplit⟩ := List.append_of_mem (h.perm.mem_iff.mpr ha)
  have hmem : b ∈ p ++ a :: s := hsplit ▸ h.perm.mem_iff.mpr hb
  rcases List.mem_append.mp hmem with hbefore | hafter
  · obtain ⟨p₁, p₂, rfl⟩ := List.append_of_mem hbefore
    have hout : out = p₁ ++ b :: (p₂ ++ a :: s) := by
      rw [hsplit, List.append_assoc, List.cons_append]
    exact swap hkey.symm hne.symm hout
  · obtain ⟨q, r, rfl⟩ := List.append_of_mem
      ((List.mem_cons.mp hafter).resolve_left hne.symm)
    exact swap hkey hne hsplit

end SortsBy

/-- `out` is a result of collecting a part from each source, in some order, and sorting. -/
def MergesBy {ι : Type} (key : α → κ) (part : ι → List α → Prop) (sources : List ι)
    (out : List α) : Prop :=
  ∃ order : List ι, order.Perm sources ∧ ∃ parts, List.Forall₂ part order parts ∧
    SortsBy key parts.flatten out

namespace MergesBy

variable {ι : Type} {part : ι → List α → Prop} {sources order : List ι}

theorem exists_part (h : MergesBy key part sources out) : ∀ i ∈ sources, ∃ xs, part i xs := by
  obtain ⟨order, hperm, parts, hparts, -⟩ := h
  intro i hi
  have horder := hperm.mem_iff.mpr hi
  clear hperm hi
  induction hparts with
  | nil => cases horder
  | cons hhere _ ih =>
    rcases List.mem_cons.mp horder with rfl | horder
    · exact ⟨_, hhere⟩
    · exact ih horder

theorem perm_flatten {f : ι → List α} (hpart : ∀ i ∈ order, ∀ xs, part i xs → xs.Perm (f i))
    {parts : List (List α)} (h : List.Forall₂ part order parts) :
    parts.flatten.Perm (order.flatMap f) := by
  induction h with
  | nil => exact List.Perm.nil
  | cons hhere _ ih =>
    rw [List.flatten_cons, List.flatMap_cons]
    exact (hpart _ List.mem_cons_self _ hhere).append
      (ih fun i hi => hpart i (List.mem_cons_of_mem _ hi))

/-- Sources that have a part each, and only arrangements of one list. -/
theorem iff_sortsBy {f : ι → List α}
    (hpart : ∀ i ∈ sources, (∃ xs, part i xs) ∧ ∀ xs, part i xs → xs.Perm (f i)) :
    MergesBy key part sources out ↔ SortsBy key (sources.flatMap f) out := by
  constructor
  · rintro ⟨order, hperm, parts, hparts, hsorts⟩
    have hflat := perm_flatten (fun i hi => (hpart i (hperm.mem_iff.mp hi)).2) hparts
    exact hsorts.of_perm (hflat.trans (hperm.flatMap_right _))
  · intro hsorts
    obtain ⟨parts, hparts⟩ : ∃ parts, List.Forall₂ part sources parts := by
      clear hsorts
      induction sources with
      | nil => exact ⟨[], .nil⟩
      | cons i sources ih =>
        obtain ⟨parts, hparts⟩ := ih fun j hj => hpart j (List.mem_cons_of_mem _ hj)
        obtain ⟨xs, hxs⟩ := (hpart i List.mem_cons_self).1
        exact ⟨xs :: parts, .cons hxs hparts⟩
    have hflat := perm_flatten (fun i hi => (hpart i hi).2) hparts
    exact ⟨sources, List.Perm.refl _, parts, hparts, hsorts.of_perm hflat.symm⟩

end MergesBy

end Otterbrix
