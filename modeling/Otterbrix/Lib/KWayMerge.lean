/-
  Otterbrix.Lib.KWayMerge

  Sorting with a three-way comparison that need not tell different elements apart: what
  `std::sort` promises, and a merge of several sorted lanes that always takes the smallest head.
-/
import Mathlib.Data.List.Sort
import Mathlib.Data.List.Perm.Basic

namespace Otterbrix

variable {α β : Type}

/-- A comparison of images. -/
instance transCmp_on (cmp : β → β → Ordering) [Std.TransCmp cmp] (f : α → β) :
    Std.TransCmp fun a b => cmp (f a) (f b) where
  eq_swap := Std.OrientedCmp.eq_swap
  isLE_trans := Std.TransCmp.isLE_trans

/-- Ascending under a comparison. -/
def AscendingBy (cmp : α → α → Ordering) (l : List α) : Prop := l.Pairwise fun a b => (cmp a b).isLE

/-! ## Sorting -/

/-- `std::sort`: where the comparison is a strict weak order the result is an arrangement of the
    elements that ascends; nothing is said about elements that compare equal. -/
structure StdSort where
  sort : {α : Type} → (α → α → Bool) → List α → List α
  spec : ∀ {α : Type} (cmp : α → α → Ordering) [Std.TransCmp cmp] (l : List α),
    (sort (fun a b => cmp a b == .lt) l).Perm l ∧
      AscendingBy cmp (sort (fun a b => cmp a b == .lt) l)

theorem not_lt_iff_isLE (cmp : α → α → Ordering) [Std.TransCmp cmp] (a b : α) :
    (cmp b a == .lt) = false ↔ (cmp a b).isLE := by
  rw [@Std.OrientedCmp.eq_swap _ cmp]
  cases cmp a b <;> decide

theorem ascending_insertionSort (cmp : α → α → Ordering) [Std.TransCmp cmp] (l : List α) :
    AscendingBy cmp (l.insertionSort fun a b => (cmp b a == .lt) = false) := by
  have htotal : Std.Total fun a b : α => (cmp b a == .lt) = false := ⟨fun a b => by
    rw [not_lt_iff_isLE, not_lt_iff_isLE, @Std.OrientedCmp.eq_swap _ cmp _ b]
    cases cmp a b <;> decide⟩
  have htrans : IsTrans α fun a b => (cmp b a == .lt) = false := ⟨fun a b c hab hbc =>
    (not_lt_iff_isLE cmp a c).mpr (Std.TransCmp.isLE_trans ((not_lt_iff_isLE cmp a b).mp hab)
      ((not_lt_iff_isLE cmp b c).mp hbc))⟩
  exact (List.pairwise_insertionSort (fun a b => (cmp b a == .lt) = false) l).imp
    fun {a b} h => (not_lt_iff_isLE cmp a b).mp h

/-- Insertion is one way to do it. -/
def StdSort.insertion : StdSort where
  sort less l := l.insertionSort fun a b => less b a = false
  spec cmp _ l := ⟨List.perm_insertionSort _ l, ascending_insertionSort cmp l⟩

/-! ## Merging -/

/-- What is left of a lane, the next element first. -/
structure Lane (α : Type) where
  index : Nat
  head : α
  rest : List α

namespace Lane

/-- The elements of a lane. -/
def all (c : Lane α) : List α := c.head :: c.rest

/-- The lane without its head, if anything is left. -/
def advance : Lane α → List (Lane α)
  | ⟨_, _, []⟩ => []
  | ⟨i, _, x :: rest⟩ => [⟨i, x, rest⟩]

theorem flatMap_all_advance (c : Lane α) : c.advance.flatMap all = c.rest := by
  obtain ⟨i, x, rest⟩ := c
  cases rest with
  | nil => rfl
  | cons y rest => exact List.append_nil _

variable (cmp : α → α → Ordering)

/-- Of two lanes with equal heads the one with the smaller index comes first. -/
def before (a b : Lane α) : Bool :=
  match cmp a.head b.head with
  | .lt => true
  | .gt => false
  | .eq => decide (a.index < b.index)

/-- The lane that comes before all others, and the others. -/
def pop : Lane α → List (Lane α) → Lane α × List (Lane α)
  | c, [] => (c, [])
  | c, d :: ds =>
    if before cmp d c then ((pop d ds).1, c :: (pop d ds).2)
    else ((pop c ds).1, d :: (pop c ds).2)

variable {cmp}

theorem isLE_of_before [Std.TransCmp cmp] {a b : Lane α} (h : before cmp a b = true) :
    (cmp a.head b.head).isLE := by
  unfold before at h
  split at h
  · next heq => rw [heq]; rfl
  · cases h
  · next heq => rw [heq]; rfl

theorem isLE_of_not_before [Std.TransCmp cmp] {a b : Lane α} (h : ¬ before cmp a b = true) :
    (cmp b.head a.head).isLE := by
  unfold before at h
  rw [@Std.OrientedCmp.eq_swap _ cmp]
  split at h
  · exact absurd rfl h
  · next heq => rw [heq]; rfl
  · next heq => rw [heq]; rfl

/-- The popped head is not larger than any other. -/
theorem pop_spec (cmp : α → α → Ordering) [Std.TransCmp cmp] (c : Lane α) (cs : List (Lane α)) :
    ((pop cmp c cs).1 :: (pop cmp c cs).2).Perm (c :: cs) ∧
      ∀ d ∈ c :: cs, (cmp (pop cmp c cs).1.head d.head).isLE := by
  induction cs generalizing c with
  | nil =>
    refine ⟨List.Perm.refl _, fun d hd => ?_⟩
    rw [List.mem_singleton.mp hd]
    exact Std.ReflCmp.isLE_rfl
  | cons e cs ih =>
    unfold pop
    by_cases hbefore : before cmp e c = true
    · rw [if_pos hbefore]
      obtain ⟨hperm, hle⟩ := ih e
      refine ⟨(List.Perm.swap _ _ _).trans (hperm.cons c), fun d hd => ?_⟩
      rcases List.mem_cons.mp hd with rfl | hd
      · exact Std.TransCmp.isLE_trans (hle e List.mem_cons_self) (isLE_of_before hbefore)
      · exact hle d hd
    · rw [if_neg hbefore]
      obtain ⟨hperm, hle⟩ := ih c
      refine ⟨(List.Perm.swap _ _ _).trans ((hperm.cons e).trans (List.Perm.swap _ _ _)),
        fun d hd => ?_⟩
      rcases List.mem_cons.mp hd with rfl | hd
      · exact hle d List.mem_cons_self
      · rcases List.mem_cons.mp hd with rfl | hd
        · exact Std.TransCmp.isLE_trans (hle c List.mem_cons_self) (isLE_of_not_before hbefore)
        · exact hle d (List.mem_cons_of_mem _ hd)

end Lane

section Merge

open Lane

variable (cmp : α → α → Ordering)

/-- The elements in the order in which they are popped, as far as the fuel goes. -/
def kwayMerge : Nat → List (Lane α) → List α
  | 0, _ => []
  | _ + 1, [] => []
  | fuel + 1, c :: cs =>
    (pop cmp c cs).1.head :: kwayMerge fuel ((pop cmp c cs).1.advance ++ (pop cmp c cs).2)

variable [Std.TransCmp cmp]

/-- What is left after a pop. -/
theorem perm_flatMap_pop (c : Lane α) (cs : List (Lane α)) :
    ((pop cmp c cs).1.head :: ((pop cmp c cs).1.advance ++ (pop cmp c cs).2).flatMap all).Perm
      ((c :: cs).flatMap all) := by
  rw [List.flatMap_append, flatMap_all_advance]
  exact (pop_spec cmp c cs).1.flatMap_right all

variable {cmp}

/-- **The merge** of ascending lanes: all elements, in ascending order. -/
theorem kwayMerge_spec {fuel : Nat} {lanes : List (Lane α)}
    (hfuel : (lanes.flatMap all).length ≤ fuel) (hlanes : ∀ c ∈ lanes, AscendingBy cmp c.all) :
    (kwayMerge cmp fuel lanes).Perm (lanes.flatMap all) ∧ AscendingBy cmp (kwayMerge cmp fuel lanes) := by
  induction fuel generalizing lanes with
  | zero =>
    have hnil : lanes.flatMap all = [] := List.length_eq_zero_iff.mp (Nat.le_zero.mp hfuel)
    rw [hnil]
    exact ⟨List.Perm.refl _, List.Pairwise.nil⟩
  | succ fuel ih =>
    cases lanes with
    | nil => exact ⟨List.Perm.refl _, List.Pairwise.nil⟩
    | cons c cs =>
      obtain ⟨hpop, hfirst⟩ := pop_spec cmp c cs
      have hleft := perm_flatMap_pop cmp c cs
      have htop : AscendingBy cmp (pop cmp c cs).1.all :=
        hlanes _ (hpop.mem_iff.mp List.mem_cons_self)
      have hrest : ∀ d ∈ (pop cmp c cs).1.advance ++ (pop cmp c cs).2, AscendingBy cmp d.all := by
        intro d hd
        rcases List.mem_append.mp hd with hd | hd
        · generalize (pop cmp c cs).1 = top at htop hd
          obtain ⟨i, x, rest⟩ := top
          cases rest with
          | nil => exact absurd hd List.not_mem_nil
          | cons y rest =>
            rw [List.mem_singleton.mp hd]
            exact (List.pairwise_cons.mp htop).2
        · exact hlanes d (hpop.mem_iff.mp (List.mem_cons_of_mem _ hd))
      obtain ⟨hperm, hascending⟩ := ih (by
        have hlength := hleft.length_eq
        rw [List.length_cons] at hlength
        omega) hrest
      refine ⟨(hperm.cons _).trans hleft, List.pairwise_cons.mpr ⟨fun y hy => ?_, hascending⟩⟩
      -- What follows is in a lane whose head is not smaller.
      have hin : y ∈ (c :: cs).flatMap all :=
        hleft.mem_iff.mp (List.mem_cons_of_mem _ (hperm.mem_iff.mp hy))
      obtain ⟨d, hd, hyd⟩ := List.mem_flatMap.mp hin
      rcases List.mem_cons.mp hyd with rfl | hyd
      · exact hfirst d hd
      · exact Std.TransCmp.isLE_trans (hfirst d hd) ((List.pairwise_cons.mp (hlanes d hd)).1 y hyd)

end Merge

end Otterbrix
