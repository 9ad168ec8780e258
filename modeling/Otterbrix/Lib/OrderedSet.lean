/-
  Otterbrix.Lib.OrderedSet

  A finite ordered set kept as its ascending enumeration, the way an in-order
  walk of a balanced tree yields it.  The enumeration is strictly increasing by
  construction, so `front?` is the least element and `binarySearch` on a copy
  of the enumeration decides membership.
-/
import Mathlib.Order.Lattice
import Mathlib.Data.List.Pairwise
import Mathlib.Order.Defs.LinearOrder
import Mathlib.Data.List.Nodup

/-- A finite set of a linear order, represented by its ascending enumeration. -/
structure OrderedSet (α : Type _) [LinearOrder α] where
  toList : List α
  sorted : toList.Pairwise (· < ·)

namespace OrderedSet

variable {α : Type _} [LinearOrder α]

instance : Membership α (OrderedSet α) := ⟨fun s a => a ∈ s.toList⟩

@[simp] theorem mem_toList {s : OrderedSet α} {a : α} : a ∈ s.toList ↔ a ∈ s := Iff.rfl

theorem sorted_nil : ([] : List α).Pairwise (· < ·) := List.Pairwise.nil

def empty : OrderedSet α := ⟨[], sorted_nil⟩

@[simp] theorem notMem_empty (a : α) : a ∉ (empty : OrderedSet α) :=
  List.not_mem_nil

/-! ## Insertion -/

/-- Insert into an ascending list; a value already present is left as it is. -/
def insertSorted (a : α) : List α → List α
  | [] => [a]
  | b :: l => if a < b then a :: b :: l else if a = b then b :: l else b :: insertSorted a l

theorem mem_insertSorted {a x : α} {l : List α} :
    x ∈ insertSorted a l ↔ x = a ∨ x ∈ l := by
  induction l with
  | nil => simp [insertSorted]
  | cons b l ih =>
      unfold insertSorted
      split_ifs with hlt heq
      · simp
      · subst heq
        simp
      · simp only [List.mem_cons, ih]
        tauto

theorem pairwise_insertSorted {a : α} {l : List α} (hl : l.Pairwise (· < ·)) :
    (insertSorted a l).Pairwise (· < ·) := by
  induction l with
  | nil => simp [insertSorted]
  | cons b l ih =>
      obtain ⟨hb, hl⟩ := List.pairwise_cons.mp hl
      unfold insertSorted
      split_ifs with hlt heq
      · refine List.pairwise_cons.mpr ⟨?_, List.pairwise_cons.mpr ⟨hb, hl⟩⟩
        intro x hx
        rcases List.mem_cons.mp hx with rfl | hx
        · exact hlt
        · exact lt_trans hlt (hb x hx)
      · exact List.pairwise_cons.mpr ⟨hb, hl⟩
      · refine List.pairwise_cons.mpr ⟨?_, ih hl⟩
        intro x hx
        rcases mem_insertSorted.mp hx with rfl | hx
        · exact lt_of_le_of_ne (not_lt.mp hlt) (Ne.symm heq)
        · exact hb x hx

def insert (s : OrderedSet α) (a : α) : OrderedSet α :=
  ⟨insertSorted a s.toList, pairwise_insertSorted s.sorted⟩

@[simp] theorem mem_insert {s : OrderedSet α} {a x : α} :
    x ∈ s.insert a ↔ x = a ∨ x ∈ s :=
  mem_insertSorted

/-! ## Removal -/

def erase (s : OrderedSet α) (a : α) : OrderedSet α :=
  ⟨s.toList.erase a, s.sorted.sublist List.erase_sublist⟩

theorem nodup (s : OrderedSet α) : s.toList.Nodup :=
  s.sorted.imp fun h => ne_of_lt h

@[simp] theorem mem_erase {s : OrderedSet α} {a x : α} :
    x ∈ s.erase a ↔ x ≠ a ∧ x ∈ s :=
  s.nodup.mem_erase_iff

/-! ## Least element -/

/-- The first element of the enumeration. -/
def front? (s : OrderedSet α) : Option α := s.toList.head?

theorem front?_eq_none {s : OrderedSet α} : s.front? = none ↔ ∀ a, a ∉ s := by
  unfold front?
  rw [List.head?_eq_none_iff, List.eq_nil_iff_forall_not_mem]
  rfl

/-- The head of an ascending list bounds every element from below. -/
theorem head?_le {l : List α} (hl : l.Pairwise (· < ·)) {m a : α}
    (hm : l.head? = some m) (ha : a ∈ l) : m ≤ a := by
  cases l with
  | nil => simp at ha
  | cons b l =>
      obtain rfl : b = m := by simpa using hm
      rcases List.mem_cons.mp ha with rfl | ha
      · exact le_rfl
      · exact le_of_lt ((List.pairwise_cons.mp hl).1 a ha)

theorem front?_le {s : OrderedSet α} {m a : α} (hm : s.front? = some m) (ha : a ∈ s) : m ≤ a :=
  head?_le s.sorted hm ha

theorem front?_mem {s : OrderedSet α} {m : α} (hm : s.front? = some m) : m ∈ s :=
  List.mem_of_head? hm

/-! ## Binary search -/

/-- `std::binary_search`: the first element not below `v` (what `lower_bound`
    yields on a range partitioned by `· < v`) exists and is not above `v`. -/
def binarySearch (l : List α) (v : α) : Bool :=
  match l.dropWhile (fun x => decide (x < v)) with
  | [] => false
  | w :: _ => !decide (v < w)

/-- On an ascending range the search decides membership. -/
theorem binarySearch_iff_mem {l : List α} (hl : l.Pairwise (· < ·)) (v : α) :
    binarySearch l v = true ↔ v ∈ l := by
  induction l with
  | nil => simp [binarySearch]
  | cons b l ih =>
      obtain ⟨hb, hl⟩ := List.pairwise_cons.mp hl
      by_cases hlt : b < v
      · have hskip : binarySearch (b :: l) v = binarySearch l v := by
          simp [binarySearch, hlt]
        rw [hskip, ih hl, List.mem_cons]
        simp [ne_of_gt hlt]
      · have hstop : binarySearch (b :: l) v = !decide (v < b) := by
          simp [binarySearch, hlt]
        have hrest : v < b → v ∉ l := fun h hv => lt_asymm h (hb v hv)
        rw [hstop, List.mem_cons]
        rcases lt_or_eq_of_le (not_lt.mp hlt) with h | rfl
        · simp [h, ne_of_lt h, hrest h]
        · simp

end OrderedSet
