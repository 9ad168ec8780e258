/-
  Otterbrix.Lib.OrderedMap

  A finite map kept as its entries in ascending order of the keys, the way a directory
  listing that is sorted by name yields them.
-/
import Mathlib.Order.Lattice
import Mathlib.Data.List.Pairwise
import Mathlib.Order.Defs.LinearOrder
import Mathlib.Data.List.Basic

/-- A finite map, as its entries in ascending order. -/
structure OrderedMap (κ α : Type _) [LinearOrder κ] where
  entries : List (κ × α)
  sorted : (entries.map Prod.fst).Pairwise (· < ·)

namespace OrderedMap

variable {κ α : Type _} [LinearOrder κ]

def empty : OrderedMap κ α := ⟨[], List.Pairwise.nil⟩

/-- The keys, ascending. -/
def keys (m : OrderedMap κ α) : List κ := m.entries.map Prod.fst

/-- The value at a key. -/
def get? (m : OrderedMap κ α) (k : κ) : Option α := m.entries.lookup k

@[ext] theorem ext_entries {m m' : OrderedMap κ α} (h : m.entries = m'.entries) : m = m' := by
  obtain ⟨l, hl⟩ := m
  obtain ⟨l', hl'⟩ := m'
  subst h
  rfl

/-! ## Lookup -/

theorem lookup_eq_none {l : List (κ × α)} {k : κ} (h : k ∉ l.map Prod.fst) : l.lookup k = none := by
  induction l with
  | nil => rfl
  | cons p l ih =>
    rw [List.map_cons, List.mem_cons, not_or] at h
    rw [List.lookup_cons, beq_false_of_ne h.1]
    exact ih h.2

theorem lookup_eq_some_iff {l : List (κ × α)} (hl : (l.map Prod.fst).Pairwise (· < ·)) {k : κ} {a : α} :
    l.lookup k = some a ↔ (k, a) ∈ l := by
  induction l with
  | nil => simp
  | cons p l ih =>
    obtain ⟨b, x⟩ := p
    obtain ⟨hfirst, hl⟩ := List.pairwise_cons.mp hl
    rw [List.lookup_cons, List.mem_cons, Prod.mk.injEq]
    by_cases hk : k = b
    · subst hk
      have hrest : (k, a) ∉ l := fun hmem =>
        lt_irrefl k (hfirst k (List.mem_map.mpr ⟨_, hmem, rfl⟩))
      rw [beq_self_eq_true]
      simp [hrest, eq_comm]
    · rw [beq_false_of_ne hk]
      simp [hk, ih hl]

theorem get?_eq_some_iff {m : OrderedMap κ α} {k : κ} {a : α} :
    m.get? k = some a ↔ (k, a) ∈ m.entries :=
  lookup_eq_some_iff m.sorted

theorem get?_eq_none_iff {m : OrderedMap κ α} {k : κ} : m.get? k = none ↔ k ∉ m.keys := by
  constructor
  · intro hnone hmem
    obtain ⟨⟨k', a⟩, hentry, rfl⟩ := List.mem_map.mp hmem
    rw [get?_eq_some_iff.mpr hentry] at hnone
    exact absurd hnone (Option.some_ne_none a)
  · exact lookup_eq_none

/-! ## Insertion -/

/-- Insert into an ascending list of entries; the value of a key that is there is replaced. -/
def insertEntry (k : κ) (a : α) : List (κ × α) → List (κ × α)
  | [] => [(k, a)]
  | (b, x) :: l =>
      if k < b then (k, a) :: (b, x) :: l
      else if k = b then (k, a) :: l
      else (b, x) :: insertEntry k a l

theorem mem_insertEntry_keys {k x : κ} {a : α} {l : List (κ × α)}
    (h : x ∈ (insertEntry k a l).map Prod.fst) : x = k ∨ x ∈ l.map Prod.fst := by
  induction l with
  | nil => exact .inl (List.mem_singleton.mp h)
  | cons p l ih =>
    obtain ⟨b, y⟩ := p
    unfold insertEntry at h
    split_ifs at h with hlt heq
    · exact List.mem_cons.mp h
    · rcases List.mem_cons.mp h with hx | hx
      · exact .inl hx
      · exact .inr (List.mem_cons_of_mem _ hx)
    · rcases List.mem_cons.mp h with hx | hx
      · exact .inr (List.mem_cons.mpr (.inl hx))
      · exact (ih hx).imp_right (List.mem_cons_of_mem _)

theorem pairwise_insertEntry {k : κ} {a : α} {l : List (κ × α)}
    (hl : (l.map Prod.fst).Pairwise (· < ·)) : ((insertEntry k a l).map Prod.fst).Pairwise (· < ·) := by
  induction l with
  | nil => simp [insertEntry]
  | cons p l ih =>
    obtain ⟨b, y⟩ := p
    obtain ⟨hb, hrest⟩ := List.pairwise_cons.mp hl
    unfold insertEntry
    split_ifs with hlt heq
    · refine List.pairwise_cons.mpr ⟨fun x hx => ?_, hl⟩
      rcases List.mem_cons.mp hx with rfl | hx
      · exact hlt
      · exact lt_trans hlt (hb x hx)
    · subst heq
      exact hl
    · refine List.pairwise_cons.mpr ⟨fun x hx => ?_, ih hrest⟩
      rcases mem_insertEntry_keys hx with rfl | hx
      · exact lt_of_le_of_ne (not_lt.mp hlt) (Ne.symm heq)
      · exact hb x hx

def insert (m : OrderedMap κ α) (k : κ) (a : α) : OrderedMap κ α :=
  ⟨insertEntry k a m.entries, pairwise_insertEntry m.sorted⟩

theorem lookup_insertEntry (k k' : κ) (a : α) (l : List (κ × α)) :
    (insertEntry k a l).lookup k' = if k' = k then some a else l.lookup k' := by
  induction l with
  | nil =>
    show [(k, a)].lookup k' = _
    rw [List.lookup_cons]
    by_cases hk : k' = k
    · rw [if_pos hk, hk, beq_self_eq_true]
    · rw [if_neg hk, beq_false_of_ne hk]
  | cons p l ih =>
    obtain ⟨b, y⟩ := p
    have hhead : ∀ l' : List (κ × α),
        ((k, a) :: l').lookup k' = if k' = k then some a else l'.lookup k' := by
      intro l'
      rw [List.lookup_cons]
      by_cases hk : k' = k
      · rw [if_pos hk, hk, beq_self_eq_true]
      · rw [if_neg hk, beq_false_of_ne hk]
    rw [insertEntry]
    split
    · exact hhead _
    split
    · next heq =>
      rw [hhead, List.lookup_cons, ← heq]
      by_cases hk : k' = k
      · rw [if_pos hk, if_pos hk]
      · rw [if_neg hk, if_neg hk, beq_false_of_ne hk]
    · next hne =>
      rw [List.lookup_cons, List.lookup_cons, ih]
      by_cases hk : k' = k
      · rw [if_pos hk, if_pos hk, hk, beq_false_of_ne hne]
      · rw [if_neg hk, if_neg hk]

theorem get?_insert (m : OrderedMap κ α) (k k' : κ) (a : α) :
    (m.insert k a).get? k' = if k' = k then some a else m.get? k' :=
  lookup_insertEntry k k' a m.entries

/-- The value of a key that is there is replaced where it stands. -/
theorem entries_insert_of_mem {m : OrderedMap κ α} {l₁ l₂ : List (κ × α)} {k : κ} {a b : α}
    (h : m.entries = l₁ ++ (k, b) :: l₂) : (m.insert k a).entries = l₁ ++ (k, a) :: l₂ := by
  have hsorted := m.sorted
  show insertEntry k a m.entries = _
  rw [h] at hsorted ⊢
  clear h
  induction l₁ with
  | nil =>
    show insertEntry k a ((k, b) :: l₂) = (k, a) :: l₂
    rw [insertEntry, if_neg (lt_irrefl k), if_pos rfl]
  | cons p l₁ ih =>
    obtain ⟨c, y⟩ := p
    obtain ⟨hc, hrest⟩ := List.pairwise_cons.mp hsorted
    have hlt : c < k := hc k (by simp)
    rw [List.cons_append, insertEntry, if_neg (not_lt.mpr (le_of_lt hlt)), if_neg (ne_of_gt hlt), ih hrest,
      List.cons_append]

/-! ## Removal -/

def erase (m : OrderedMap κ α) (k : κ) : OrderedMap κ α :=
  ⟨m.entries.filter fun p => p.1 ≠ k, m.sorted.sublist (List.filter_sublist.map _)⟩

/-- The entries that are left when some keys are erased. -/
theorem entries_foldl_erase (ks : List κ) (m : OrderedMap κ α) :
    (ks.foldl erase m).entries = m.entries.filter fun p => p.1 ∉ ks := by
  induction ks generalizing m with
  | nil => simp
  | cons k ks ih =>
    rw [List.foldl_cons, ih]
    show (m.entries.filter fun p => p.1 ≠ k).filter (fun p => p.1 ∉ ks) = _
    rw [List.filter_filter]
    refine List.filter_congr fun p _ => ?_
    simp [Bool.and_comm]

end OrderedMap
