/-
  Otterbrix.Index.IndexRevert

  Reverting a transaction in a single-field index.  A revert leaves the entries that the other
  transactions inserted, with the marks of the reverted one taken off (`without`).  That is what
  the others' calls alone would have left if each of their marks finds the entry it would have
  found without the transaction; `mark_delete` passes over an entry that the transaction has
  marked, and may stop at one that it has inserted.  And the others' keys must be stored as they
  would be without the transaction, whose inserts may have fixed the type of the index.
-/
import Otterbrix.Lib.Lists
import Otterbrix.Index.IndexRuns

namespace Otterbrix
namespace Index

open Table (transactionIdStart notDeletedId)

namespace SingleFieldIndex

variable {K : Type} [DecidableEq K]

/-! ## The entries without a transaction -/

/-- The entries the transaction did not insert, with its marks taken off. -/
def without (t : TxnId) (storage : List (K × IndexValue)) : List (K × IndexValue) :=
  (storage.filter fun e => e.2.insertId ≠ t.val).map (stampDelete t notDeletedId)

/-- `revert_insert` and `revert_delete` of one transaction. -/
def revert (x : SingleFieldIndex K) (t : TxnId) : SingleFieldIndex K :=
  (x.revertInsert t).revertDelete t

theorem Covered.storage_revert {x : SingleFieldIndex K} (h : Covered x) (t : TxnId) :
    (x.revert t).storage = without t x.storage := by
  rw [revert, (h.revertInsert t).storage_revertDelete, h.storage_revertInsert, without]

section Without

variable {t : TxnId} {storage l₁ l₂ : List (K × IndexValue)} {e : K × IndexValue}

omit [DecidableEq K] in
theorem without_append : without t (l₁ ++ l₂) = without t l₁ ++ without t l₂ := by
  rw [without, List.filter_append, List.map_append]
  rfl

omit [DecidableEq K] in
theorem without_cons_of_eq (h : e.2.insertId = t.val) : without t (e :: l₂) = without t l₂ := by
  rw [without, List.filter_cons_of_neg (by simp [h])]
  rfl

omit [DecidableEq K] in
theorem without_cons_of_ne (h : e.2.insertId ≠ t.val) :
    without t (e :: l₂) = stampDelete t notDeletedId e :: without t l₂ := by
  rw [without, List.filter_cons_of_pos (by simp [h])]
  rfl

omit [DecidableEq K] in
/-- Changes of other stamps are the same before and after. -/
theorem without_map {g : K × IndexValue → K × IndexValue}
    (hinsert : ∀ e, (g e).2.insertId = t.val ↔ e.2.insertId = t.val)
    (hcomm : ∀ e, stampDelete t notDeletedId (g e) = g (stampDelete t notDeletedId e)) :
    without t (storage.map g) = (without t storage).map g := by
  induction storage with
  | nil => rfl
  | cons e storage ih =>
    rw [List.map_cons]
    by_cases he : e.2.insertId = t.val
    · rw [without_cons_of_eq he, without_cons_of_eq ((hinsert e).mpr he), ih]
    · rw [without_cons_of_ne he, without_cons_of_ne fun h => he ((hinsert e).mp h), ih, hcomm,
        List.map_cons]

omit [DecidableEq K] in
/-- A change that the revert takes back. -/
theorem without_map_of_undone {g : K × IndexValue → K × IndexValue}
    (hinsert : ∀ e, (g e).2.insertId = e.2.insertId)
    (hundo : ∀ e, stampDelete t notDeletedId (g e) = stampDelete t notDeletedId e) :
    without t (storage.map g) = without t storage := by
  induction storage with
  | nil => rfl
  | cons e storage ih =>
    rw [List.map_cons]
    by_cases he : e.2.insertId = t.val
    · rw [without_cons_of_eq he, without_cons_of_eq ((hinsert e).trans he), ih]
    · rw [without_cons_of_ne he, without_cons_of_ne (by rw [hinsert e]; exact he), ih, hundo]

end Without

/-! ## The others' calls, with the transaction and without it -/

/-- The key and the insert stamp of the entry that `mark_delete` marks, if it finds one. -/
def candidate (x : SingleFieldIndex K) (key : K) (rowIndex : Int) : Option (K × Nat) :=
  (x.storage.find? (isEntry IndexValue.deleteId notDeletedId key rowIndex)).map fun e =>
    (e.1, e.2.insertId)

section Steps

variable {t : TxnId} {x y : SingleFieldIndex K}

/-! ### The transaction's own calls -/

omit [DecidableEq K] in
theorem without_insertTxn_self (key : K) (rowIndex : Int) :
    without t (x.insertTxn key rowIndex t).storage = without t x.storage := by
  show without t (x.storage ++ [(key, ⟨rowIndex, t, notDeletedId⟩)]) = _
  rw [without_append, without_cons_of_eq rfl]
  exact List.append_nil _

theorem without_markDelete_self (key : K) (rowIndex : Int) :
    without t (x.markDelete key rowIndex t).storage = without t x.storage := by
  rw [storage_markDelete]
  cases hfind : x.storage.find? (isEntry IndexValue.deleteId notDeletedId key rowIndex) with
  | none => rw [modifyFirst_of_find?_eq_none hfind]
  | some e =>
    obtain ⟨l₁, l₂, hsplit, hmod, -, he⟩ := modifyFirst_split (f := setDelete t.val) hfind
    -- the mark goes on an entry that is not deleted, and comes off again
    have hundo : stampDelete t notDeletedId (setDelete t.val e) = stampDelete t notDeletedId e := by
      have hnew := (isEntry_iff.mp he).2.2
      refine entry_ext ?_ ?_ ?_ ?_ <;> simp [hnew]
    rw [hmod, hsplit, without_append, without_append]
    by_cases hmine : e.2.insertId = t.val
    · rw [without_cons_of_eq hmine, without_cons_of_eq (e := setDelete t.val e) hmine]
    · rw [without_cons_of_ne hmine, without_cons_of_ne (e := setDelete t.val e) hmine, hundo]

theorem without_revertInsert_self (h : Covered x) :
    without t (x.revertInsert t).storage = without t x.storage := by
  rw [h.storage_revertInsert, without, List.filter_filter]
  simp only [Bool.and_self]
  rfl

theorem without_revertDelete_self (h : Covered x) :
    without t (x.revertDelete t).storage = without t x.storage := by
  rw [h.storage_revertDelete]
  refine without_map_of_undone (fun e => stampDelete_insertId _ _ e) fun e => ?_
  by_cases hmark : e.2.deleteId = t.val
  · refine entry_ext ?_ ?_ ?_ ?_ <;> simp [hmark]
  · refine entry_ext ?_ ?_ ?_ ?_ <;> simp [hmark]

/-- A commit of inserts shows every entry the transaction has stored. -/
theorem without_commitInsert_iff (h : Covered x) (c : CommitId) :
    (without t (x.commitInsert t c).storage).Perm (without t x.storage) ↔
      ∀ e ∈ x.storage, e.2.insertId ≠ t.val := by
  rw [h.storage_commitInsert]
  constructor
  · intro hperm
    -- after the commit all entries stay, before it those of the others
    have hall : (without t (x.storage.map (stampInsert t c))).length = x.storage.length := by
      have hkeep : (x.storage.map (stampInsert t c)).filter (fun e => e.2.insertId ≠ t.val) =
          x.storage.map (stampInsert t c) := by
        refine List.filter_eq_self.mpr fun e he => decide_eq_true ?_
        obtain ⟨e', -, rfl⟩ := List.mem_map.mp he
        rw [stampInsert_insertId]
        split
        · exact c.ne_txn t
        · assumption
      rw [without, hkeep, List.length_map, List.length_map]
    have hlen := hperm.length_eq
    rw [hall, without, List.length_map] at hlen
    intro e he
    have hmem := List.length_filter_eq_length_iff.mp hlen.symm e he
    exact of_decide_eq_true hmem
  · intro hnone
    have hsame : x.storage.map (stampInsert t c) = x.storage := by
      refine (List.map_congr_left fun e he => ?_).trans (List.map_id _)
      exact if_neg (hnone e he)
    rw [hsame]

/-- A commit of deletes keeps every mark on an entry of another transaction. -/
theorem without_commitDelete_iff (h : Covered x) (c : CommitId) :
    (without t (x.commitDelete t c).storage).Perm (without t x.storage) ↔
      ∀ e ∈ x.storage, e.2.deleteId = t.val → e.2.insertId = t.val := by
  have hafter : without t (x.commitDelete t c).storage =
      (x.storage.filter fun e => e.2.insertId ≠ t.val).map (stampDelete t c) := by
    have hown : (fun e : K × IndexValue => decide (e.2.insertId ≠ t.val)) ∘ stampDelete t c =
        fun e => decide (e.2.insertId ≠ t.val) := by
      funext e
      rw [Function.comp_apply, stampDelete_insertId]
    rw [h.storage_commitDelete, without, List.filter_map, List.map_map, hown]
    refine List.map_congr_left fun e _ => if_neg ?_
    rw [stampDelete_deleteId]
    split
    · exact c.ne_txn t
    · assumption
  rw [hafter, without]
  constructor
  · intro hperm e he hmark
    by_contra hother
    -- the commit leaves fewer entries that are not deleted
    have hcount := hperm.countP_eq fun e => e.2.deleteId = notDeletedId
    rw [List.countP_map, List.countP_map] at hcount
    have hfresh := List.forall_of_countP_le ?_ (Nat.le_of_eq hcount.symm) e
      (List.mem_filter.mpr ⟨he, decide_eq_true hother⟩)
    · simp [hmark, c.ne_notDeletedId] at hfresh
    · intro e' hfresh
      simp only [Function.comp_apply, stampDelete_deleteId, decide_eq_true_eq] at hfresh ⊢
      split at hfresh
      · exact absurd hfresh c.ne_notDeletedId
      · next hne => rw [if_neg hne, hfresh]
  · intro hnone
    have hsame : (x.storage.filter fun e => e.2.insertId ≠ t.val).map (stampDelete t c) =
        (x.storage.filter fun e => e.2.insertId ≠ t.val).map (stampDelete t notDeletedId) := by
      refine List.map_congr_left fun e he => ?_
      obtain ⟨hmem, hother⟩ := List.mem_filter.mp he
      have hmark : e.2.deleteId ≠ t.val := fun hmark => of_decide_eq_true hother (hnone e hmem hmark)
      exact (if_neg hmark).trans (if_neg hmark).symm
    rw [hsame]

/-! ### The calls of the others -/

variable {u : TxnId}

omit [DecidableEq K] in
theorem without_insertTxn_other (hne : u ≠ t) (key : K) (rowIndex : Int) :
    without t (x.insertTxn key rowIndex u).storage =
      without t x.storage ++ [(key, ⟨rowIndex, u, notDeletedId⟩)] := by
  have hu : u.val ≠ t.val := fun h => hne (Subtype.ext h)
  show without t (x.storage ++ [(key, ⟨rowIndex, u, notDeletedId⟩)]) = _
  rw [without_append, without_cons_of_ne (by exact hu)]
  exact congrArg (fun e => without t x.storage ++ [e]) (if_neg t.property.2.symm)

omit [DecidableEq K] in
theorem without_map_stampInsert (hne : u ≠ t) {new : Nat} (hnew : new ≠ t.val)
    (storage : List (K × IndexValue)) :
    without t (storage.map (stampInsert u new)) = (without t storage).map (stampInsert u new) := by
  have hu : u.val ≠ t.val := fun h => hne (Subtype.ext h)
  refine without_map (fun e => ?_) fun e => ?_
  · rw [stampInsert_insertId]
    split
    · next h => exact ⟨fun h' => absurd h' hnew, fun h' => absurd (h.symm.trans h') hu⟩
    · rfl
  · refine entry_ext ?_ ?_ ?_ ?_ <;> simp

omit [DecidableEq K] in
theorem without_map_stampDelete (hne : u ≠ t) {new : Nat} (hnew : new ≠ t.val)
    (storage : List (K × IndexValue)) :
    without t (storage.map (stampDelete u new)) = (without t storage).map (stampDelete u new) := by
  have hu : u.val ≠ t.val := fun h => hne (Subtype.ext h)
  refine without_map (fun e => ?_) fun e => ?_
  · rw [stampDelete_insertId]
  · -- `NOT_DELETED_ID` is no transaction, so the two replacements do not meet
    have hdelete : (stampDelete t notDeletedId (stampDelete u new e)).2.deleteId =
        (stampDelete u new (stampDelete t notDeletedId e)).2.deleteId := by
      simp only [stampDelete_deleteId]
      by_cases hmark : e.2.deleteId = t.val
      · have hother : e.2.deleteId ≠ u.val := fun h => hu (h.symm.trans hmark)
        simp only [if_neg hother, if_pos hmark, if_neg u.property.2.symm]
      · by_cases hmine : e.2.deleteId = u.val
        · simp only [if_pos hmine, if_neg hnew, if_neg hmark]
        · simp only [if_neg hmine, if_neg hmark]
    refine entry_ext ?_ ?_ ?_ hdelete <;> simp

omit [DecidableEq K] in
theorem without_filter (storage : List (K × IndexValue)) :
    without t (storage.filter fun e => e.2.insertId ≠ u.val) =
      (without t storage).filter fun e => e.2.insertId ≠ u.val := by
  have hown : (fun e : K × IndexValue => decide (e.2.insertId ≠ u.val)) ∘
      stampDelete t notDeletedId = fun e => decide (e.2.insertId ≠ u.val) := by
    funext e
    rw [Function.comp_apply, stampDelete_insertId]
  rw [without, without, List.filter_map, hown, List.filter_comm]

/-- What a mark does to the entries, in any order. -/
theorem markDelete_perm {key : K} {rowIndex : Int} {e : K × IndexValue} (new : Nat)
    (h : x.storage.find? (isEntry IndexValue.deleteId notDeletedId key rowIndex) = some e) :
    ∃ rest, x.storage.Perm (e :: rest) ∧
      (x.markDelete key rowIndex new).storage.Perm (setDelete new e :: rest) := by
  obtain ⟨l₁, l₂, hsplit, hmod, -, -⟩ := modifyFirst_split (f := setDelete new) h
  refine ⟨l₁ ++ l₂, ?_, ?_⟩
  · rw [hsplit]
    exact List.perm_middle
  · rw [storage_markDelete, hmod]
    exact List.perm_middle

theorem without_markDelete_perm {key : K} {rowIndex : Int} {e : K × IndexValue} (hne : u ≠ t)
    (h : x.storage.find? (isEntry IndexValue.deleteId notDeletedId key rowIndex) = some e)
    (hother : e.2.insertId ≠ t.val) :
    ∃ rest, (without t x.storage).Perm (e :: rest) ∧
      (without t (x.markDelete key rowIndex u).storage).Perm (setDelete u.val e :: rest) := by
  have hu : u.val ≠ t.val := fun h => hne (Subtype.ext h)
  obtain ⟨l₁, l₂, hsplit, hmod, -, he⟩ := modifyFirst_split (f := setDelete u.val) h
  have hbefore : stampDelete t notDeletedId e = e := by
    refine if_neg ?_
    rw [(isEntry_iff.mp he).2.2]
    exact t.property.2.symm
  have hafter : stampDelete t notDeletedId (setDelete u.val e) = setDelete u.val e := if_neg hu
  refine ⟨without t l₁ ++ without t l₂, ?_, ?_⟩
  · rw [hsplit, without_append, without_cons_of_ne hother, hbefore]
    exact List.perm_middle
  · rw [storage_markDelete, hmod, without_append,
      without_cons_of_ne (e := setDelete u.val e) hother, hafter]
    exact List.perm_middle

/-- A mark that finds nothing, or an entry of the transaction itself, is not seen without it. -/
theorem without_markDelete_of_candidate {key : K} {rowIndex : Int}
    (h : (x.candidate key rowIndex).filter (·.2 ≠ t.val) = none) :
    without t (x.markDelete key rowIndex u).storage = without t x.storage := by
  rw [storage_markDelete]
  cases hfind : x.storage.find? (isEntry IndexValue.deleteId notDeletedId key rowIndex) with
  | none => rw [modifyFirst_of_find?_eq_none hfind]
  | some e =>
    have hmine : e.2.insertId = t.val := by
      rw [candidate, hfind] at h
      simpa using h
    obtain ⟨l₁, l₂, hsplit, hmod, -, -⟩ := modifyFirst_split (f := setDelete u.val) hfind
    rw [hmod, hsplit, without_append, without_append, without_cons_of_eq hmine,
      without_cons_of_eq (e := setDelete u.val e) hmine]

/-- **Marks.**  The mark of another transaction has one effect with the transaction and without it
    exactly if the entries it finds have the same key and insert stamp. -/
theorem markDelete_other_iff (hne : u ≠ t) (hperm : (without t x.storage).Perm y.storage)
    (key key' : K) (rowIndex : Int) :
    (without t (x.markDelete key rowIndex u).storage).Perm (y.markDelete key' rowIndex u).storage ↔
      (x.candidate key rowIndex).filter (·.2 ≠ t.val) = y.candidate key' rowIndex := by
  -- a mark takes one entry out of those that are not deleted
  have hfewer : ∀ (key : K) (e : K × IndexValue) (rest : List (K × IndexValue)),
      isEntry IndexValue.deleteId notDeletedId key rowIndex e = true →
        ¬ (e :: rest).Perm (setDelete u.val e :: rest) := by
    intro key e rest he hsame
    have hcount := hsame.countP_eq (isEntry IndexValue.deleteId notDeletedId key rowIndex)
    have hmarked : ¬ isEntry IndexValue.deleteId notDeletedId key rowIndex (setDelete u.val e) =
        true := fun h => u.property.2 (isEntry_iff.mp h).2.2
    rw [List.countP_cons, List.countP_cons, if_pos he, if_neg hmarked] at hcount
    omega
  have hy : y.candidate key' rowIndex = none →
      (y.markDelete key' rowIndex u).storage = y.storage := by
    intro hnone
    rw [storage_markDelete]
    exact modifyFirst_of_find?_eq_none (Option.map_eq_none_iff.mp hnone)
  cases hx : (x.candidate key rowIndex).filter (·.2 ≠ t.val) with
  | none =>
    rw [without_markDelete_of_candidate hx]
    cases hcand : y.candidate key' rowIndex with
    | none =>
      rw [hy hcand]
      exact iff_of_true hperm rfl
    | some found =>
      obtain ⟨b, hfind, -⟩ := Option.map_eq_some_iff.mp hcand
      obtain ⟨rest, hbefore, hafter⟩ := markDelete_perm u.val hfind
      refine iff_of_false (fun hsame => ?_) (Option.some_ne_none found).symm
      exact hfewer key' b rest (List.find?_some hfind)
        (hbefore.symm.trans (hperm.symm.trans (hsame.trans hafter)))
  | some found =>
    obtain ⟨hcandx, hother⟩ := Option.filter_eq_some_iff.mp hx
    obtain ⟨e, hfinde, rfl⟩ := Option.map_eq_some_iff.mp hcandx
    obtain ⟨restx, hbeforex, hafterx⟩ :=
      without_markDelete_perm hne hfinde (of_decide_eq_true hother)
    cases hcand : y.candidate key' rowIndex with
    | none =>
      rw [hy hcand]
      refine iff_of_false (fun hsame => ?_) (Option.some_ne_none _)
      exact hfewer key e restx (List.find?_some hfinde)
        (hbeforex.symm.trans (hperm.trans (hsame.symm.trans hafterx)))
    | some found' =>
      obtain ⟨b, hfindb, rfl⟩ := Option.map_eq_some_iff.mp hcand
      obtain ⟨resty, hbeforey, haftery⟩ := markDelete_perm u.val hfindb
      obtain ⟨-, hrowe, hdele⟩ := isEntry_iff.mp (List.find?_some hfinde)
      obtain ⟨-, hrowb, hdelb⟩ := isEntry_iff.mp (List.find?_some hfindb)
      have hboth : (e :: restx).Perm (b :: resty) :=
        hbeforex.symm.trans (hperm.trans hbeforey)
      constructor
      · intro hsame
        have hmarked : (setDelete u.val e :: restx).Perm (setDelete u.val b :: resty) :=
          hafterx.symm.trans (hsame.trans haftery)
        have hnot : ∀ b' : K × IndexValue, e ≠ setDelete u.val b' := by
          intro b' heq
          rw [heq] at hdele
          exact u.property.2 hdele
        have heq : e = b := List.eq_of_perm_replace hboth hmarked (hnot e) (hnot b)
        rw [heq]
      · intro hfound
        obtain ⟨hkey, hstamp⟩ := Prod.mk.inj (Option.some.inj hfound)
        have heq : e = b :=
          entry_ext hkey (hrowe.trans hrowb.symm) hstamp (hdele.trans hdelb.symm)
        subst heq
        exact hafterx.trans (((List.perm_cons _).mp hboth).cons _ |>.trans haftery.symm)

omit [DecidableEq K] in
/-- An insert of another transaction has one effect with the transaction and without it exactly if
    it stores the same key. -/
theorem insertTxn_other_iff (hne : u ≠ t) (hperm : (without t x.storage).Perm y.storage)
    (key key' : K) (rowIndex : Int) :
    (without t (x.insertTxn key rowIndex u).storage).Perm (y.insertTxn key' rowIndex u).storage ↔
      key = key' := by
  rw [without_insertTxn_other hne]
  constructor
  · intro hsame
    have hone := (List.perm_append_left_iff _).mp ((hperm.append_right _).symm.trans hsame)
    exact congrArg Prod.fst (List.singleton_perm_singleton.mp hone)
  · rintro rfl
    exact hperm.append_right _

/-- A commit or a revert by another transaction does the same to both. -/
theorem commit_other (hx : Covered x) (hy : Covered y) (hne : u ≠ t)
    (hperm : (without t x.storage).Perm y.storage) (c : CommitId) :
    (without t (x.commitInsert u c).storage).Perm (y.commitInsert u c).storage ∧
      (without t (x.commitDelete u c).storage).Perm (y.commitDelete u c).storage := by
  rw [hx.storage_commitInsert, hy.storage_commitInsert, hx.storage_commitDelete,
    hy.storage_commitDelete, without_map_stampInsert hne (c.ne_txn t),
    without_map_stampDelete hne (c.ne_txn t)]
  exact ⟨hperm.map _, hperm.map _⟩

theorem revert_other (hx : Covered x) (hy : Covered y) (hne : u ≠ t)
    (hperm : (without t x.storage).Perm y.storage) :
    (without t (x.revertInsert u).storage).Perm (y.revertInsert u).storage ∧
      (without t (x.revertDelete u).storage).Perm (y.revertDelete u).storage := by
  rw [hx.storage_revertInsert, hy.storage_revertInsert, hx.storage_revertDelete,
    hy.storage_revertDelete, without_filter, without_map_stampDelete hne t.property.2.symm]
  exact ⟨hperm.filter _, hperm.map _⟩

end Steps

end SingleFieldIndex

/-! ## Whole interleavings -/

namespace TypedIndex

open SingleFieldIndex

variable {V τ : Type} [DecidableEq V] (k : KeyTypes V τ)

/-- Reverting the transaction now leaves what the others' calls alone would have left. -/
def Restored (t : TxnId) (ops : List (IndexOp (Option V))) : Prop :=
  ∃ x y, run k ops = some x ∧ run k (ops.filter (·.txn ≠ t)) = some y ∧
    (x.index.revert t).storage.Perm y.index.storage

/-- The entry that a mark would find: its key and its insert stamp. -/
def found (x : TypedIndex V τ) (key : Option V) (rowIndex : Int) : Option (Option V × Nat) :=
  (x.castKey k key).bind fun key => x.index.candidate key rowIndex

/-- The call leaves the transaction revertible, where `x` is the index and `y` what it would be
    without the transaction's calls.  The cast of its key succeeds.  Another transaction stores the
    same key in both, and marks an entry with the same key and insert stamp in both, or marks none
    but the transaction's own; and the transaction commits nothing that is still to be seen. -/
def Undisturbed (t : TxnId) (x y : TypedIndex V τ) : IndexOp (Option V) → Prop
  | .insert key _ txn => (∃ stored, x.storedKey k key = some stored) ∧
      (txn ≠ t → (x.storedKey k key).map Prod.snd = (y.storedKey k key).map Prod.snd)
  | .markDelete key rowIndex txn => (∃ probe, x.castKey k key = some probe) ∧
      (txn ≠ t → (∃ probe, y.castKey k key = some probe) ∧
        (x.found k key rowIndex).filter (·.2 ≠ t.val) = y.found k key rowIndex)
  | .commitInsert txn _ => txn = t → ∀ e ∈ x.index.storage, e.2.insertId ≠ t.val
  | .commitDelete txn _ => txn = t → ∀ e ∈ x.index.storage, e.2.deleteId = t.val →
      e.2.insertId = t.val
  | .revertInsert _ | .revertDelete _ => True

section Steps

variable {k} {t : TxnId} {x y : TypedIndex V τ}

/-- The entries after a call, with the transaction reverted and without it. -/
def Agree (t : TxnId) (x y : Option (TypedIndex V τ)) : Prop :=
  ∃ x' y', x = some x' ∧ y = some y' ∧ (without t x'.index.storage).Perm y'.index.storage

omit [DecidableEq V] in
theorem agree_some_iff {x y : TypedIndex V τ} :
    Agree t (some x) (some y) ↔ (without t x.index.storage).Perm y.index.storage := by
  constructor
  · rintro ⟨x', y', hx, hy, hperm⟩
    rwa [Option.some.inj hx, Option.some.inj hy]
  · intro hperm
    exact ⟨x, y, rfl, rfl, hperm⟩

omit [DecidableEq V] in
theorem not_agree_none {y : Option (TypedIndex V τ)} : ¬ Agree t none y := by
  rintro ⟨x', y', hx, -⟩
  cases hx

omit [DecidableEq V] in
theorem not_agree_of_none {x : Option (TypedIndex V τ)} : ¬ Agree t x none := by
  rintro ⟨x', y', -, hy, -⟩
  cases hy

/-- **Steps of the transaction.**  They change nothing that is left without it, if their casts
    succeed and they commit nothing. -/
theorem apply_self_iff (hx : Covered x.index)
    (hperm : (without t x.index.storage).Perm y.index.storage) {op : IndexOp (Option V)}
    (hmine : op.txn = t) : Agree t (x.apply k op) (some y) ↔ Undisturbed k t x y op := by
  subst hmine
  cases op with
  | insert key rowIndex txn =>
    show Agree txn (((x.storedKey k key).map fun stored =>
      (stored.1, IndexOp.insert stored.2 rowIndex txn)).map _) _ ↔ _ ∧ (txn ≠ txn → _)
    cases x.storedKey k key with
    | none => exact iff_of_false not_agree_none fun h => absurd h.1 (by simp)
    | some stored =>
      refine iff_of_true (agree_some_iff.mpr ?_) ⟨⟨stored, rfl⟩, fun h => absurd rfl h⟩
      exact (without_insertTxn_self stored.2 rowIndex).symm ▸ hperm
  | markDelete key rowIndex txn =>
    show Agree txn (((x.castKey k key).map fun key =>
      (x.storedType, IndexOp.markDelete key rowIndex txn)).map _) _ ↔ _ ∧ (txn ≠ txn → _)
    cases x.castKey k key with
    | none => exact iff_of_false not_agree_none fun h => absurd h.1 (by simp)
    | some probe =>
      refine iff_of_true (agree_some_iff.mpr ?_) ⟨⟨probe, rfl⟩, fun h => absurd rfl h⟩
      exact (without_markDelete_self probe rowIndex).symm ▸ hperm
  | commitInsert txn c =>
    refine agree_some_iff.trans ?_
    rw [List.Perm.congr_right hperm.symm]
    exact (without_commitInsert_iff hx c).trans ⟨fun h _ => h, fun h => h rfl⟩
  | commitDelete txn c =>
    refine agree_some_iff.trans ?_
    rw [List.Perm.congr_right hperm.symm]
    exact (without_commitDelete_iff hx c).trans ⟨fun h _ => h, fun h => h rfl⟩
  | revertInsert txn =>
    refine iff_of_true (agree_some_iff.mpr ?_) trivial
    exact (without_revertInsert_self hx).symm ▸ hperm
  | revertDelete txn =>
    refine iff_of_true (agree_some_iff.mpr ?_) trivial
    exact (without_revertDelete_self hx).symm ▸ hperm

/-- **Steps of the others.** -/
theorem apply_other_iff (hx : Covered x.index) (hy : Covered y.index)
    (hperm : (without t x.index.storage).Perm y.index.storage) {op : IndexOp (Option V)}
    (hother : op.txn ≠ t) :
    Agree t (x.apply k op) (y.apply k op) ↔ Undisturbed k t x y op := by
  cases op with
  | insert key rowIndex txn =>
    show Agree t (((x.storedKey k key).map fun stored =>
        (stored.1, IndexOp.insert stored.2 rowIndex txn)).map _)
      (((y.storedKey k key).map fun stored =>
        (stored.1, IndexOp.insert stored.2 rowIndex txn)).map _) ↔ _ ∧ (txn ≠ t → _)
    cases x.storedKey k key with
    | none => exact iff_of_false not_agree_none fun h => absurd h.1 (by simp)
    | some stored =>
      cases y.storedKey k key with
      | none => exact iff_of_false not_agree_of_none fun h => absurd (h.2 hother) (by simp)
      | some stored' =>
        refine agree_some_iff.trans ((insertTxn_other_iff hother hperm _ _ rowIndex).trans ?_)
        exact ⟨fun h => ⟨⟨stored, rfl⟩, fun _ => congrArg some h⟩,
          fun h => Option.some.inj (h.2 hother)⟩
  | markDelete key rowIndex txn =>
    show Agree t (((x.castKey k key).map fun key =>
        (x.storedType, IndexOp.markDelete key rowIndex txn)).map _)
      (((y.castKey k key).map fun key =>
        (y.storedType, IndexOp.markDelete key rowIndex txn)).map _) ↔ _ ∧ (txn ≠ t → _)
    unfold found
    cases x.castKey k key with
    | none => exact iff_of_false not_agree_none fun h => absurd h.1 (by simp)
    | some probe =>
      cases y.castKey k key with
      | none => exact iff_of_false not_agree_of_none fun h => absurd (h.2 hother).1 (by simp)
      | some probe' =>
        refine agree_some_iff.trans ((markDelete_other_iff hother hperm _ _ rowIndex).trans ?_)
        exact ⟨fun h => ⟨⟨probe, rfl⟩, fun _ => ⟨⟨probe', rfl⟩, h⟩⟩, fun h => (h.2 hother).2⟩
  | commitInsert txn c =>
    refine iff_of_true (agree_some_iff.mpr ?_) fun h => absurd h hother
    exact (commit_other hx hy hother hperm c).1
  | commitDelete txn c =>
    refine iff_of_true (agree_some_iff.mpr ?_) fun h => absurd h hother
    exact (commit_other hx hy hother hperm c).2
  | revertInsert txn =>
    exact iff_of_true (agree_some_iff.mpr (revert_other hx hy hother hperm).1) trivial
  | revertDelete txn =>
    exact iff_of_true (agree_some_iff.mpr (revert_other hx hy hother hperm).2) trivial

end Steps

theorem restored_iff (t : TxnId) (ops : List (IndexOp (Option V))) :
    Restored k t ops ↔ Agree t (run k ops) (run k (ops.filter (·.txn ≠ t))) := by
  constructor
  · rintro ⟨x, y, hx, hy, hperm⟩
    rw [(covered_run k hx).storage_revert] at hperm
    exact ⟨x, y, hx, hy, hperm⟩
  · rintro ⟨x, y, hx, hy, hperm⟩
    refine ⟨x, y, hx, hy, ?_⟩
    rwa [(covered_run k hx).storage_revert]

/-- **Interleavings.**  Reverting the transaction at any point of an interleaving leaves what the
    others' calls alone would have left, exactly if every call leaves it undisturbed. -/
theorem revert_restores_iff (t : TxnId) (ops : List (IndexOp (Option V))) :
    (∀ n, Restored k t (ops.take n)) ↔ ∀ n op, ops[n]? = some op → ∃ x y,
      run k (ops.take n) = some x ∧ run k ((ops.take n).filter (·.txn ≠ t)) = some y ∧
        Undisturbed k t x y op := by
  refine List.forall_take_iff (P := Restored k t)
    (C := fun done op => ∃ x y, run k done = some x ∧
      run k (done.filter (·.txn ≠ t)) = some y ∧ Undisturbed k t x y op) ?_ ?_ ops
  · exact (restored_iff k t []).mpr ⟨{}, {}, rfl, rfl, List.Perm.refl _⟩
  · intro done op hdone
    obtain ⟨x, y, hx, hy, hperm⟩ := (restored_iff k t done).mp hdone
    have hcond : (∃ x y, run k done = some x ∧ run k (done.filter (·.txn ≠ t)) = some y ∧
        Undisturbed k t x y op) ↔ Undisturbed k t x y op := by
      constructor
      · rintro ⟨x', y', hx', hy', h⟩
        obtain rfl := Option.some.inj (hx.symm.trans hx')
        obtain rfl := Option.some.inj (hy.symm.trans hy')
        exact h
      · intro h
        exact ⟨x, y, hx, hy, h⟩
    rw [restored_iff, hcond, run_append, hx, Option.bind_some, List.filter_append]
    by_cases hmine : op.txn = t
    · rw [List.filter_cons_of_neg (by simpa using hmine), List.filter_nil, List.append_nil, hy]
      exact apply_self_iff (covered_run k hx) hperm hmine
    · rw [List.filter_cons_of_pos (by simpa using hmine), List.filter_nil, run_append, hy,
        Option.bind_some]
      exact apply_other_iff (covered_run k hx) (covered_run k hy) hperm hmine

/-- Numbers of one type. -/
def oneKeyType : KeyTypes Nat Unit := ⟨fun _ => (), fun v _ => some v⟩

/-- Row 7 is stored and committed, the first transaction marks it, the second marks it and commits,
    and the first is reverted: the row is in the index again, without the delete of the second. -/
theorem blocked_delete_lost :
    let first : TxnId := ⟨transactionIdStart, by decide⟩
    let second : TxnId := ⟨transactionIdStart + 1, by decide⟩
    let ops : List (IndexOp (Option Nat)) := [.insert (some 5) 7 ⟨0, by decide⟩,
      .markDelete (some 5) 7 first, .markDelete (some 5) 7 second,
      .commitDelete second ⟨3, by decide⟩]
    (run oneKeyType ops).map (fun x => (x.index.revert first).storage) =
        some [(some 5, ⟨7, 0, notDeletedId⟩)] ∧
      (run oneKeyType (ops.filter (·.txn ≠ first))).map (fun x => x.index.storage) =
        some [(some 5, ⟨7, 0, 3⟩)] := by
  refine ⟨?_, ?_⟩ <;> decide +kernel

end TypedIndex

end Index
end Otterbrix
