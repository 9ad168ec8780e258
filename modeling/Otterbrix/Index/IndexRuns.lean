/-
  Otterbrix.Index.IndexRuns

  Sequences of calls on a single-field index.  The entries of all transactions share one
  multimap, and a commit or a revert finds a transaction's entries again by key and row, from its
  pending list, and takes the first that carries its stamp.  `Covers` says that the list has as
  many elements of a key and a row as there are stamped entries; then the loop acts on all entries
  with the stamp, whatever their order, and every call keeps it so (`covered_run`).

  The type of the keys is that of the first value ever inserted (`TypedIndex`); no revert takes it
  back.
-/
import Mathlib.Data.List.Induction
import Otterbrix.Index.SingleFieldIndex

namespace Otterbrix
namespace Index

open Table (transactionIdStart notDeletedId)

section ModifyFirst

variable {α : Type} {p : α → Bool} {f : α → α} {l : List α} {a : α}

theorem modifyFirst_of_find?_eq_none (h : l.find? p = none) : modifyFirst p f l = l := by
  induction l with
  | nil => rfl
  | cons b l ih =>
    have hnone := List.find?_eq_none.mp h
    rw [modifyFirst, if_neg (hnone b List.mem_cons_self),
      ih (List.find?_eq_none.mpr fun c hc => hnone c (List.mem_cons_of_mem _ hc))]

/-- The changed element stands where the first accepted one stood. -/
theorem modifyFirst_split (h : l.find? p = some a) :
    ∃ l₁ l₂, l = l₁ ++ a :: l₂ ∧ modifyFirst p f l = l₁ ++ f a :: l₂ ∧
      l.eraseP p = l₁ ++ l₂ ∧ p a = true := by
  induction l with
  | nil => exact nomatch h
  | cons b l ih =>
    cases hb : p b with
    | true =>
      rw [List.find?_cons_of_pos hb] at h
      obtain rfl := Option.some.inj h
      refine ⟨[], l, rfl, ?_, List.eraseP_cons_of_pos hb, hb⟩
      rw [modifyFirst, if_pos hb]
      rfl
    | false =>
      have hb' : ¬ p b = true := by simp [hb]
      rw [List.find?_cons_of_neg hb'] at h
      obtain ⟨l₁, l₂, rfl, hmod, herase, ha⟩ := ih h
      refine ⟨b :: l₁, l₂, rfl, ?_, ?_, ha⟩
      · rw [modifyFirst, if_neg hb', hmod]
        rfl
      · rw [List.eraseP_cons_of_neg hb', herase]
        rfl

/-- A function that does not see the change does not see that it was made. -/
theorem map_modifyFirst {β : Type} {g : α → β} (h : ∀ a, p a = true → g (f a) = g a)
    (l : List α) : (modifyFirst p f l).map g = l.map g := by
  cases hfind : l.find? p with
  | none => rw [modifyFirst_of_find?_eq_none hfind]
  | some a =>
    obtain ⟨l₁, l₂, rfl, hmod, -, ha⟩ := modifyFirst_split (f := f) hfind
    rw [hmod, List.map_append, List.map_append, List.map_cons, List.map_cons, h a ha]

end ModifyFirst

namespace SingleFieldIndex

variable {K : Type}

/-! ## Replacing a stamp -/

/-- The insert stamp `id` replaced. -/
def stampInsert (id new : Nat) (e : K × IndexValue) : K × IndexValue :=
  if e.2.insertId = id then setInsert new e else e

/-- The delete stamp `id` replaced. -/
def stampDelete (id new : Nat) (e : K × IndexValue) : K × IndexValue :=
  if e.2.deleteId = id then setDelete new e else e

@[simp] theorem stampInsert_key (id new : Nat) (e : K × IndexValue) :
    (stampInsert id new e).1 = e.1 := by
  unfold stampInsert
  split <;> rfl

@[simp] theorem stampInsert_rowIndex (id new : Nat) (e : K × IndexValue) :
    (stampInsert id new e).2.rowIndex = e.2.rowIndex := by
  unfold stampInsert
  split <;> rfl

@[simp] theorem stampInsert_insertId (id new : Nat) (e : K × IndexValue) :
    (stampInsert id new e).2.insertId = if e.2.insertId = id then new else e.2.insertId := by
  unfold stampInsert
  split <;> rfl

@[simp] theorem stampInsert_deleteId (id new : Nat) (e : K × IndexValue) :
    (stampInsert id new e).2.deleteId = e.2.deleteId := by
  unfold stampInsert
  split <;> rfl

@[simp] theorem stampDelete_key (id new : Nat) (e : K × IndexValue) :
    (stampDelete id new e).1 = e.1 := by
  unfold stampDelete
  split <;> rfl

@[simp] theorem stampDelete_rowIndex (id new : Nat) (e : K × IndexValue) :
    (stampDelete id new e).2.rowIndex = e.2.rowIndex := by
  unfold stampDelete
  split <;> rfl

@[simp] theorem stampDelete_insertId (id new : Nat) (e : K × IndexValue) :
    (stampDelete id new e).2.insertId = e.2.insertId := by
  unfold stampDelete
  split <;> rfl

@[simp] theorem stampDelete_deleteId (id new : Nat) (e : K × IndexValue) :
    (stampDelete id new e).2.deleteId = if e.2.deleteId = id then new else e.2.deleteId := by
  unfold stampDelete
  split <;> rfl

@[simp] theorem setDelete_key (new : Nat) (e : K × IndexValue) : (setDelete new e).1 = e.1 := rfl

@[simp] theorem setDelete_rowIndex (new : Nat) (e : K × IndexValue) :
    (setDelete new e).2.rowIndex = e.2.rowIndex := rfl

@[simp] theorem setDelete_insertId (new : Nat) (e : K × IndexValue) :
    (setDelete new e).2.insertId = e.2.insertId := rfl

@[simp] theorem setDelete_deleteId (new : Nat) (e : K × IndexValue) :
    (setDelete new e).2.deleteId = new := rfl

/-- Entries are the same if key, row and stamps are. -/
theorem entry_ext {e e' : K × IndexValue} (hkey : e.1 = e'.1) (hrow : e.2.rowIndex = e'.2.rowIndex)
    (hinsert : e.2.insertId = e'.2.insertId) (hdelete : e.2.deleteId = e'.2.deleteId) : e = e' := by
  obtain ⟨k, r, i, d⟩ := e
  obtain ⟨k', r', i', d'⟩ := e'
  obtain rfl : k = k' := hkey
  obtain rfl : r = r' := hrow
  obtain rfl : i = i' := hinsert
  obtain rfl : d = d' := hdelete
  rfl

variable [DecidableEq K]

/-! ## Pending lists that reach every stamped entry -/

/-- For each key and row, as many pending elements as entries with the stamp. -/
def Covers (stamp : IndexValue → Nat) (id : Nat) (pending : List (K × Int))
    (storage : List (K × IndexValue)) : Prop :=
  ∀ key rowIndex, storage.countP (isEntry stamp id key rowIndex) ≤ pending.count (key, rowIndex)

section Covers

variable {stamp : IndexValue → Nat} {id : Nat} {pending : List (K × Int)} {p : K × Int}
  {storage storage' : List (K × IndexValue)} {f : K × IndexValue → K × IndexValue}

/-- With nothing pending no entry has the stamp. -/
theorem Covers.stamp_ne (h : Covers stamp id [] storage) :
    ∀ e ∈ storage, stamp e.2 ≠ id := by
  intro e he hstamp
  have hzero : storage.countP (isEntry stamp id e.1 e.2.rowIndex) = 0 := by
    have := h e.1 e.2.rowIndex
    rw [List.count_nil] at this
    omega
  exact List.countP_eq_zero.mp hzero e he (isEntry_iff.mpr ⟨rfl, rfl, hstamp⟩)

theorem covers_of_stamp_ne (h : ∀ e ∈ storage, stamp e.2 ≠ id) : Covers stamp id pending storage := by
  intro key rowIndex
  have hzero : storage.countP (isEntry stamp id key rowIndex) = 0 :=
    List.countP_eq_zero.mpr fun e he hentry => h e he (isEntry_iff.mp hentry).2.2
  omega

/-- What reaches all entries of a list reaches those of one with fewer. -/
theorem Covers.mono (h : Covers stamp id pending storage)
    (hle : ∀ key rowIndex, storage'.countP (isEntry stamp id key rowIndex) ≤
      storage.countP (isEntry stamp id key rowIndex)) : Covers stamp id pending storage' :=
  fun key rowIndex => Nat.le_trans (hle key rowIndex) (h key rowIndex)

/-- One turn of a loop: if it finds an entry, the entry counts no more. -/
theorem Covers.tail (h : Covers stamp id (p :: pending) storage)
    (hnone : storage.find? (isEntry stamp id p.1 p.2) = none → storage' = storage)
    (hsome : ∀ e, storage.find? (isEntry stamp id p.1 p.2) = some e → ∀ key rowIndex,
      storage.countP (isEntry stamp id key rowIndex) =
        storage'.countP (isEntry stamp id key rowIndex) +
          if isEntry stamp id key rowIndex e then 1 else 0) :
    Covers stamp id pending storage' := by
  intro key rowIndex
  have hle := h key rowIndex
  rw [List.count_cons] at hle
  cases hfind : storage.find? (isEntry stamp id p.1 p.2) with
  | none =>
    rw [hnone hfind]
    by_cases hp : p = (key, rowIndex)
    · have hzero : storage.countP (isEntry stamp id key rowIndex) = 0 := by
        subst hp
        exact List.countP_eq_zero.mpr (List.find?_eq_none.mp hfind)
      omega
    · rw [if_neg (by simpa using hp)] at hle
      exact hle
  | some e =>
    have hcount := hsome e hfind key rowIndex
    obtain ⟨hkey, hrow, hstamp⟩ := isEntry_iff.mp (List.find?_some hfind)
    by_cases hp : p = (key, rowIndex)
    · have hentry : isEntry stamp id key rowIndex e = true := by
        subst hp
        exact isEntry_iff.mpr ⟨hkey, hrow, hstamp⟩
      rw [if_pos hentry] at hcount
      rw [if_pos (by simpa using hp)] at hle
      omega
    · have hother : ¬ isEntry stamp id key rowIndex e = true := by
        intro hentry
        obtain ⟨hkey', hrow', -⟩ := isEntry_iff.mp hentry
        exact hp (Prod.ext (hkey.symm.trans hkey') (hrow.symm.trans hrow'))
      rw [if_neg hother] at hcount
      rw [if_neg (by simpa using hp)] at hle
      omega

/-- A covered loop of changes changes every entry with the stamp. -/
theorem restamp_of_covers (hstamp : ∀ e, stamp (f e).2 ≠ id) (h : Covers stamp id pending storage) :
    restamp stamp id f pending storage =
      storage.map fun e => if stamp e.2 = id then f e else e := by
  induction pending generalizing storage with
  | nil =>
    have hsame : storage.map (fun e => if stamp e.2 = id then f e else e) = storage := by
      refine (List.map_congr_left fun e he => ?_).trans (List.map_id _)
      rw [if_neg (h.stamp_ne e he)]
      rfl
    exact hsame.symm
  | cons p pending ih =>
    have htail : Covers stamp id pending
        (modifyFirst (isEntry stamp id p.1 p.2) f storage) := by
      refine h.tail modifyFirst_of_find?_eq_none fun e hfind key rowIndex => ?_
      obtain ⟨l₁, l₂, rfl, hmod, -, -⟩ := modifyFirst_split (f := f) hfind
      have hgone : isEntry stamp id key rowIndex (f e) = false :=
        Bool.eq_false_iff.mpr fun hentry => hstamp e (isEntry_iff.mp hentry).2.2
      rw [hmod, List.countP_append, List.countP_append, List.countP_cons, List.countP_cons, hgone]
      simp only [Bool.false_eq_true, if_false]
      omega
    show restamp stamp id f pending (modifyFirst (isEntry stamp id p.1 p.2) f storage) = _
    rw [ih htail]
    refine map_modifyFirst (fun e he => ?_) storage
    rw [if_neg (hstamp e), if_pos (isEntry_iff.mp he).2.2]

/-- A covered loop of removals removes every entry with the stamp. -/
theorem foldl_eraseP_of_covers (h : Covers stamp id pending storage) :
    pending.foldl (fun storage p => storage.eraseP (isEntry stamp id p.1 p.2)) storage =
      storage.filter fun e => stamp e.2 ≠ id := by
  induction pending generalizing storage with
  | nil =>
    refine (List.filter_eq_self.mpr fun e he => ?_).symm
    exact decide_eq_true (h.stamp_ne e he)
  | cons p pending ih =>
    rw [List.foldl_cons]
    cases hfind : storage.find? (isEntry stamp id p.1 p.2) with
    | none =>
      have hsame : storage.eraseP (isEntry stamp id p.1 p.2) = storage :=
        List.eraseP_of_forall_not (List.find?_eq_none.mp hfind)
      rw [hsame]
      exact ih (h.tail (fun _ => rfl) fun e hsome => by rw [hfind] at hsome; cases hsome)
    | some e =>
      obtain ⟨l₁, l₂, rfl, -, herase, he⟩ := modifyFirst_split (f := fun e => e) hfind
      rw [herase]
      have htail : Covers stamp id pending (l₁ ++ l₂) := by
        refine h.tail (fun hnone => by rw [hfind] at hnone; cases hnone) ?_
        intro e' hfind' key rowIndex
        obtain rfl := Option.some.inj (hfind.symm.trans hfind')
        rw [List.countP_append, List.countP_append, List.countP_cons]
        omega
      rw [ih htail, List.filter_append, List.filter_append, List.filter_cons_of_neg]
      exact fun hne => of_decide_eq_true hne (isEntry_iff.mp he).2.2

end Covers

/-! ## Operations of transactions -/

/-- The id of a transaction: one that `transaction_manager_t` gives out, or 0 for work outside
    a transaction. -/
abbrev TxnId := { n : Nat // (n = 0 ∨ transactionIdStart ≤ n) ∧ n ≠ notDeletedId }

/-- A commit id. -/
abbrev CommitId := { n : Nat // 0 < n ∧ n < transactionIdStart }

theorem CommitId.ne_txn (c : CommitId) (t : TxnId) : c.val ≠ t.val := by
  have hc := c.property
  have ht := t.property
  omega

theorem CommitId.ne_notDeletedId (c : CommitId) : c.val ≠ notDeletedId := by
  have hc := c.property
  have hlt : transactionIdStart < notDeletedId := by decide
  omega

variable (K) in
/-- A call on the index. -/
inductive IndexOp
  | insert (key : K) (rowIndex : Int) (txn : TxnId)
  | markDelete (key : K) (rowIndex : Int) (txn : TxnId)
  | commitInsert (txn : TxnId) (commit : CommitId)
  | commitDelete (txn : TxnId) (commit : CommitId)
  | revertInsert (txn : TxnId)
  | revertDelete (txn : TxnId)

/-- The transaction that makes the call. -/
def IndexOp.txn : IndexOp K → TxnId
  | .insert _ _ txn | .markDelete _ _ txn | .commitInsert txn _ | .commitDelete txn _
  | .revertInsert txn | .revertDelete txn => txn

/-- The call is made. -/
def IndexOp.apply (x : SingleFieldIndex K) : IndexOp K → SingleFieldIndex K
  | .insert key rowIndex txn => x.insertTxn key rowIndex txn
  | .markDelete key rowIndex txn => x.markDelete key rowIndex txn
  | .commitInsert txn commit => x.commitInsert txn commit
  | .commitDelete txn commit => x.commitDelete txn commit
  | .revertInsert txn => x.revertInsert txn
  | .revertDelete txn => x.revertDelete txn

/-- Both pending lists of every transaction reach its entries. -/
structure Covered (x : SingleFieldIndex K) : Prop where
  inserts : ∀ t : TxnId, Covers IndexValue.insertId t (x.pendingInserts t) x.storage
  deletes : ∀ t : TxnId, Covers IndexValue.deleteId t (x.pendingDeletes t) x.storage

namespace Covered

variable {x : SingleFieldIndex K}

/-! ### What the loops do to a covered index -/

theorem storage_commitInsert (h : Covered x) (t : TxnId) (c : CommitId) :
    (x.commitInsert t c).storage = x.storage.map (stampInsert t c) :=
  restamp_of_covers (fun _ => c.ne_txn t) (h.inserts t)

theorem storage_commitDelete (h : Covered x) (t : TxnId) (c : CommitId) :
    (x.commitDelete t c).storage = x.storage.map (stampDelete t c) :=
  restamp_of_covers (fun _ => c.ne_txn t) (h.deletes t)

theorem storage_revertInsert (h : Covered x) (t : TxnId) :
    (x.revertInsert t).storage = x.storage.filter fun e => e.2.insertId ≠ t.val :=
  foldl_eraseP_of_covers (h.inserts t)

theorem storage_revertDelete (h : Covered x) (t : TxnId) :
    (x.revertDelete t).storage = x.storage.map (stampDelete t notDeletedId) :=
  restamp_of_covers (fun _ => t.property.2.symm) (h.deletes t)

end Covered

theorem storage_markDelete (x : SingleFieldIndex K) (key : K) (rowIndex : Int) (t : Nat) :
    (x.markDelete key rowIndex t).storage =
      modifyFirst (isEntry IndexValue.deleteId notDeletedId key rowIndex) (setDelete t)
        x.storage := by
  unfold markDelete
  split
  · rfl
  · next h =>
    refine (modifyFirst_of_find?_eq_none (List.find?_eq_none.mpr fun e he hentry => h ?_)).symm
    exact List.any_eq_true.mpr ⟨e, he, hentry⟩

/-! ### Every call keeps the index covered -/

/-- A change of every entry that gives no entry a stamp keeps what reaches the stamp. -/
theorem Covers.map {stamp : IndexValue → Nat} {id : Nat} {pending : List (K × Int)}
    {storage : List (K × IndexValue)} {g : K × IndexValue → K × IndexValue}
    (h : Covers stamp id pending storage) (hkey : ∀ e, (g e).1 = e.1)
    (hrow : ∀ e, (g e).2.rowIndex = e.2.rowIndex)
    (hstamp : ∀ e, stamp (g e).2 = id → stamp e.2 = id) :
    Covers stamp id pending (storage.map g) := by
  refine h.mono fun key rowIndex => ?_
  rw [List.countP_map]
  refine List.countP_mono_left fun e _ hentry => ?_
  obtain ⟨hk, hr, hs⟩ := isEntry_iff.mp hentry
  exact isEntry_iff.mpr ⟨(hkey e).symm.trans hk, (hrow e).symm.trans hr, hstamp e hs⟩

theorem Covers.filter {stamp : IndexValue → Nat} {id : Nat} {pending : List (K × Int)}
    {storage : List (K × IndexValue)} (h : Covers stamp id pending storage)
    (q : K × IndexValue → Bool) : Covers stamp id pending (storage.filter q) :=
  h.mono fun _ _ => List.filter_sublist.countP_le

namespace Covered

variable {x : SingleFieldIndex K}

theorem insertTxn (h : Covered x) (key : K) (rowIndex : Int) (t : TxnId) :
    Covered (x.insertTxn key rowIndex t) := by
  refine ⟨fun t' key' rowIndex' => ?_, fun t' key' rowIndex' => ?_⟩
  · show List.countP _ (x.storage ++ [(key, ⟨rowIndex, t, notDeletedId⟩)]) ≤
      (Function.update x.pendingInserts t (x.pendingInserts t ++ [(key, rowIndex)]) t').count _
    rw [List.countP_append, List.countP_singleton]
    have hle := h.inserts t' key' rowIndex'
    by_cases ht : t'.val = t.val
    · rw [ht, Function.update_self, List.count_append, List.count_singleton]
      rw [ht] at hle
      -- the new entry counts exactly where the new pending element does
      have hsame : isEntry IndexValue.insertId t.val key' rowIndex'
          (key, ⟨rowIndex, t, notDeletedId⟩) = ((key, rowIndex) == (key', rowIndex')) := by
        simp [isEntry]
        rfl
      rw [hsame]
      exact Nat.add_le_add_right hle _
    · rw [Function.update_of_ne ht, if_neg]
      · exact hle
      · exact fun hentry => ht (isEntry_iff.mp hentry).2.2.symm
  · show List.countP _ (x.storage ++ [(key, ⟨rowIndex, t, notDeletedId⟩)]) ≤ _
    rw [List.countP_append, List.countP_singleton, if_neg]
    · exact h.deletes t' key' rowIndex'
    · exact fun hentry => t'.property.2 (isEntry_iff.mp hentry).2.2.symm

theorem markDelete (h : Covered x) (key : K) (rowIndex : Int) (t : TxnId) :
    Covered (x.markDelete key rowIndex t) := by
  cases hfind : x.storage.find? (isEntry IndexValue.deleteId notDeletedId key rowIndex) with
  | none =>
    have hsame : x.markDelete key rowIndex t = x := by
      refine if_neg fun hany => ?_
      obtain ⟨e, he, hentry⟩ := List.any_eq_true.mp hany
      exact List.find?_eq_none.mp hfind e he hentry
    rw [hsame]
    exact h
  | some e =>
    obtain ⟨l₁, l₂, hsplit, hmod, -, he⟩ := modifyFirst_split (f := setDelete t.val) hfind
    obtain ⟨hkey, hrow, -⟩ := isEntry_iff.mp he
    have hfound : x.storage.any (isEntry IndexValue.deleteId notDeletedId key rowIndex) = true :=
      List.any_eq_true.mpr ⟨e, List.mem_of_find?_eq_some hfind, he⟩
    refine ⟨fun t' key' rowIndex' => ?_, fun t' key' rowIndex' => ?_⟩
    · have hle := h.inserts t' key' rowIndex'
      rw [storage_markDelete, hmod]
      rw [hsplit] at hle
      have hpending : (x.markDelete key rowIndex t).pendingInserts = x.pendingInserts := by
        rw [SingleFieldIndex.markDelete, if_pos hfound]
      rw [hpending]
      rw [List.countP_append, List.countP_cons] at hle ⊢
      exact hle
    · have hle := h.deletes t' key' rowIndex'
      rw [storage_markDelete, hmod]
      have hpending : (x.markDelete key rowIndex t).pendingDeletes =
          Function.update x.pendingDeletes t (x.pendingDeletes t ++ [(key, rowIndex)]) := by
        rw [SingleFieldIndex.markDelete, if_pos hfound]
      rw [hpending]
      rw [hsplit] at hle
      rw [List.countP_append, List.countP_cons] at hle ⊢
      by_cases ht : t'.val = t.val
      · rw [ht, Function.update_self, List.count_append, List.count_singleton]
        rw [ht] at hle
        have hsame : isEntry IndexValue.deleteId t.val key' rowIndex' (setDelete t.val e) =
            ((key, rowIndex) == (key', rowIndex')) := by
          rw [← hkey, ← hrow]
          simp [isEntry, setDelete]
          rfl
        rw [hsame]
        omega
      · rw [Function.update_of_ne ht, if_neg]
        · omega
        · exact fun hentry => ht (isEntry_iff.mp hentry).2.2.symm

theorem commitInsert (h : Covered x) (t : TxnId) (c : CommitId) :
    Covered (x.commitInsert t c) := by
  refine ⟨fun t' => ?_, fun t' => ?_⟩
  · rw [h.storage_commitInsert]
    by_cases ht : t'.val = t.val
    · -- nothing carries the stamp of the transaction any more
      refine covers_of_stamp_ne fun e he => ?_
      obtain ⟨e', -, rfl⟩ := List.mem_map.mp he
      rw [stampInsert_insertId, ht]
      split
      · exact c.ne_txn t
      · assumption
    · show Covers _ _ (Function.update x.pendingInserts t [] t') _
      rw [Function.update_of_ne ht]
      refine (h.inserts t').map (stampInsert_key _ _) (stampInsert_rowIndex _ _) fun e hstamp => ?_
      rw [stampInsert_insertId] at hstamp
      split at hstamp
      · exact absurd hstamp (c.ne_txn t')
      · exact hstamp
  · rw [h.storage_commitInsert]
    refine (h.deletes t').map (stampInsert_key _ _) (stampInsert_rowIndex _ _) fun e hstamp => ?_
    rwa [stampInsert_deleteId] at hstamp

/-- A delete stamp that is replaced by one that is no transaction's. -/
theorem restampDelete (h : Covered x) (t : TxnId) {new : Nat} (hnew : ∀ t' : TxnId, new ≠ t'.val)
    {y : SingleFieldIndex K} (hstorage : y.storage = x.storage.map (stampDelete t new))
    (hinserts : y.pendingInserts = x.pendingInserts)
    (hdeletes : y.pendingDeletes = Function.update x.pendingDeletes t []) : Covered y := by
  refine ⟨fun t' => ?_, fun t' => ?_⟩
  · rw [hstorage, hinserts]
    refine (h.inserts t').map (stampDelete_key _ _) (stampDelete_rowIndex _ _) fun e hstamp => ?_
    rwa [stampDelete_insertId] at hstamp
  · rw [hstorage, hdeletes]
    by_cases ht : t'.val = t.val
    · refine covers_of_stamp_ne fun e he => ?_
      obtain ⟨e', -, rfl⟩ := List.mem_map.mp he
      rw [stampDelete_deleteId, ht]
      split
      · exact hnew t
      · assumption
    · rw [Function.update_of_ne ht]
      refine (h.deletes t').map (stampDelete_key _ _) (stampDelete_rowIndex _ _) fun e hstamp => ?_
      rw [stampDelete_deleteId] at hstamp
      split at hstamp
      · exact absurd hstamp (hnew t')
      · exact hstamp

theorem revertInsert (h : Covered x) (t : TxnId) : Covered (x.revertInsert t) := by
  refine ⟨fun t' => ?_, fun t' => ?_⟩
  · rw [h.storage_revertInsert]
    by_cases ht : t'.val = t.val
    · refine covers_of_stamp_ne fun e he => ?_
      rw [ht]
      exact of_decide_eq_true (List.mem_filter.mp he).2
    · show Covers _ _ (Function.update x.pendingInserts t [] t') _
      rw [Function.update_of_ne ht]
      exact (h.inserts t').filter _
  · rw [h.storage_revertInsert]
    exact (h.deletes t').filter _

theorem revertDelete (h : Covered x) (t : TxnId) : Covered (x.revertDelete t) :=
  h.restampDelete t (fun t' => t'.property.2.symm) (h.storage_revertDelete t) rfl rfl

/-- **Steps.**  Every call keeps the index covered. -/
theorem apply (h : Covered x) (op : IndexOp K) : Covered (op.apply x) := by
  cases op with
  | insert key rowIndex txn => exact h.insertTxn key rowIndex txn
  | markDelete key rowIndex txn => exact h.markDelete key rowIndex txn
  | commitInsert txn commit => exact h.commitInsert txn commit
  | commitDelete txn commit =>
    exact h.restampDelete txn commit.ne_txn (h.storage_commitDelete txn commit) rfl rfl
  | revertInsert txn => exact h.revertInsert txn
  | revertDelete txn => exact h.revertDelete txn

end Covered

end SingleFieldIndex

/-! ## The type of the keys -/

open SingleFieldIndex (IndexOp TxnId Covered covers_of_stamp_ne)

/-- The values that can be keys, of types that `operator<` orders: their types, and `cast_as`,
    without a result where it throws or does not know the types. -/
structure KeyTypes (V τ : Type) where
  typeOf : V → τ
  castAs : V → τ → Option V

/-- `single_field_index_t` with `stored_type_`, which is NA until a value is inserted.  A key that
    is `none` is NULL. -/
structure TypedIndex (V τ : Type) where
  storedType : Option τ := none
  index : SingleFieldIndex (Option V) := {}

namespace TypedIndex

variable {V τ : Type} [DecidableEq V] (k : KeyTypes V τ) (x : TypedIndex V τ)

/-- The key a lookup looks for, `key.cast_as(stored_type_)`.  Every cast to NA gives NULL; the cast
    of NULL to another type throws, or gives a key that `operator<` does not compare. -/
def castKey (key : Option V) : Option (Option V) :=
  match x.storedType, key with
  | none, _ => some none
  | some type, some v => (k.castAs v type).map some
  | some _, none => none

/-- The type of the index and the key that an insert stores.  The first value fixes the type; among
    NULL keys there is no place for it that `operator<` defines. -/
def storedKey (key : Option V) : Option (Option τ × Option V) :=
  match x.storedType, key with
  | none, some v => if x.index.storage.isEmpty then some (some (k.typeOf v), some v) else none
  | _, _ => (x.castKey k key).map fun key => (x.storedType, key)

/-- The call on the entries, with the key as it is stored. -/
def resolve : IndexOp (Option V) → Option (Option τ × IndexOp (Option V))
  | .insert key rowIndex txn =>
      (x.storedKey k key).map fun stored => (stored.1, .insert stored.2 rowIndex txn)
  | .markDelete key rowIndex txn =>
      (x.castKey k key).map fun key => (x.storedType, .markDelete key rowIndex txn)
  | op => some (x.storedType, op)

/-- The call is made. -/
def apply (op : IndexOp (Option V)) : Option (TypedIndex V τ) :=
  (x.resolve k op).map fun call => ⟨call.1, call.2.apply x.index⟩

/-- The index after a sequence of calls. -/
def run (ops : List (IndexOp (Option V))) : Option (TypedIndex V τ) :=
  ops.foldlM (fun x op => x.apply k op) {}

theorem run_append (ops : List (IndexOp (Option V))) (op : IndexOp (Option V)) :
    run k (ops ++ [op]) = (run k ops).bind fun x => x.apply k op := by
  rw [run, List.foldlM_append]
  simp [run, List.foldlM_cons]

/-- **Runs.**  The index is covered after every sequence of calls. -/
theorem covered_run {ops : List (IndexOp (Option V))} {x : TypedIndex V τ}
    (h : run k ops = some x) : Covered x.index := by
  induction ops using List.reverseRecOn generalizing x with
  | nil =>
    obtain rfl := Option.some.inj h
    exact ⟨fun _ => covers_of_stamp_ne fun _ he => (List.not_mem_nil he).elim,
      fun _ => covers_of_stamp_ne fun _ he => (List.not_mem_nil he).elim⟩
  | append_singleton ops op ih =>
    rw [run_append] at h
    obtain ⟨y, hy, happly⟩ := Option.bind_eq_some_iff.mp h
    obtain ⟨call, -, rfl⟩ := Option.map_eq_some_iff.mp happly
    exact (ih hy).apply call.2

end TypedIndex

end Index
end Otterbrix
