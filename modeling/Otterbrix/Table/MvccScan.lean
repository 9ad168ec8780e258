/-
  Otterbrix.Table.MvccScan

  Runs of a table under concurrent transactions, and what a snapshot reads from
  the state a run ends in.

  A run is a sequence of calls, in whatever order the transactions make them.
  Next to the collection it keeps the list of rows with the stamps the calls
  are meant to leave.  `scan_eq_visibleRows_iff` compares the two: a scan is
  right exactly as long as the stamps it does not look at do not matter.
-/
import Otterbrix.Table.Scan
import Otterbrix.Table.Snapshots

namespace Otterbrix
namespace Table

variable {α : Type}

/-! ## Runs -/

/-- The id of a transaction: neither the `0` of calls outside a transaction nor
    the marker of a row nobody deleted. -/
def TransactionId : Type := { id : Nat // id ≠ 0 ∧ id ≠ notDeletedId }

/-- The calls transactions make on a table. -/
inductive TableOp (α : Type) where
  | append (data : List α) (transactionId : Nat)
  | commitAppend (commitId rowStart count : Nat)
  | deleteRows (ids : List Nat) (txn : TransactionId)
  | commitAllDeletes (txn : TransactionId) (commitId : Nat)
  | revertAllDeletes (txn : TransactionId)

namespace TableOp

/-- The call on the collection. -/
def apply (t : Collection α) : TableOp α → Option (Collection α)
  | .append data transactionId => t.append data transactionId
  | .commitAppend commitId rowStart count => t.commitAppend commitId rowStart count
  | .deleteRows ids txn => (t.deleteRows ids txn.1).map Prod.fst
  | .commitAllDeletes txn commitId => some (t.commitAllDeletes txn.1 commitId)
  | .revertAllDeletes txn => some (t.revertAllDeletes txn.1)

/-- What the call is for. -/
def spec (rows : List (Row α)) : TableOp α → List (Row α)
  | .append data transactionId => rows ++ data.map (Row.pending transactionId)
  | .commitAppend commitId rowStart count => commitRows commitId rowStart count rows
  | .deleteRows ids txn => deleteRowsAt ids txn.1 rows
  | .commitAllDeletes txn commitId => rows.map (Row.restampDelete txn.1 commitId)
  | .revertAllDeletes txn => rows.map (Row.restampDelete txn.1 notDeletedId)

/-- The table after a run from empty. -/
def run (ops : List (TableOp α)) : Option (Collection α) := ops.foldlM apply {}

theorem run_singleton (op : TableOp α) : run [op] = op.apply {} := by
  simp only [run, List.foldlM_cons, List.foldlM_nil, Option.bind_eq_bind, Option.pure_def,
    Option.bind_fun_some]

/-- The rows, with their stamps, after a run from empty. -/
def rowsAfter (ops : List (TableOp α)) : List (Row α) := ops.foldl spec []

end TableOp

/-- The rows of a snapshot, in row order with their row ids. -/
def visibleRows (txn : TransactionData) (rows : List (Row α)) : List (Nat × α) :=
  (rows.zipIdx.filter fun p => p.1.visible txn).map fun p => (p.2, p.1.value)

/-! ## The refinement -/

/-- **Step.** Every call does to the rows what it is for. -/
theorem TableOp.tidy_apply {t t' : Collection α} {rows : List (Row α)} {op : TableOp α}
    (h : t.Tidy rows) (hop : op.apply t = some t') : t'.Tidy (op.spec rows) := by
  cases op with
  | append data transactionId =>
    obtain ⟨t₁, ht₁, htidy⟩ := h.append data transactionId
    obtain rfl : t₁ = t' := Option.some.inj (ht₁.symm.trans hop)
    exact htidy
  | commitAppend commitId rowStart count =>
    exact h.congr (h.represents.commitAppend hop) (Collection.body_commitAppend hop)
  | deleteRows ids txn =>
    simp only [TableOp.apply, Option.map_eq_some_iff] at hop
    obtain ⟨⟨t₁, deleted⟩, hdelete, rfl⟩ := hop
    exact h.congr (h.represents.deleteRows_transaction txn.2.1 hdelete)
      (Collection.body_deleteRows hdelete)
  | commitAllDeletes txn commitId =>
    cases hop
    exact h.congr (h.represents.commitAllDeletes txn.2.2 commitId) (by simp)
  | revertAllDeletes txn =>
    cases hop
    exact h.congr (h.represents.revertAllDeletes txn.2.2) (by simp)

/-- **Run.** A table reached by any sequence of calls holds the rows those calls
    are for. -/
theorem TableOp.tidy_run {ops : List (TableOp α)} {t : Collection α}
    (hrun : TableOp.run ops = some t) : t.Tidy (TableOp.rowsAfter ops) := by
  induction ops using List.reverseRecOn generalizing t with
  | nil =>
    cases hrun
    exact Collection.tidy_empty
  | append_singleton ops op ih =>
    unfold TableOp.run at hrun
    rw [List.foldlM_append, Option.bind_eq_bind, Option.bind_eq_some_iff] at hrun
    obtain ⟨t₁, ht₁, hop⟩ := hrun
    simp only [List.foldlM_cons, List.foldlM_nil, Option.bind_eq_bind, Option.pure_def,
      Option.bind_fun_some] at hop
    unfold TableOp.rowsAfter
    rw [List.foldl_append]
    exact TableOp.tidy_apply (ih ht₁) hop

/-! ## What a snapshot reads -/

/-- Filters of the numbered rows give the same output only if they agree. -/
theorem map_filter_zipIdx_eq_iff (rows : List (Row α)) (p q : Row α × Nat → Bool) :
    ((rows.zipIdx.filter p).map fun x => (x.2, some x.1.value)) =
        ((rows.zipIdx.filter q).map fun x => (x.2, some x.1.value)) ↔
      ∀ r row, rows[r]? = some row → p (row, r) = q (row, r) := by
  constructor
  · intro heq r row hrow
    have hmem : ∀ s : Row α × Nat → Bool,
        (r, some row.value) ∈ ((rows.zipIdx.filter s).map fun x => (x.2, some x.1.value)) ↔
          s (row, r) = true := by
      intro s
      simp only [List.mem_map, List.mem_filter, Prod.mk.injEq, Prod.exists,
        List.mk_mem_zipIdx_iff_getElem?]
      constructor
      · rintro ⟨other, k, ⟨hother, hs⟩, rfl, -⟩
        rw [hrow, Option.some.injEq] at hother
        exact hother ▸ hs
      · exact fun hs => ⟨row, r, ⟨hrow, hs⟩, rfl, rfl⟩
    rw [Bool.eq_iff_iff, ← hmem p, ← hmem q, heq]
  · intro hagree
    congr 1
    refine List.filter_congr fun x hx => ?_
    exact hagree x.2 x.1 (List.mk_mem_zipIdx_iff_getElem?.mp hx)

/-- **Scan against specification.** In every state reached by calls of any
    transactions, and for every snapshot, the scan returns exactly the visible
    rows if and only if

    * every row past the first row group that is not deleted for the snapshot
      has a visible insert, and
    * in the first row group, where the version info claims a single inserter,
      that inserter is visible exactly for the rows (not deleted for the
      snapshot) whose own insert is. -/
theorem scan_eq_visibleRows_iff (ops : List (TableOp α)) (t : Collection α)
    (hrun : TableOp.run ops = some t) (txn : TransactionData) (htxn : txn.Proper) :
    t.scan txn =
        (visibleRows txn (TableOp.rowsAfter ops)).map (fun p => (p.1, some p.2)) ↔
      ∀ r row, (TableOp.rowsAfter ops)[r]? = some row →
        useDeletedVersion txn row.deleteId = true →
          (vectorCapacity ≤ r → useInsertedVersion txn row.insertId = true) ∧
          (r < vectorCapacity → ∀ id, t.sharedInsertId = some id →
            useInsertedVersion txn id = useInsertedVersion txn row.insertId) := by
  rw [(TableOp.tidy_run hrun).represents.scan_eq htxn]
  unfold visibleRows
  rw [List.map_map]
  refine (map_filter_zipIdx_eq_iff _ _ _).trans
    (forall_congr' fun r => forall_congr' fun row => imp_congr_right fun _ => ?_)
  -- one row: compare the stamp the scan goes by with the row's own
  unfold Collection.shows Row.visible
  cases useDeletedVersion txn row.deleteId with
  | false => simp
  | true =>
    simp only [Bool.and_true, true_implies]
    by_cases hfirst : r < vectorCapacity
    · have hnot : ¬vectorCapacity ≤ r := Nat.not_le.mpr hfirst
      cases t.sharedInsertId <;> simp only [hfirst, hnot, if_true, Option.getD_none,
        Option.getD_some, false_implies, true_and, true_implies, reduceCtorEq, Option.some.injEq,
        forall_eq', implies_true]
    · have hle : vectorCapacity ≤ r := Nat.not_lt.mp hfirst
      simp only [hfirst, hle, if_false, true_implies, false_implies, and_true]
      exact eq_comm

/-- Some rows, committed at 2; row 3 and the last one are deleted, committed at 3 and 4. -/
def rowsAndDeletes (count : Nat) : List (TableOp Nat) :=
  let first : TransactionId := ⟨transactionIdStart + 1, by decide⟩
  let second : TransactionId := ⟨transactionIdStart + 2, by decide⟩
  [.append (List.replicate count 7) transactionIdStart, .commitAppend 2 0 count,
    .deleteRows [3] first, .commitAllDeletes first 3, .deleteRows [count - 1] second,
    .commitAllDeletes second 4]

theorem insertId_rowsAndDeletes {count r : Nat} {row : Row Nat}
    (hrow : (TableOp.rowsAfter (rowsAndDeletes count))[r]? = some row) : row.insertId = 2 := by
  simp only [TableOp.rowsAfter, rowsAndDeletes, List.foldl_cons, List.foldl_nil, TableOp.spec,
    List.nil_append, List.map_replicate, commitRows, deleteRowsAt, List.getElem?_map,
    List.getElem?_mapIdx, List.getElem?_replicate, Option.map_eq_some_iff,
    Option.ite_none_right_eq_some, Option.some.injEq] at hrow
  obtain ⟨_, ⟨_, ⟨_, ⟨_, ⟨_, ⟨hlt, rfl⟩, rfl⟩, rfl⟩, rfl⟩, rfl⟩, rfl⟩ := hrow
  have hcommitted : 0 ≤ r ∧ r < 0 + count := ⟨Nat.zero_le r, by omega⟩
  rw [if_pos hcommitted]
  simp only [Row.restampDelete, Row.delete, apply_ite Row.insertId, ite_self]

/-- One row more than a row group holds: a snapshot at 3 reads the rows of both row groups; row 3 is
    deleted for it, row 1024 is not. -/
theorem scan_eq_visibleRows_committed :
    let txn : TransactionData := { transactionId := transactionIdStart + 3, snapshotHorizon := 3 }
    ∃ t, TableOp.run (rowsAndDeletes 1025) = some t ∧
      t.scan txn = (visibleRows txn (TableOp.rowsAfter (rowsAndDeletes 1025))).map
        (fun p => (p.1, some p.2)) := by
  intro txn
  have hshared : (TableOp.run (rowsAndDeletes 1025)).map Collection.sharedInsertId =
      some (some 2) := by
    decide +kernel
  obtain ⟨t, hrun, hid⟩ := Option.map_eq_some_iff.mp hshared
  refine ⟨t, hrun, (scan_eq_visibleRows_iff _ t hrun txn ⟨by decide, by decide⟩).mpr ?_⟩
  intro r row hrow _
  rw [insertId_rowsAndDeletes hrow]
  refine ⟨fun _ => by decide, fun _ id hsome => ?_⟩
  rw [Option.some.inj (hsome.symm.trans hid)]

/-- A transaction appends one row more than a row group holds and has not
    committed; the see-all view is shown the last of them. -/
theorem scan_shows_pending_row :
    ∃ t, TableOp.run [.append (List.replicate 1025 0) transactionIdStart] = some t ∧
      visibleRows {} (TableOp.rowsAfter
        [.append (List.replicate 1025 0) transactionIdStart]) = [] ∧
      (1024, some 0) ∈ t.scan {} := by
  obtain ⟨t, ht, htidy⟩ := Collection.tidy_empty.append (List.replicate 1025 0)
    transactionIdStart
  rw [List.nil_append, List.map_replicate] at htidy
  refine ⟨t, ?_, ?_, ?_⟩
  · rw [TableOp.run_singleton]
    exact ht
  · unfold visibleRows TableOp.rowsAfter
    rw [List.map_eq_nil_iff, List.filter_eq_nil_iff]
    rintro ⟨row, r⟩ hmem
    have hrow := List.mk_mem_zipIdx_iff_getElem?.mp hmem
    have hpending : row = Row.pending transactionIdStart 0 := by
      have := List.mem_of_getElem? hrow
      simp only [List.foldl_cons, List.foldl_nil, TableOp.spec, List.nil_append,
        List.map_replicate] at this
      exact List.eq_of_mem_replicate this
    rw [hpending]
    show ¬(Row.pending transactionIdStart 0).visible {} = true
    decide
  · rw [htidy.represents.scan_eq proper_seeAll, List.mem_map]
    refine ⟨(Row.pending transactionIdStart 0, 1024), List.mem_filter.mpr ⟨?_, ?_⟩, rfl⟩
    · rw [List.mk_mem_zipIdx_iff_getElem?, List.getElem?_replicate, if_pos (by decide)]
    · have hlater : ¬1024 < vectorCapacity := by decide
      simp only [Collection.shows, hlater, if_false, Bool.true_and]
      decide

end Table
end Otterbrix
