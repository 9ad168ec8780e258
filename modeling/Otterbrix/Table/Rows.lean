/-
  Otterbrix.Table.Rows

  What a table is for: a list of rows, numbered by position, each with the
  stamp of its insert and of its delete.  Appending, committing and deleting
  are plain list operations here.

  `RowVersionManager.Files` says how the version manager of row group `j` files
  the stamps of its rows: insert stamps under vector 0, delete stamps under
  vector `j`.  Every operation of the manager keeps that up.
-/
import Otterbrix.Table.Collection

namespace Otterbrix
namespace Table

variable {α : Type}

/-! ## Rows -/

/-- A row with its two stamps. -/
structure Row (α : Type) where
  value : α
  insertId : Nat
  deleteId : Nat := notDeletedId
  deriving DecidableEq

namespace Row

/-- The row without its delete stamp. -/
def undelete (row : Row α) : Row α := { row with deleteId := notDeletedId }

/-- A row as it is appended under a transaction id. -/
def pending (transactionId : Nat) (value : α) : Row α := { value, insertId := transactionId }

/-- The row belongs to the snapshot: its insert is visible, its delete is not. -/
def visible (txn : TransactionData) (row : Row α) : Bool :=
  useInsertedVersion txn row.insertId && useDeletedVersion txn row.deleteId

/-- The row with its delete stamped, unless it carries a delete stamp. -/
def delete (stamp : Nat) (row : Row α) : Row α :=
  if row.deleteId = notDeletedId then { row with deleteId := stamp } else row

/-- The row with the delete stamp `txnId` exchanged. -/
def restampDelete (txnId stamp : Nat) (row : Row α) : Row α :=
  if row.deleteId = txnId then { row with deleteId := stamp } else row

end Row

/-- The rows `[rowStart, rowStart + count)` stamped as inserted by `commitId`. -/
def commitRows (commitId rowStart count : Nat) (rows : List (Row α)) : List (Row α) :=
  rows.mapIdx fun r row =>
    if rowStart ≤ r ∧ r < rowStart + count then { row with insertId := commitId } else row

/-- The rows named by `ids` stamped as deleted. -/
def deleteRowsAt (ids : List Nat) (stamp : Nat) (rows : List (Row α)) : List (Row α) :=
  rows.mapIdx fun r row => if r ∈ ids then row.delete stamp else row

/-- What a revert leaves of the rows: those from `rowStart` on are gone, and a row
    group it cuts loses its delete stamps, unless it is the first one. -/
def revertRows (rowStart : Nat) (rows : List (Row α)) : List (Row α) :=
  (rows.take rowStart).mapIdx fun r row =>
    if vectorCapacity ≤ r ∧ r / vectorCapacity = rowStart / vectorCapacity then row.undelete
    else row

@[simp] theorem length_commitRows (commitId rowStart count : Nat) (rows : List (Row α)) :
    (commitRows commitId rowStart count rows).length = rows.length := List.length_mapIdx

@[simp] theorem length_revertRows (rowStart : Nat) (rows : List (Row α)) :
    (revertRows rowStart rows).length = min rowStart rows.length := by
  unfold revertRows
  rw [List.length_mapIdx, List.length_take]

/-- Without delete stamps in the row group that is cut, a revert only shortens. -/
theorem revertRows_eq_take {rowStart : Nat} {rows : List (Row α)}
    (h : ∀ r row, vectorCapacity ≤ r → r / vectorCapacity = rowStart / vectorCapacity →
      r < rowStart → rows[r]? = some row → row.deleteId = notDeletedId) :
    revertRows rowStart rows = rows.take rowStart := by
  refine List.ext_getElem? fun r => ?_
  unfold revertRows
  rw [List.getElem?_mapIdx]
  cases hrow : (rows.take rowStart)[r]? with
  | none => rfl
  | some row =>
    have hr : r < rowStart := by
      have := (List.getElem?_eq_some_iff.mp hrow).1
      rw [List.length_take] at this
      omega
    rw [List.getElem?_take_of_lt hr] at hrow
    rw [Option.map_some]
    split
    · next hcut =>
      have hdelete := h r row hcut.1 hcut.2 hr hrow
      unfold Row.undelete
      rw [← hdelete]
    · rfl

/-- A row deleted once carries its stamp; a second delete under the same id
    changes nothing. -/
theorem deleteRowsAt_append (xs ys : List Nat) (stamp : Nat) (rows : List (Row α)) :
    deleteRowsAt ys stamp (deleteRowsAt xs stamp rows) = deleteRowsAt (xs ++ ys) stamp rows := by
  unfold deleteRowsAt
  rw [List.mapIdx_mapIdx]
  congr 1
  funext r row
  simp only [Function.comp_apply, List.mem_append, Row.delete]
  split_ifs <;> simp_all

theorem foldl_deleteRowsAt {runs : List (List Nat × Nat)} {stamp : Nat}
    (h : ∀ run ∈ runs, run.2 = stamp) (xs : List Nat) (rows : List (Row α)) :
    runs.foldl (fun rows run => deleteRowsAt run.1 run.2 rows) (deleteRowsAt xs stamp rows) =
      deleteRowsAt (xs ++ runs.flatMap Prod.fst) stamp rows := by
  induction runs generalizing xs with
  | nil => simp
  | cons run runs ih =>
    rw [List.foldl_cons, h run List.mem_cons_self, deleteRowsAt_append,
      ih fun other hother => h other (List.mem_cons_of_mem _ hother), List.flatMap_cons,
      List.append_assoc]

@[simp] theorem deleteRowsAt_nil (stamp : Nat) (rows : List (Row α)) :
    deleteRowsAt [] stamp rows = rows := by
  unfold deleteRowsAt
  exact List.ext_getElem? fun i => by simp

/-! ## How the version manager files the stamps -/

/-- The delete stamp a slot holds for position `i`; an empty slot holds none. -/
def deletedIn (slot : Option ChunkInfo) (i : Nat) : Nat :=
  match slot with
  | none => notDeletedId
  | some info => info.deletedAt i

namespace RowVersionManager

/-- The manager `m` of row group `j` holds the stamps of the rows `view`, a
    function of the position in the row group.

    The insert stamps are in slot 0, because `append_version_info` counts
    vectors from the start of the row group; the delete stamps are in slot `j`,
    because `delete_row` counts them from the start of the table.  A constant
    info covers a full vector without deletes. -/
structure Files (m : RowVersionManager) (j : Nat) (view : Nat → Option (Row α)) : Prop where
  inserts : ∀ i row, i < vectorCapacity → view i = some row →
    ∃ info, m.getChunkInfo 0 = some info ∧ info.insertedAt i = row.insertId
  deletes : ∀ i, i < vectorCapacity →
    deletedIn (m.getChunkInfo j) i = ((view i).map Row.deleteId).getD notDeletedId
  foreign : 0 < j → ∀ info i, m.getChunkInfo j = some info → info.consulted i = 0
  constants : ∀ idx a d, m.getChunkInfo idx = some (.constant a d) →
    d = notDeletedId ∧ ∀ i, i < vectorCapacity → (view i).isSome

variable {m m' : RowVersionManager} {j : Nat} {view view' : Nat → Option (Row α)}

theorem Files.congr (h : m.Files j view) (hview : ∀ i, i < vectorCapacity → view' i = view i) :
    m.Files j view' where
  inserts i row hi hrow := h.inserts i row hi (hview i hi ▸ hrow)
  deletes i hi := by rw [hview i hi]; exact h.deletes i hi
  foreign := h.foreign
  constants idx a d hinfo := by
    refine ⟨(h.constants idx a d hinfo).1, fun i hi => ?_⟩
    rw [hview i hi]
    exact (h.constants idx a d hinfo).2 i hi

/-- The manager of a row group nothing was appended to. -/
theorem files_empty : ({} : RowVersionManager).Files j (fun _ => (none : Option (Row α))) where
  inserts i row hi hrow := by simp at hrow
  deletes i hi := by simp [getChunkInfo, deletedIn]
  foreign hj info i hinfo := by simp [getChunkInfo] at hinfo
  constants idx a d hinfo := by simp [getChunkInfo] at hinfo

/-- Slot 0 rewritten: only the insert stamps change, for the first row group
    with the delete stamps of the new info checked against the old ones. -/
theorem Files.setSlotZero {info : ChunkInfo} (h : m.Files j view)
    (hinsert : ∀ i row, i < vectorCapacity → view' i = some row →
      info.insertedAt i = row.insertId)
    (hdelete : ∀ i, i < vectorCapacity → ((view' i).map Row.deleteId).getD notDeletedId =
      ((view i).map Row.deleteId).getD notDeletedId)
    (hslot : j = 0 → ∀ i, i < vectorCapacity →
      info.deletedAt i = deletedIn (m.getChunkInfo 0) i)
    (hconst : ∀ a d, info = .constant a d →
      d = notDeletedId ∧ ∀ i, i < vectorCapacity → (view' i).isSome)
    (hkept : ∀ i, i < vectorCapacity → (view i).isSome → (view' i).isSome) :
    (m.setChunkInfo 0 info).Files j view' where
  inserts i row hi hrow :=
    ⟨info, by rw [getChunkInfo_setChunkInfo, if_pos rfl], hinsert i row hi hrow⟩
  deletes i hi := by
    rw [getChunkInfo_setChunkInfo, hdelete i hi, ← h.deletes i hi]
    split
    · next hj =>
      rw [hj]
      exact hslot hj i hi
    · rfl
  foreign hj other i hother := by
    rw [getChunkInfo_setChunkInfo, if_neg (by omega)] at hother
    exact h.foreign hj other i hother
  constants idx a d hother := by
    rw [getChunkInfo_setChunkInfo] at hother
    split at hother
    · exact hconst a d (Option.some.inj hother)
    · obtain ⟨hd, hfull⟩ := h.constants idx a d hother
      exact ⟨hd, fun i hi => hkept i hi (hfull i hi)⟩

/-! ### Append -/

/-- **Inversion.** An append of the positions `[start, stop)` writes slot 0: one
    constant info for a whole vector, a per-row info otherwise. -/
theorem appendVersionInfo_cases {transactionId start stop : Nat} (hlt : start < stop)
    (hle : stop ≤ vectorCapacity) (hm : m.appendVersionInfo transactionId start stop = some m') :
    (start = 0 ∧ stop = vectorCapacity ∧
      m' = m.setChunkInfo 0 (.constant transactionId notDeletedId)) ∨
    ∃ v, (m.getChunkInfo 0 = some (.vector v) ∨ m.getChunkInfo 0 = none ∧ v = VectorInfo.fresh) ∧
      m' = m.setChunkInfo 0 (.vector (v.append start stop transactionId)) := by
  unfold appendVersionInfo at hm
  rw [vectorRanges_eq hlt hle] at hm
  simp only [List.foldlM_cons, List.foldlM_nil, appendVector, Option.pure_def,
    Option.bind_eq_bind] at hm
  split at hm
  · next hwhole =>
    simp only [Option.bind_some, Option.some.injEq] at hm
    exact Or.inl ⟨hwhole.1, hwhole.2, hm.symm⟩
  · refine Or.inr ?_
    split at hm
    · next hslot =>
      simp only [Option.bind_some, Option.some.injEq] at hm
      exact ⟨VectorInfo.fresh, Or.inr ⟨hslot, rfl⟩, hm.symm⟩
    · next v hslot =>
      simp only [Option.bind_some, Option.some.injEq] at hm
      exact ⟨v, Or.inl hslot, hm.symm⟩
    · simp at hm

/-- `append_version_info` aborts only on a constant info, which a row group with
    room does not have. -/
theorem Files.exists_appendVersionInfo {start stop : Nat} (h : m.Files j view)
    (hlt : start < stop) (hle : stop ≤ vectorCapacity) (hfree : view start = none)
    (transactionId : Nat) : ∃ m', m.appendVersionInfo transactionId start stop = some m' := by
  unfold appendVersionInfo
  rw [vectorRanges_eq hlt hle]
  simp only [List.foldlM_cons, List.foldlM_nil, appendVector, Option.pure_def,
    Option.bind_eq_bind]
  split
  · exact ⟨_, rfl⟩
  · split
    · exact ⟨_, rfl⟩
    · exact ⟨_, rfl⟩
    · next a d hslot =>
      have hfull := (h.constants 0 a d hslot).2 start (by omega)
      simp [hfree] at hfull

/-- **Append.** The rows appended are filed with the transaction's id. -/
theorem Files.append {transactionId start stop : Nat} (h : m.Files j view) (hlt : start < stop)
    (hle : stop ≤ vectorCapacity) (hm : m.appendVersionInfo transactionId start stop = some m')
    (hold : ∀ i, i < start → view' i = view i)
    (hfree : ∀ i, start ≤ i → i < vectorCapacity → view i = none)
    (hnew : ∀ i, start ≤ i → i < stop → ∃ x, view' i = some (Row.pending transactionId x))
    (hrest : ∀ i, stop ≤ i → i < vectorCapacity → view' i = none) :
    m'.Files j view' := by
  -- outside the old rows neither view has a delete stamp
  have hclear : ∀ i, start ≤ i → i < vectorCapacity →
      ((view' i).map Row.deleteId).getD notDeletedId = notDeletedId := by
    intro i hi hcap
    by_cases hstop : i < stop
    · obtain ⟨x, hx⟩ := hnew i hi hstop
      rw [hx]
      rfl
    · rw [hrest i (by omega) hcap]
      rfl
  have hkept : ∀ i, i < vectorCapacity → ((view' i).map Row.deleteId).getD notDeletedId =
      ((view i).map Row.deleteId).getD notDeletedId := by
    intro i hcap
    by_cases hi : i < start
    · rw [hold i hi]
    · rw [hclear i (by omega) hcap, hfree i (by omega) hcap]
      rfl
  have hsome : ∀ i, i < vectorCapacity → (view i).isSome → (view' i).isSome := by
    intro i hi hrow
    by_cases hin : i < start
    · rwa [hold i hin]
    · simp [hfree i (by omega) hi] at hrow
  rcases appendVersionInfo_cases hlt hle hm with ⟨h0, hcap, rfl⟩ | ⟨v, hslot, rfl⟩
  · refine h.setSlotZero ?_ hkept ?_ ?_ hsome
    · intro i row hi hrow
      obtain ⟨x, hx⟩ := hnew i (by omega) (by omega)
      obtain rfl : Row.pending transactionId x = row := by simpa [hx] using hrow
      rfl
    · rintro rfl i hi
      rw [h.deletes i hi, hfree i (by omega) hi]
      rfl
    · rintro a d ⟨⟩
      refine ⟨rfl, fun i hi => ?_⟩
      obtain ⟨x, hx⟩ := hnew i (by omega) (by omega)
      rw [hx]
      rfl
  · refine h.setSlotZero ?_ hkept ?_ nofun hsome
    · intro i row hi hrow
      show fillRange v.inserted start stop transactionId i = row.insertId
      unfold fillRange
      by_cases hin : start ≤ i
      · have hstop : i < stop := by
          by_contra hout
          rw [hrest i (by omega) hi] at hrow
          simp at hrow
        obtain ⟨x, hx⟩ := hnew i hin hstop
        rw [if_pos ⟨hin, hstop⟩]
        obtain rfl : Row.pending transactionId x = row := by simpa [hx] using hrow
        rfl
      · rw [if_neg (by omega)]
        rw [hold i (by omega)] at hrow
        obtain ⟨info, hinfo, hstamp⟩ := h.inserts i row hi hrow
        rcases hslot with hslot | ⟨hslot, -⟩
        · rw [hslot] at hinfo
          cases hinfo
          exact hstamp
        · simp [hslot] at hinfo
    · intro _ i hi
      rcases hslot with hslot | ⟨hslot, rfl⟩
      · rw [hslot]
        rfl
      · rw [hslot]
        rfl

/-! ### Commit -/

/-- **Inversion.** A commit of positions of the row group's vector rewrites slot 0. -/
theorem commitAppend_cases {commitId start count : Nat} (hcount : 0 < count)
    (hle : start + count ≤ vectorCapacity) (hm : m.commitAppend commitId start count = some m') :
    ∃ info info', m.getChunkInfo 0 = some info ∧
      info.commitAppend commitId start (start + count) = some info' ∧
      m' = m.setChunkInfo 0 info' := by
  unfold commitAppend at hm
  rw [if_neg (by omega), vectorRanges_eq (by omega) hle] at hm
  simp only [List.foldlM_cons, List.foldlM_nil, commitVector, Option.pure_def,
    Option.bind_eq_bind, Option.bind_eq_some_iff, Option.some.injEq] at hm
  obtain ⟨_, ⟨info, hinfo, info', hinfo', rfl⟩, rfl⟩ := hm
  exact ⟨info, info', hinfo, hinfo', rfl⟩

/-- What a commit makes of the stamps of one position. -/
theorem ChunkInfo.commitAppend_spec {info info' : ChunkInfo} {commitId start stop : Nat}
    (h : info.commitAppend commitId start stop = some info') {i : Nat} (hi : i < vectorCapacity) :
    info'.insertedAt i = (if start ≤ i ∧ i < stop then commitId else info.insertedAt i) ∧
      info'.deletedAt i = info.deletedAt i ∧
      ∀ a d, info' = .constant a d → ∃ b, info = .constant b d := by
  cases info with
  | constant a d =>
    simp only [ChunkInfo.commitAppend] at h
    split at h
    · simp at h
    · next hwhole =>
      push Not at hwhole
      simp only [Option.some.injEq] at h
      subst h
      refine ⟨?_, rfl, ?_⟩
      · rw [if_pos (by omega)]
        rfl
      · rintro _ _ ⟨⟩
        exact ⟨a, rfl⟩
  | vector v =>
    simp only [ChunkInfo.commitAppend, Option.some.injEq] at h
    subst h
    exact ⟨rfl, rfl, nofun⟩

/-- **Commit.** The committed positions get the commit id, every other stamp stays. -/
theorem Files.commit {commitId start count : Nat} (h : m.Files j view)
    (hle : start + count ≤ vectorCapacity) (hm : m.commitAppend commitId start count = some m') :
    m'.Files j fun i => (view i).map fun row =>
      if start ≤ i ∧ i < start + count then { row with insertId := commitId } else row := by
  have hdelete : ∀ i, i < vectorCapacity →
      (((view i).map fun row => if start ≤ i ∧ i < start + count then
        { row with insertId := commitId } else row).map Row.deleteId).getD notDeletedId =
      ((view i).map Row.deleteId).getD notDeletedId := by
    intro i _
    rw [Option.map_map]
    congr 2
    funext row
    simp only [Function.comp_apply]
    split <;> rfl
  rcases Nat.eq_zero_or_pos count with hzero | hcount
  · -- nothing to commit
    subst hzero
    obtain rfl : m = m' := by simpa [commitAppend] using hm
    refine h.congr fun i _ => ?_
    have hnone : ¬(start ≤ i ∧ i < start + 0) := by omega
    simp only [hnone, if_false, Option.map_id']
  · obtain ⟨info, info', hinfo, hinfo', rfl⟩ := commitAppend_cases hcount hle hm
    refine h.setSlotZero ?_ hdelete ?_ ?_ (fun i _ hrow => by simpa using hrow)
    · intro i row hi hrow
      simp only [Option.map_eq_some_iff] at hrow
      obtain ⟨old, hold, rfl⟩ := hrow
      obtain ⟨_, hslot, hstamp⟩ := h.inserts i old hi hold
      rw [hinfo, Option.some.injEq] at hslot
      subst hslot
      rw [(ChunkInfo.commitAppend_spec hinfo' hi).1]
      split
      · rfl
      · exact hstamp
    · intro _ i hi
      rw [hinfo]
      exact (ChunkInfo.commitAppend_spec hinfo' hi).2.1
    · intro a d hconst
      obtain ⟨b, hb⟩ := (ChunkInfo.commitAppend_spec hinfo'
        (show 0 < vectorCapacity by decide)).2.2 a d hconst
      obtain ⟨hd, hfull⟩ := h.constants 0 b d (hb ▸ hinfo)
      exact ⟨hd, fun i hi => by simpa using hfull i hi⟩

/-! ### Delete -/

/-- `vector_info` keeps what its slot says about the deletes. -/
theorem deleted_vectorInfoAt (h : m.Files j view) (k i : Nat) :
    (m.vectorInfoAt k).deleted i = deletedIn (m.getChunkInfo k) i := by
  unfold vectorInfoAt deletedIn
  split
  · next hslot =>
    rw [hslot]
    rfl
  · next v hslot =>
    rw [hslot]
    rfl
  · next a d hslot =>
    rw [hslot]
    exact (h.constants k a d hslot).1.symm

/-- `vector_info` keeps the insert stamps of a slot that has an info. -/
theorem inserted_vectorInfoAt {k : Nat} {info : ChunkInfo} (hslot : m.getChunkInfo k = some info)
    (i : Nat) : (m.vectorInfoAt k).inserted i = info.insertedAt i := by
  unfold vectorInfoAt
  rw [hslot]
  cases info <;> rfl

/-- **Delete.** The rows named get the stamp, unless they carry one already. -/
theorem Files.delete {stamp : Nat} {positions : List Nat} (h : m.Files j view)
    (hpos : ∀ i ∈ positions, (view i).isSome) :
    (m.deleteRows j stamp positions).1.Files j fun i => (view i).map fun row =>
      if i ∈ positions then row.delete stamp else row where
  inserts i row hi hrow := by
    simp only [Option.map_eq_some_iff] at hrow
    obtain ⟨old, hold, rfl⟩ := hrow
    obtain ⟨info, hinfo, hstamp⟩ := h.inserts i old hi hold
    have hinsert : (if i ∈ positions then old.delete stamp else old).insertId = old.insertId := by
      unfold Row.delete
      split_ifs <;> rfl
    simp only [deleteRows, getChunkInfo_setChunkInfo, hinsert]
    split
    · next hj =>
      subst hj
      refine ⟨_, rfl, ?_⟩
      show (m.vectorInfoAt 0).inserted i = old.insertId
      rw [inserted_vectorInfoAt hinfo, hstamp]
    · exact ⟨info, hinfo, hstamp⟩
  deletes i hi := by
    simp only [deleteRows, getChunkInfo_setChunkInfo, if_pos]
    show ((m.vectorInfoAt j).deleteRows stamp positions).1.deleted i = _
    rw [VectorInfo.deleted_deleteRows, deleted_vectorInfoAt h, h.deletes i hi]
    cases hview : view i with
    | none =>
      have hout : i ∉ positions := fun hmem => by simpa [hview] using hpos i hmem
      simp [hout]
    | some row =>
      simp only [Option.map_some, Option.getD_some, Row.delete]
      split_ifs with h1 h2 h3 <;> simp_all
  foreign hj info i hinfo := by
    simp only [deleteRows, getChunkInfo_setChunkInfo, if_pos, Option.some.injEq] at hinfo
    subst hinfo
    show (m.vectorInfoAt j).consulted i = 0
    unfold vectorInfoAt
    split
    · rfl
    · next v hslot => exact h.foreign hj _ i hslot
    · next a d hslot => exact h.foreign hj _ i hslot
  constants idx a d hinfo := by
    simp only [deleteRows, getChunkInfo_setChunkInfo] at hinfo
    split at hinfo
    · cases hinfo
    · obtain ⟨hd, hfull⟩ := h.constants idx a d hinfo
      exact ⟨hd, fun i hi => by simpa using hfull i hi⟩

theorem deletedIn_restamp (h : m.Files j view) {txnId : Nat} (htxn : txnId ≠ notDeletedId)
    (stamp k i : Nat) :
    deletedIn ((m.getChunkInfo k).map (·.restampDeletes txnId stamp)) i =
      if deletedIn (m.getChunkInfo k) i = txnId then stamp else deletedIn (m.getChunkInfo k) i := by
  cases hslot : m.getChunkInfo k with
  | none => exact (if_neg htxn.symm).symm
  | some info =>
    cases info with
    | constant a d =>
      -- the scan over the slots passes a constant info over; it has no delete stamp
      obtain rfl := (h.constants k a d hslot).1
      exact (if_neg htxn.symm).symm
    | vector v => exact v.deleted_restampDeletes stamp i htxn

/-- **Commit and revert of deletes.** The transaction's delete stamps are exchanged. -/
theorem Files.restampDeletes {txnId : Nat} (h : m.Files j view) (htxn : txnId ≠ notDeletedId)
    (stamp : Nat) :
    (m.restampDeletes txnId stamp).Files j fun i =>
      (view i).map (Row.restampDelete txnId stamp) where
  inserts i row hi hrow := by
    simp only [Option.map_eq_some_iff] at hrow
    obtain ⟨old, hold, rfl⟩ := hrow
    obtain ⟨info, hinfo, hstamp⟩ := h.inserts i old hi hold
    refine ⟨info.restampDeletes txnId stamp, ?_, ?_⟩
    · rw [getChunkInfo_restampDeletes, hinfo]
      rfl
    · rw [ChunkInfo.insertedAt_restampDeletes, hstamp]
      unfold Row.restampDelete
      split <;> rfl
  deletes i hi := by
    rw [getChunkInfo_restampDeletes, deletedIn_restamp h htxn, h.deletes i hi]
    cases view i with
    | none => exact if_neg htxn.symm
    | some row =>
      simp only [Option.map_some, Option.getD_some, Row.restampDelete]
      split <;> rfl
  foreign hj info i hinfo := by
    rw [getChunkInfo_restampDeletes, Option.map_eq_some_iff] at hinfo
    obtain ⟨old, hold, rfl⟩ := hinfo
    rw [ChunkInfo.consulted_restampDeletes]
    exact h.foreign hj old i hold
  constants idx a d hinfo := by
    rw [getChunkInfo_restampDeletes, Option.map_eq_some_iff] at hinfo
    obtain ⟨old, hold, heq⟩ := hinfo
    cases old with
    | constant b e =>
      cases heq
      obtain ⟨hd, hfull⟩ := h.constants idx a d hold
      exact ⟨hd, fun i hi => by simpa using hfull i hi⟩
    | vector v => simp [ChunkInfo.restampDeletes] at heq

/-! ### Revert -/

/-- **Revert.** The rows from `start` on are gone.  The delete stamps of the first
    row group outlive the revert, so the rows that go must not have any; those
    of any other row group are dropped with it, also for the rows that stay.  No
    constant info may be cut: it would abort the next append. -/
theorem Files.revert {start : Nat} (h : m.Files j view) (hstart : start ≤ vectorCapacity)
    (hclean : ∀ i row, i < vectorCapacity → start ≤ i → view i = some row →
      row.deleteId = notDeletedId)
    (hcut : start = 0 ∨ ∀ a d, m.getChunkInfo 0 ≠ some (.constant a d)) :
    (m.revertAppend start).Files j fun i =>
      if i < start then (view i).map fun row => if 0 < j then row.undelete else row
      else none where
  inserts i row hi hrow := by
    by_cases hlt : i < start
    · rw [if_pos hlt, Option.map_eq_some_iff] at hrow
      obtain ⟨old, hold, rfl⟩ := hrow
      obtain ⟨info, hinfo, hstamp⟩ := h.inserts i old hi hold
      have hkept : ¬(start + (vectorCapacity - 1)) / vectorCapacity ≤ 0 := by
        unfold vectorCapacity at *
        omega
      refine ⟨info, by rw [getChunkInfo_revertAppend, if_neg hkept, hinfo], ?_⟩
      split <;> exact hstamp
    · rw [if_neg hlt] at hrow
      cases hrow
  deletes i hi := by
    rw [getChunkInfo_revertAppend]
    rcases Nat.eq_zero_or_pos j with rfl | hj
    · have hview : start ≤ i →
          ((view i).map Row.deleteId).getD notDeletedId = notDeletedId := by
        intro hle
        cases hrow : view i with
        | none => rfl
        | some row => exact hclean i row hi hle hrow
      have hsame : ((view i).map fun row => if 0 < 0 then row.undelete else row) = view i := by
        simp
      rw [hsame]
      split
      · next hdrop =>
        have hzero : ¬i < start := by
          unfold vectorCapacity at *
          omega
        rw [if_neg hzero]
        rfl
      · rw [h.deletes i hi]
        split
        · rfl
        · next hge => exact hview (Nat.not_lt.mp hge)
    · have hdrop : (start + (vectorCapacity - 1)) / vectorCapacity ≤ j := by
        unfold vectorCapacity at *
        omega
      rw [if_pos hdrop]
      simp only [hj, if_true]
      split
      · cases view i <;> rfl
      · rfl
  foreign hj info i hinfo := by
    rw [getChunkInfo_revertAppend] at hinfo
    split at hinfo
    · cases hinfo
    · exact h.foreign hj info i hinfo
  constants idx a d hinfo := by
    rw [getChunkInfo_revertAppend] at hinfo
    split at hinfo
    · cases hinfo
    · next hkept =>
      -- only slot 0 of a row group that keeps rows is left
      have hslot : idx = 0 ∧ start ≠ 0 := by
        unfold vectorCapacity at *
        omega
      obtain ⟨rfl, hpos⟩ := hslot
      exact absurd hinfo ((hcut.resolve_left hpos) a d)

end RowVersionManager
end Table
end Otterbrix
