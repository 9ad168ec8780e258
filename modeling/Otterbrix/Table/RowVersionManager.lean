/-
  Otterbrix.Table.RowVersionManager

  The version stamps of one row group (`row_version_manager_t`): for every
  vector of 1024 rows either nothing, one pair of stamps for the whole vector
  (`chunk_constant_info`) or a pair of stamps per row (`chunk_vector_info`).

  `none` as a result is an abort of the source or an access through a null
  version pointer.  The per-row arrays are functions of the position in the
  vector; positions from 1024 on are never looked at.
-/
import Otterbrix.Table.TransactionManager

namespace Otterbrix
namespace Table

/-- `DEFAULT_VECTOR_CAPACITY`, which is also the row group size. -/
def vectorCapacity : Nat := 1024

/-! ## Chunk infos -/

/-- `chunk_vector_info`.  Without `any_deleted` no position carries a delete
    stamp: only `delete_rows` writes one, and it raises the flag first. -/
structure VectorInfo where
  insertId : Nat
  sameInsertedId : Bool
  inserted : Nat → Nat
  anyDeleted : Bool
  deleted : Nat → Nat
  unmarked : anyDeleted = false → ∀ i, deleted i = notDeletedId

/-- `chunk_info`, with its two subclasses. -/
inductive ChunkInfo where
  | constant (insertId deleteId : Nat)
  | vector (info : VectorInfo)

/-- The positions `[start, stop)` of an array set to `x`. -/
def fillRange (a : Nat → Nat) (start stop x : Nat) : Nat → Nat :=
  fun i => if start ≤ i ∧ i < stop then x else a i

/-- No snapshot takes the absence of a delete for a delete, except one that owns
    the id `NOT_DELETED_ID`. -/
theorem useDeletedVersion_notDeletedId {txn : TransactionData}
    (hid : txn.transactionId ≠ notDeletedId) : useDeletedVersion txn notDeletedId = true := by
  have hpending : transactionIdStart ≤ notDeletedId := by decide
  have hunseen : useInsertedVersion txn notDeletedId ≠ true := by
    rw [Ne, useInsertedVersion_pending_iff hpending]
    exact hid.symm
  unfold useDeletedVersion
  rw [Bool.eq_false_iff.mpr hunseen, Bool.not_false]

namespace VectorInfo

/-- The constructor of `chunk_vector_info`. -/
def fresh : VectorInfo where
  insertId := 0
  sameInsertedId := true
  inserted := fun _ => 0
  anyDeleted := false
  deleted := fun _ => notDeletedId
  unmarked := fun _ _ => rfl

/-- `templated_indexing_vector`: the positions below `maxCount` it selects. -/
def indexingVector (v : VectorInfo) (txn : TransactionData) (maxCount : Nat) : List Nat :=
  if v.sameInsertedId && !v.anyDeleted then
    if useInsertedVersion txn v.insertId then List.range maxCount else []
  else if v.sameInsertedId then
    if !useInsertedVersion txn v.insertId then []
    else (List.range maxCount).filter fun i => useDeletedVersion txn (v.deleted i)
  else if !v.anyDeleted then
    (List.range maxCount).filter fun i => useInsertedVersion txn (v.inserted i)
  else
    (List.range maxCount).filter fun i =>
      useInsertedVersion txn (v.inserted i) && useDeletedVersion txn (v.deleted i)

/-- One iteration of `delete_rows`: a row that carries a stamp is passed over. -/
def markDeleted (transactionId : Nat) (acc : (Nat → Nat) × Nat) (row : Nat) : (Nat → Nat) × Nat :=
  if acc.1 row ≠ notDeletedId then acc
  else (fun i => if i = row then transactionId else acc.1 i, acc.2 + 1)

/-- `delete_rows`, with the number of rows it stamped. -/
def deleteRows (v : VectorInfo) (transactionId : Nat) (rows : List Nat) : VectorInfo × Nat :=
  let marked := rows.foldl (markDeleted transactionId) (v.deleted, 0)
  ({ v with anyDeleted := true, deleted := marked.1, unmarked := nofun }, marked.2)

/-- The delete stamps `txnId` become `stamp`: the body of `commit_all_deletes`
    and of `revert_all_deletes`. -/
def restampDeletes (v : VectorInfo) (txnId stamp : Nat) : VectorInfo :=
  if h : v.anyDeleted = true then
    { v with
      deleted := fun i => if v.deleted i = txnId then stamp else v.deleted i
      unmarked := fun hno => absurd (h.symm.trans hno) (by decide) }
  else v

/-- `commit_all_deletes`. -/
def commitAllDeletes (v : VectorInfo) (txnId commitId : Nat) : VectorInfo :=
  v.restampDeletes txnId commitId

/-- `revert_all_deletes`. -/
def revertAllDeletes (v : VectorInfo) (txnId : Nat) : VectorInfo :=
  v.restampDeletes txnId notDeletedId

/-- `append`. -/
def append (v : VectorInfo) (start stop commitId : Nat) : VectorInfo where
  insertId := if start = 0 then commitId else if v.insertId ≠ commitId then notDeletedId
    else v.insertId
  sameInsertedId := if start ≠ 0 ∧ v.insertId ≠ commitId then false else v.sameInsertedId
  inserted := fillRange v.inserted start stop commitId
  anyDeleted := v.anyDeleted
  deleted := v.deleted
  unmarked := v.unmarked

/-- `commit_append`. -/
def commitAppend (v : VectorInfo) (commitId start stop : Nat) : VectorInfo :=
  { v with
    insertId := if v.sameInsertedId then commitId else v.insertId
    inserted := fillRange v.inserted start stop commitId }

/-! ### What the operations do to one position -/

/-- The insert stamp a scan goes by at position `i`: the shared one as long as
    the vector claims to have a single inserter. -/
def consulted (v : VectorInfo) (i : Nat) : Nat :=
  if v.sameInsertedId then v.insertId else v.inserted i

/-- The four cases of `templated_indexing_vector` are one filter. -/
theorem indexingVector_eq (v : VectorInfo) {txn : TransactionData} (n : Nat)
    (hid : txn.transactionId ≠ notDeletedId) :
    v.indexingVector txn n = (List.range n).filter fun i =>
      useInsertedVersion txn (v.consulted i) && useDeletedVersion txn (v.deleted i) := by
  have hunmarked : v.anyDeleted = false → ∀ i, useDeletedVersion txn (v.deleted i) = true := by
    intro hno i
    rw [v.unmarked hno i]
    exact useDeletedVersion_notDeletedId hid
  unfold indexingVector consulted
  cases hsame : v.sameInsertedId <;> cases hany : v.anyDeleted
  · simp [hunmarked hany]
  · simp
  · cases hins : useInsertedVersion txn v.insertId <;> simp [hins, hunmarked hany]
  · cases hins : useInsertedVersion txn v.insertId <;> simp [hins]

/-- `delete_rows` stamps the rows named that carry no stamp yet. -/
theorem foldl_markDeleted (transactionId : Nat) (rows : List Nat) (acc : (Nat → Nat) × Nat)
    (i : Nat) :
    (rows.foldl (markDeleted transactionId) acc).1 i =
      if i ∈ rows ∧ acc.1 i = notDeletedId then transactionId else acc.1 i := by
  induction rows generalizing acc with
  | nil => simp
  | cons row rows ih =>
    rw [List.foldl_cons, ih]
    unfold markDeleted
    by_cases hstamped : acc.1 row = notDeletedId
    · by_cases hi : i = row
      · subst hi
        simp [hstamped]
      · simp [hstamped, hi]
    · by_cases hi : i = row
      · subst hi
        simp [hstamped]
      · simp [hstamped, hi]

theorem deleted_deleteRows (v : VectorInfo) (transactionId : Nat) (rows : List Nat) (i : Nat) :
    (v.deleteRows transactionId rows).1.deleted i =
      if i ∈ rows ∧ v.deleted i = notDeletedId then transactionId else v.deleted i :=
  foldl_markDeleted transactionId rows (v.deleted, 0) i

@[simp] theorem inserted_restampDeletes (v : VectorInfo) (txnId stamp : Nat) :
    (v.restampDeletes txnId stamp).inserted = v.inserted := by
  unfold restampDeletes
  split <;> rfl

@[simp] theorem insertId_restampDeletes (v : VectorInfo) (txnId stamp : Nat) :
    (v.restampDeletes txnId stamp).insertId = v.insertId := by
  unfold restampDeletes
  split <;> rfl

@[simp] theorem sameInsertedId_restampDeletes (v : VectorInfo) (txnId stamp : Nat) :
    (v.restampDeletes txnId stamp).sameInsertedId = v.sameInsertedId := by
  unfold restampDeletes
  split <;> rfl

theorem deleted_restampDeletes (v : VectorInfo) {txnId : Nat} (stamp i : Nat)
    (htxn : txnId ≠ notDeletedId) :
    (v.restampDeletes txnId stamp).deleted i =
      if v.deleted i = txnId then stamp else v.deleted i := by
  unfold restampDeletes
  split
  · rfl
  · next hno =>
    -- no position is stamped, so none carries `txnId`
    have hmark : v.deleted i ≠ txnId := by
      rw [v.unmarked (by simpa using hno) i]
      exact htxn.symm
    rw [if_neg hmark]

end VectorInfo

namespace ChunkInfo

/-- `indexing_vector`. -/
def indexingVector (info : ChunkInfo) (txn : TransactionData) (maxCount : Nat) : List Nat :=
  match info with
  | .constant insertId deleteId =>
      if useInsertedVersion txn insertId && useDeletedVersion txn deleteId then
        List.range maxCount
      else []
  | .vector v => v.indexingVector txn maxCount

/-- `commit_append`: a constant info is stamped as a whole or the process aborts. -/
def commitAppend (info : ChunkInfo) (commitId start stop : Nat) : Option ChunkInfo :=
  match info with
  | .constant _ deleteId =>
      if start ≠ 0 ∨ stop ≠ vectorCapacity then none else some (.constant commitId deleteId)
  | .vector v => some (.vector (v.commitAppend commitId start stop))

/-- The delete stamps `txnId` become `stamp`; constant infos are passed over. -/
def restampDeletes (info : ChunkInfo) (txnId stamp : Nat) : ChunkInfo :=
  match info with
  | .constant insertId deleteId => .constant insertId deleteId
  | .vector v => .vector (v.restampDeletes txnId stamp)

/-- The insert stamp the info holds for position `i`. -/
def insertedAt (info : ChunkInfo) (i : Nat) : Nat :=
  match info with
  | .constant insertId _ => insertId
  | .vector v => v.inserted i

/-- The delete stamp the info holds for position `i`. -/
def deletedAt (info : ChunkInfo) (i : Nat) : Nat :=
  match info with
  | .constant _ deleteId => deleteId
  | .vector v => v.deleted i

/-- The insert stamp a scan goes by at position `i`. -/
def consulted (info : ChunkInfo) (i : Nat) : Nat :=
  match info with
  | .constant insertId _ => insertId
  | .vector v => v.consulted i

theorem indexingVector_eq (info : ChunkInfo) {txn : TransactionData} (n : Nat)
    (hid : txn.transactionId ≠ notDeletedId) :
    info.indexingVector txn n = (List.range n).filter fun i =>
      useInsertedVersion txn (info.consulted i) && useDeletedVersion txn (info.deletedAt i) := by
  cases info with
  | constant insertId deleteId =>
    unfold indexingVector consulted deletedAt
    cases hseen : useInsertedVersion txn insertId && useDeletedVersion txn deleteId <;>
      simp [hseen]
  | vector v => exact v.indexingVector_eq n hid

@[simp] theorem insertedAt_restampDeletes (info : ChunkInfo) (txnId stamp i : Nat) :
    (info.restampDeletes txnId stamp).insertedAt i = info.insertedAt i := by
  cases info <;> simp [restampDeletes, insertedAt]

@[simp] theorem consulted_restampDeletes (info : ChunkInfo) (txnId stamp i : Nat) :
    (info.restampDeletes txnId stamp).consulted i = info.consulted i := by
  cases info <;> simp [restampDeletes, consulted, VectorInfo.consulted]

end ChunkInfo

/-! ## The manager of a row group -/

/-- `row_version_manager_t`. -/
structure RowVersionManager where
  vectorInfo : List (Option ChunkInfo) := []

namespace RowVersionManager

/-- `get_chunk_info`. -/
def getChunkInfo (m : RowVersionManager) (vectorIdx : Nat) : Option ChunkInfo :=
  m.vectorInfo.getD vectorIdx none

/-- `fill_vector_info`, then an assignment to the slot. -/
def setChunkInfo (m : RowVersionManager) (vectorIdx : Nat) (info : ChunkInfo) :
    RowVersionManager where
  vectorInfo :=
    (m.vectorInfo ++ List.replicate (vectorIdx + 1 - m.vectorInfo.length) none).set vectorIdx
      (some info)

/-- `indexing_vector`: a vector without an info is taken whole. -/
def indexingVector (m : RowVersionManager) (txn : TransactionData) (vectorIdx maxCount : Nat) :
    List Nat :=
  match m.getChunkInfo vectorIdx with
  | none => List.range maxCount
  | some info => info.indexingVector txn maxCount

/-- The vectors that meet the rows `[start, stop)` of a row group, each with the
    positions it covers. -/
def vectorRanges (start stop : Nat) : List (Nat × Nat × Nat) :=
  let startVector := start / vectorCapacity
  let endVector := (stop - 1) / vectorCapacity
  (List.range' startVector (endVector + 1 - startVector)).map fun vectorIdx =>
    (vectorIdx,
      if vectorIdx = startVector then start - startVector * vectorCapacity else 0,
      if vectorIdx = endVector then stop - endVector * vectorCapacity else vectorCapacity)

/-- One iteration of `append_version_info`. -/
def appendVector (transactionId : Nat) (m : RowVersionManager) (range : Nat × Nat × Nat) :
    Option RowVersionManager :=
  let (vectorIdx, vectorStart, vectorEnd) := range
  if vectorStart = 0 ∧ vectorEnd = vectorCapacity then
    some (m.setChunkInfo vectorIdx (.constant transactionId notDeletedId))
  else
    match m.getChunkInfo vectorIdx with
    | none =>
        some (m.setChunkInfo vectorIdx
          (.vector (VectorInfo.fresh.append vectorStart vectorEnd transactionId)))
    | some (.vector v) =>
        some (m.setChunkInfo vectorIdx (.vector (v.append vectorStart vectorEnd transactionId)))
    | some (.constant _ _) => none

/-- `append_version_info`. -/
def appendVersionInfo (m : RowVersionManager) (transactionId rowGroupStart rowGroupEnd : Nat) :
    Option RowVersionManager :=
  (vectorRanges rowGroupStart rowGroupEnd).foldlM (appendVector transactionId) m

/-- One iteration of `commit_append`. -/
def commitVector (commitId : Nat) (m : RowVersionManager) (range : Nat × Nat × Nat) :
    Option RowVersionManager := do
  let (vectorIdx, vstart, vend) := range
  let info ← m.getChunkInfo vectorIdx
  let info ← info.commitAppend commitId vstart vend
  return m.setChunkInfo vectorIdx info

/-- `commit_append`. -/
def commitAppend (m : RowVersionManager) (commitId rowGroupStart count : Nat) :
    Option RowVersionManager :=
  if count = 0 then some m
  else (vectorRanges rowGroupStart (rowGroupStart + count)).foldlM (commitVector commitId) m

/-- `revert_append`: the infos of the vectors that start at or after `startRow`
    are dropped. -/
def revertAppend (m : RowVersionManager) (startRow : Nat) : RowVersionManager where
  vectorInfo := m.vectorInfo.mapIdx fun vectorIdx info =>
    if (startRow + (vectorCapacity - 1)) / vectorCapacity ≤ vectorIdx then none else info

/-- `vector_info`: the slot as a per-row info; a constant one is expanded. -/
def vectorInfoAt (m : RowVersionManager) (vectorIdx : Nat) : VectorInfo :=
  match m.getChunkInfo vectorIdx with
  | none => VectorInfo.fresh
  | some (.vector v) => v
  | some (.constant insertId _) =>
      { VectorInfo.fresh with insertId := insertId, inserted := fun _ => insertId }

/-- `delete_rows`. -/
def deleteRows (m : RowVersionManager) (vectorIdx transactionId : Nat) (rows : List Nat) :
    RowVersionManager × Nat :=
  let (v, deleted) := (m.vectorInfoAt vectorIdx).deleteRows transactionId rows
  (m.setChunkInfo vectorIdx (.vector v), deleted)

/-- The loop of `commit_all_deletes` and `revert_all_deletes`. -/
def restampDeletes (m : RowVersionManager) (txnId stamp : Nat) : RowVersionManager where
  vectorInfo := m.vectorInfo.map (Option.map (·.restampDeletes txnId stamp))

/-! ### One slot of the manager -/

theorem getChunkInfo_setChunkInfo (m : RowVersionManager) (i j : Nat) (info : ChunkInfo) :
    (m.setChunkInfo i info).getChunkInfo j = if j = i then some info else m.getChunkInfo j := by
  unfold getChunkInfo setChunkInfo
  simp only [List.getD_eq_getElem?_getD]
  by_cases hij : j = i
  · subst hij
    have hlen : j < (m.vectorInfo ++
        List.replicate (j + 1 - m.vectorInfo.length) none).length := by
      rw [List.length_append, List.length_replicate]
      omega
    simp [List.getElem?_set_self hlen]
  · rw [List.getElem?_set_ne (Ne.symm hij), if_neg hij, List.getElem?_append]
    split
    · rfl
    · -- a slot `fill_vector_info` adds is as empty as one beyond the end
      rw [List.getElem?_replicate, List.getElem?_eq_none (by omega)]
      split <;> rfl

theorem getChunkInfo_restampDeletes (m : RowVersionManager) (txnId stamp j : Nat) :
    (m.restampDeletes txnId stamp).getChunkInfo j =
      (m.getChunkInfo j).map (·.restampDeletes txnId stamp) := by
  unfold getChunkInfo restampDeletes
  simp only [List.getD_eq_getElem?_getD, List.getElem?_map]
  cases m.vectorInfo[j]? <;> rfl

theorem getChunkInfo_revertAppend (m : RowVersionManager) (startRow j : Nat) :
    (m.revertAppend startRow).getChunkInfo j =
      if (startRow + (vectorCapacity - 1)) / vectorCapacity ≤ j then none
      else m.getChunkInfo j := by
  unfold getChunkInfo revertAppend
  simp only [List.getD_eq_getElem?_getD, List.getElem?_mapIdx]
  cases m.vectorInfo[j]? <;> simp

/-- The rows of one append into a row group lie in its only vector. -/
theorem vectorRanges_eq {start stop : Nat} (hlt : start < stop) (hle : stop ≤ vectorCapacity) :
    vectorRanges start stop = [(0, start, stop)] := by
  have hstart : start / vectorCapacity = 0 := Nat.div_eq_of_lt (by omega)
  have hstop : (stop - 1) / vectorCapacity = 0 := Nat.div_eq_of_lt (by omega)
  unfold vectorRanges
  simp [hstart, hstop]

/-- An append that finds the row group full touches no vector. -/
theorem vectorRanges_full : vectorRanges vectorCapacity vectorCapacity = [] := by decide

end RowVersionManager
end Table
end Otterbrix
