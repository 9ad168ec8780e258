/-
  Otterbrix.Index.IndexEngine

  The indexes of one table (`index_engine_t`) and the messages of `manager_index_t` that
  change them.  An index is in memory, or is the facade of a hash index on disk, which
  keeps only what is pending; either kind may have a disk agent, to which a commit sends
  the transaction's pairs.
-/
import Otterbrix.Index.SingleFieldIndex

namespace Otterbrix
namespace Index

open Table (notDeletedId)

/-! ## The facade of a hash index on disk -/

/-- `disk_hash_single_field_index_t`: the pending rows of all transactions, by encoded key. -/
structure DiskHashSingleFieldIndex (K : Type) where
  pendingInserts : List (Nat × K × Int) := []
  pendingDeletes : List (Nat × K × Int) := []

namespace DiskHashSingleFieldIndex

variable {K : Type}

/-- The bucket of a transaction. -/
def bucket (txnId : Nat) (pending : List (Nat × K × Int)) : List (K × Int) :=
  (pending.filter fun p => p.1 == txnId).map Prod.snd

/-- A map of buckets without one of them. -/
def eraseBucket (txnId : Nat) (pending : List (Nat × K × Int)) : List (Nat × K × Int) :=
  pending.filter fun p => p.1 != txnId

/-- `insert_txn_impl`. -/
def insertTxn (x : DiskHashSingleFieldIndex K) (key : K) (rowIndex : Int) (txnId : Nat) :
    DiskHashSingleFieldIndex K :=
  { x with pendingInserts := x.pendingInserts ++ [(txnId, key, rowIndex)] }

/-- `mark_delete_impl`. -/
def markDelete (x : DiskHashSingleFieldIndex K) (key : K) (rowIndex : Int) (txnId : Nat) :
    DiskHashSingleFieldIndex K :=
  { x with pendingDeletes := x.pendingDeletes ++ [(txnId, key, rowIndex)] }

/-- `commit_insert_impl`. -/
def commitInsert (x : DiskHashSingleFieldIndex K) (txnId : Nat) : DiskHashSingleFieldIndex K :=
  { x with pendingInserts := eraseBucket txnId x.pendingInserts }

/-- `commit_delete_impl`. -/
def commitDelete (x : DiskHashSingleFieldIndex K) (txnId : Nat) : DiskHashSingleFieldIndex K :=
  { x with pendingDeletes := eraseBucket txnId x.pendingDeletes }

/-- `revert_insert_impl`. -/
def revertInsert (x : DiskHashSingleFieldIndex K) (txnId : Nat) : DiskHashSingleFieldIndex K :=
  { x with pendingInserts := eraseBucket txnId x.pendingInserts }

/-- `revert_delete_impl`. -/
def revertDelete (x : DiskHashSingleFieldIndex K) (txnId : Nat) : DiskHashSingleFieldIndex K :=
  { x with pendingDeletes := eraseBucket txnId x.pendingDeletes }

end DiskHashSingleFieldIndex

/-! ## Indexes -/

/-- `index_t`, with its subclasses. -/
inductive AnyIndex (K : Type) where
  | memory (x : SingleFieldIndex K)
  | diskHash (x : DiskHashSingleFieldIndex K)

namespace AnyIndex

variable {K : Type} [DecidableEq K]

/-- `insert`, for a transaction. -/
def insert (key : K) (rowIndex : Int) (txnId : Nat) : AnyIndex K → AnyIndex K
  | memory x => memory (x.insertTxn key rowIndex txnId)
  | diskHash x => diskHash (x.insertTxn key rowIndex txnId)

/-- `mark_delete`. -/
def markDelete (key : K) (rowIndex : Int) (txnId : Nat) : AnyIndex K → AnyIndex K
  | memory x => memory (x.markDelete key rowIndex txnId)
  | diskHash x => diskHash (x.markDelete key rowIndex txnId)

/-- `commit_insert`. -/
def commitInsert (txnId commitId : Nat) : AnyIndex K → AnyIndex K
  | memory x => memory (x.commitInsert txnId commitId)
  | diskHash x => diskHash (x.commitInsert txnId)

/-- `commit_delete`. -/
def commitDelete (txnId commitId : Nat) : AnyIndex K → AnyIndex K
  | memory x => memory (x.commitDelete txnId commitId)
  | diskHash x => diskHash (x.commitDelete txnId)

/-- `revert_insert`. -/
def revertInsert (txnId : Nat) : AnyIndex K → AnyIndex K
  | memory x => memory (x.revertInsert txnId)
  | diskHash x => diskHash (x.revertInsert txnId)

/-- `revert_delete`. -/
def revertDelete (txnId : Nat) : AnyIndex K → AnyIndex K
  | memory x => memory (x.revertDelete txnId)
  | diskHash x => diskHash (x.revertDelete txnId)

/-- `clean_memory_to_new_elements`. -/
def cleanMemoryToNewElements : AnyIndex K → AnyIndex K
  | memory x => memory x.cleanMemoryToNewElements
  | diskHash _ => diskHash {}

/-- `for_each_pending_insert`, as the pairs it visits. -/
def pendingInserts (txnId : Nat) : AnyIndex K → List (K × Int)
  | memory x => x.pendingInserts txnId
  | diskHash x => DiskHashSingleFieldIndex.bucket txnId x.pendingInserts

/-- `for_each_pending_delete`, as the pairs it visits. -/
def pendingDeletes (txnId : Nat) : AnyIndex K → List (K × Int)
  | memory x => x.pendingDeletes txnId
  | diskHash x => DiskHashSingleFieldIndex.bucket txnId x.pendingDeletes

end AnyIndex

/-! ## The engine -/

/-- The columns of a chunk, by their alias. -/
abbrev Chunk (K : Type) := List (String × (Nat → K))

/-- An index with its key columns and its disk agent. -/
structure EngineIndex (K : Type) where
  keys : List String
  agent : Option Nat
  index : AnyIndex K

namespace EngineIndex

variable {K : Type} [DecidableEq K]

/-- `is_match_column`. -/
def isMatchColumn (x : EngineIndex K) (chunk : Chunk K) : Bool :=
  x.keys.all fun key => chunk.any fun column => column.1 == key

/-- `get_value_by_index`: the value of the first key column, `na` if there is none. -/
def getValueByIndex (na : K) (x : EngineIndex K) (chunk : Chunk K) (row : Nat) : K :=
  match x.keys with
  | [] => na
  | key :: _ => ((chunk.find? fun column => column.1 == key).map fun column => column.2 row).getD na

/-- The index changed. -/
def map (f : AnyIndex K → AnyIndex K) (x : EngineIndex K) : EngineIndex K :=
  { x with index := f x.index }

/-- The messages to the disk agent for the pending inserts of a transaction. -/
def pendingDiskInserts (txnId : Nat) (x : EngineIndex K) : List (Nat × K × Int) :=
  match x.agent with
  | none => []
  | some agent => (x.index.pendingInserts txnId).map fun p => (agent, p)

/-- The messages to the disk agent for the pending deletes of a transaction. -/
def pendingDiskDeletes (txnId : Nat) (x : EngineIndex K) : List (Nat × K × Int) :=
  match x.agent with
  | none => []
  | some agent => (x.index.pendingDeletes txnId).map fun p => (agent, p)

end EngineIndex

/-- `index_engine_t`. -/
abbrev IndexEngine (K : Type) := List (EngineIndex K)

namespace IndexEngine

variable {K : Type} [DecidableEq K] (na : K)

/-- `insert_row`. -/
def insertRow (chunk : Chunk K) (chunkRow : Nat) (storageRow : Int) (txnId : Nat)
    (engine : IndexEngine K) : IndexEngine K :=
  engine.map fun x =>
    if x.isMatchColumn chunk then
      x.map (AnyIndex.insert (x.getValueByIndex na chunk chunkRow) storageRow txnId)
    else x

/-- `mark_delete_row`. -/
def markDeleteRow (chunk : Chunk K) (chunkRow : Nat) (storageRow : Int) (txnId : Nat)
    (engine : IndexEngine K) : IndexEngine K :=
  engine.map fun x =>
    if x.isMatchColumn chunk then
      x.map (AnyIndex.markDelete (x.getValueByIndex na chunk chunkRow) storageRow txnId)
    else x

/-- `bootstrap_repopulate_sync`. -/
def bootstrapRepopulateSync (chunk : Chunk K) (rowCount : Nat) (engine : IndexEngine K) :
    IndexEngine K :=
  if rowCount = 0 then engine
  else
    (List.range rowCount).foldl (fun engine i => insertRow na chunk i i 0 engine)
      (List.map (EngineIndex.map AnyIndex.cleanMemoryToNewElements) engine)

/-- `insert_rows`. -/
def insertRows (txnId : Nat) (chunk : Chunk K) (startRowId count : Nat) (engine : IndexEngine K) :
    IndexEngine K :=
  (List.range count).foldl
    (fun engine i => insertRow na chunk i ((startRowId + i : Nat) : Int) txnId engine) engine

/-- `delete_rows`. -/
def deleteRows (txnId : Nat) (chunk : Chunk K) (rowIds : List Int) (engine : IndexEngine K) :
    IndexEngine K :=
  rowIds.zipIdx.foldl (fun engine p => markDeleteRow na chunk p.2 p.1 txnId engine) engine

/-- `commit_inserts`, with the pairs it sends to the disk agents: those of the transaction, and
    those of transaction 0 as well. -/
def commitInserts (txnId commitId : Nat) (engine : IndexEngine K) :
    List (Nat × K × Int) × IndexEngine K :=
  (engine.flatMap (EngineIndex.pendingDiskInserts txnId) ++
      if txnId ≠ 0 then engine.flatMap (EngineIndex.pendingDiskInserts 0) else [],
    let engine := List.map (EngineIndex.map (AnyIndex.commitInsert txnId commitId)) engine
    if txnId ≠ 0 then List.map (EngineIndex.map (AnyIndex.commitInsert 0 commitId)) engine
    else engine)

/-- `commit_deletes`, with the pairs it sends to the disk agents. -/
def commitDeletes (txnId commitId : Nat) (engine : IndexEngine K) :
    List (Nat × K × Int) × IndexEngine K :=
  (engine.flatMap (EngineIndex.pendingDiskDeletes txnId) ++
      if txnId ≠ 0 then engine.flatMap (EngineIndex.pendingDiskDeletes 0) else [],
    let engine := List.map (EngineIndex.map (AnyIndex.commitDelete txnId commitId)) engine
    if txnId ≠ 0 then List.map (EngineIndex.map (AnyIndex.commitDelete 0 commitId)) engine
    else engine)

/-- `revert_insert`. -/
def revertInsert (txnId : Nat) (engine : IndexEngine K) : IndexEngine K :=
  List.map (EngineIndex.map (AnyIndex.revertInsert txnId)) engine

/-- `revert_delete`. -/
def revertDelete (txnId : Nat) (engine : IndexEngine K) : IndexEngine K :=
  List.map (EngineIndex.map (AnyIndex.revertDelete txnId)) engine

end IndexEngine

end Index
end Otterbrix
