/-
  Otterbrix.Index.BitcaskIndex

  `bitcask_index_disk_t`: the rows of a key are written to the active segment as a whole,
  and a disk hash table refers to the last record of every key.  Opening the index goes over
  all segments in the order of their ids and puts the references into the hash file that is
  there.

  Loops over the hash table have fuel, as in the table itself; `none` stands for a table
  that throws or has not ended.  Syncs and the flush threshold are left out, and so is the merge
  that a rotation enqueues: what is said about runs is said of those in which no segment comes to
  its limit.
-/
import Otterbrix.Lib.Fuel
import Otterbrix.Lib.OrderedMap
import Otterbrix.Index.BitcaskRecord
import Otterbrix.Index.DiskHashTable

namespace Otterbrix
namespace Index

open Bytes

/-! ## The files -/

/-- The parameters of an index. -/
structure BitcaskConfig (K : Type) extends BitcaskFormat K where
  /-- `hash_key`, with the seed of the hash file. -/
  hash : Bytes → UInt32
  overloaded : Nat → Nat → Bool
  targetBuckets : Nat → Nat
  segmentRecordLimit : Nat

/-- `regular_segment_id_start_`. -/
def regularSegmentIdStart : Nat := 2

/-- The files of an index. -/
structure BitcaskFiles where
  /-- `bitcask.<id>.data` -/
  segments : OrderedMap Nat Bytes := .empty
  /-- `hash_index.bin` -/
  hash : DiskHashTable
  /-- `CURRENT` -/
  current : Option Nat := none
  /-- `bitcask.merge` -/
  manifest : Option (Nat × List Nat) := none
  /-- `bitcask.txn.log` -/
  txnLog : Option Bytes := none
  /-- `bitcask.txn.applied`; 0 if it is not there -/
  appliedOffset : Nat := 0

/-- `bitcask_index_disk_t`: the files and what it keeps in memory. -/
structure Bitcask extends BitcaskFiles where
  activeSegmentId : Nat
  activeSegmentRecords : Nat
  nextSegmentId : Nat
  nextTimestamp : UInt64
  bulkMode : Bool := false

/-- Why an index is not opened. -/
inductive BitcaskError where
  /-- `create` returns an error, the constructor aborts -/
  | crcMismatch
  /-- an exception that nobody catches -/
  | throws
  /-- `std::abort` -/
  | aborts
deriving DecidableEq

namespace BitcaskConfig

variable {K : Type} (cfg : BitcaskConfig K)

/-- `read_rows_at`. -/
def readRowsAt (segments : OrderedMap Nat Bytes) (segmentId : UInt32) (valueOffset : UInt64) :
    ReadStep K :=
  match segments.get? segmentId.toNat with
  | none => .unread
  | some bytes => cfg.toBitcaskFormat.readRowsAt bytes valueOffset.toNat

/-- The hash table's view of the index, with `load_hash_key_at` as key loader.  It is that of the code
    for references at which nothing is thrown. -/
def env (segments : OrderedMap Nat Bytes) : Env where
  hash := cfg.hash
  keyLoader segmentId valueOffset :=
    (cfg.readRowsAt segments segmentId valueOffset).key?.map cfg.keyBytes
  overloaded := cfg.overloaded
  targetBuckets := cfg.targetBuckets

/-- The loop of `erase_all_refs_for_key`. -/
def eraseRefs (segments : OrderedMap Nat Bytes) (fuel : Nat) (keyBytes : Bytes) :
    Nat → DiskHashTable → Option DiskHashTable
  | 0, _ => none
  | steps + 1, t => do
      let (erased, t) ← t.erase (cfg.env segments) fuel keyBytes none
      if erased then eraseRefs segments fuel keyBytes steps t else some t

/-- `erase_all_refs_for_key`. -/
def eraseAllRefsForKey (segments : OrderedMap Nat Bytes) (t : DiskHashTable) (keyBytes : Bytes)
    (fuel : Nat) : Option DiskHashTable :=
  cfg.eraseRefs segments fuel keyBytes fuel t

/-- What a reference says of the rows: the last one, or −1. -/
def refValue (rows : List UInt64) : UInt64 := rows.getLast?.getD (0 - 1)

/-- The reference to the rows of a key is put into the hash table. -/
def putRef (segments : OrderedMap Nat Bytes) (t : DiskHashTable) (keyBytes : Bytes)
    (rows : List UInt64) (segmentId offset fuel : Nat) : Option DiskHashTable :=
  t.put (cfg.env segments) fuel keyBytes (refValue rows) (UInt32.ofNat segmentId)
    (UInt64.ofNat offset)

/-! ## Writing -/

/-- `open_active_segment`. -/
def openActiveSegment (st : Bitcask) : Bitcask :=
  { st with
    segments := if (st.segments.get? st.activeSegmentId).isSome then st.segments
      else st.segments.insert st.activeSegmentId []
    current := some st.activeSegmentId }

/-- `rotate_active_segment`, without the merge. -/
def rotateActiveSegment (st : Bitcask) : Bitcask :=
  openActiveSegment { st with
    activeSegmentId := st.nextSegmentId
    activeSegmentRecords := 0
    nextSegmentId := (st.nextSegmentId + 1) % 2 ^ 64 }

/-- `rotate_active_segment_if_needed`. -/
def rotateActiveSegmentIfNeeded (st : Bitcask) : Bitcask :=
  if !st.bulkMode && cfg.segmentRecordLimit ≤ st.activeSegmentRecords then rotateActiveSegment st
  else st

/-- The bytes of the active segment. -/
def activeBytes (st : Bitcask) : Bytes := (st.segments.get? st.activeSegmentId).getD []

/-- A record is written behind the active segment. -/
def writeRecord (st : Bitcask) (kind : UInt8) (key : K) (rows : List UInt64) : Bitcask :=
  { st with
    segments := st.segments.insert st.activeSegmentId
      (activeBytes st ++ cfg.encodeRecord kind (st.nextTimestamp + 1) (cfg.serializePayload key rows))
    nextTimestamp := st.nextTimestamp + 1 }

/-- `append_snapshot`. -/
def appendSnapshot (st : Bitcask) (key : K) (rows : List UInt64) (fuel : Nat) : Option Bitcask := do
  let st := cfg.rotateActiveSegmentIfNeeded st
  let offset := (activeBytes st).length
  let st := cfg.writeRecord st valueKind key rows
  let hash ← cfg.eraseAllRefsForKey st.segments st.hash (cfg.keyBytes key) fuel
  let hash ← cfg.putRef st.segments hash (cfg.keyBytes key) rows st.activeSegmentId
    (offset + recordHeaderSize) fuel
  return { st with hash := hash, activeSegmentRecords := st.activeSegmentRecords + 1 }

/-- `append_tombstone`. -/
def appendTombstone (st : Bitcask) (key : K) (fuel : Nat) : Option Bitcask := do
  let st := cfg.rotateActiveSegmentIfNeeded st
  let st := cfg.writeRecord st tombstoneKind key []
  let hash ← cfg.eraseAllRefsForKey st.segments st.hash (cfg.keyBytes key) fuel
  return { st with hash := hash, activeSegmentRecords := st.activeSegmentRecords + 1 }

/-- The rows a reference leads to. -/
def refRows (segments : OrderedMap Nat Bytes) : Option ValueRef → Option (List UInt64)
  | none => some []
  | some ref => (cfg.readRowsAt segments ref.logFileId ref.logOffset).rows?

/-- `current_rows` and `find`: the rows of the first reference. -/
def find (st : Bitcask) (key : K) (fuel : Nat) : Option (List UInt64) :=
  (st.hash.getAll (cfg.env st.segments) fuel (cfg.keyBytes key)).bind fun refs =>
    cfg.refRows st.segments refs.head?

/-- `insert`. -/
def insert (st : Bitcask) (key : K) (row : UInt64) (fuel : Nat) : Option Bitcask := do
  let rows ← cfg.find st key fuel
  if row ∈ rows then some st else cfg.appendSnapshot st key (rows ++ [row]) fuel

/-- `remove` of a row of a key. -/
def remove (st : Bitcask) (key : K) (row : UInt64) (fuel : Nat) : Option Bitcask := do
  let rows ← cfg.find st key fuel
  if row ∉ rows then some st
  else
    let left := rows.filter (· ≠ row)
    if left.isEmpty then cfg.appendTombstone st key fuel else cfg.appendSnapshot st key left fuel

/-- `remove` of a key. -/
def removeKey (st : Bitcask) (key : K) (fuel : Nat) : Option Bitcask := do
  let refs ← st.hash.getAll (cfg.env st.segments) fuel (cfg.keyBytes key)
  if refs.isEmpty then some st else cfg.appendTombstone st key fuel

/-! ## Loading -/

/-- `apply_merge_recovery_cleanup`. -/
def applyMergeRecoveryCleanup (files : BitcaskFiles) : BitcaskFiles :=
  match files.manifest with
  | none => files
  | some (merged, removed) =>
      if (files.segments.get? merged).isNone then { files with manifest := none }
      else { files with segments := removed.foldl OrderedMap.erase files.segments }

/-- The records of the segments in the order in which they are loaded, and how that ends. -/
def loadSegments : List (Nat × Bytes) → List (Nat × LogRecord K) × LoadEnd
  | [] => ([], .complete)
  | (id, bytes) :: segments =>
      match cfg.parseSegment bytes with
      | (records, .complete) =>
          let (rest, loadEnd) := loadSegments segments
          (records.map (id, ·) ++ rest, loadEnd)
      | (records, loadEnd) => (records.map (id, ·), loadEnd)

/-- What a record does to the hash table when it is loaded. -/
def loadRecord (segments : OrderedMap Nat Bytes) (fuel : Nat) (t : DiskHashTable)
    (r : Nat × LogRecord K) : Option DiskHashTable := do
  let t ← cfg.eraseAllRefsForKey segments t (cfg.keyBytes r.2.key) fuel
  if r.2.tombstone then some t
  else cfg.putRef segments t (cfg.keyBytes r.2.key) r.2.rows r.1 r.2.offset fuel

/-- The segment that `load_from_disk` makes the active one: the one that `CURRENT` names, else the
    last. -/
def activeSegment (files : BitcaskFiles) : Nat :=
  match files.segments.entries.getLast? with
  | none => regularSegmentIdStart
  | some (last, _) =>
      match files.current with
      | none => last
      | some id => if (files.segments.get? id).isSome then id else last

/-- The state at the end of `load_from_disk`. -/
def loaded (files : BitcaskFiles) (records : List (Nat × LogRecord K)) : Bitcask :=
  let active := activeSegment files
  { files with
    activeSegmentId := active
    activeSegmentRecords := (records.filter fun r => r.1 = active).length
    nextSegmentId := match files.segments.entries.getLast? with
      | none => regularSegmentIdStart + 1
      | some (last, _) => (last + 1) % 2 ^ 64
    nextTimestamp := records.foldl (fun t r => max t r.2.timestamp) 0 }

/-- `load_from_disk`, from the opened hash file on. -/
def loadFromDisk (files : BitcaskFiles) (fuel : Nat) : Option (Except BitcaskError Bitcask) := do
  let files := applyMergeRecoveryCleanup files
  let (records, loadEnd) := cfg.loadSegments files.segments.entries
  let hash ← records.foldlM (cfg.loadRecord files.segments fuel)
    { files.hash with suppressAutoRehash := true }
  match loadEnd with
  | .corrupt => return .error .crcMismatch
  | .throws => return .error .throws
  | .complete =>
      let hash ← { hash with suppressAutoRehash := false }.maybeRehash (cfg.env files.segments) fuel
      return .ok (loaded { files with hash := hash } records)

end BitcaskConfig
end Index
end Otterbrix
