/-
  Otterbrix.Wal.Reader

  `wal_reader_t`: the committed records of all databases, for replay.

  Every database directory has its own segments.  They are read in the order of
  their names, up to and including the first one with a bad page; a record is
  kept if it is a system record (transaction 0) or if a COMMIT marker of its
  transaction id was read from the same directory.

  The order of the names is the order of the segment indices (six digits,
  zero-padded).
-/
import Otterbrix.Wal.PageReader

namespace Otterbrix
namespace Wal

variable {Chunk : Type}

/-- The segment files of a database directory, with their indices, in the order
    of `discover_segments`. -/
abbrev Directory := List (Nat × Bytes)

/-! ## The two-pass filter -/

/-- Pass 1: transaction ids of the valid COMMIT markers. -/
def committedTxns (records : List (Record Chunk)) : List UInt64 :=
  (records.filter fun r => r.isCommitMarker && r.isValid).map Record.transactionId

/-- Pass 2: valid records of those transactions, and system records. -/
def committedOnly (records : List (Record Chunk)) : List (Record Chunk) :=
  records.filter fun r =>
    r.isValid && (r.transactionId == 0 || (committedTxns records).contains r.transactionId)

theorem mem_committedTxns {records : List (Record Chunk)} {txn : UInt64} :
    txn ∈ committedTxns records ↔
      ∃ m ∈ records, m.isCommitMarker = true ∧ m.isValid = true ∧ m.transactionId = txn := by
  simp [committedTxns, and_assoc]

theorem mem_committedOnly {records : List (Record Chunk)} {r : Record Chunk} :
    r ∈ committedOnly records ↔
      r ∈ records ∧ r.isValid = true ∧
        (r.transactionId = 0 ∨ r.transactionId ∈ committedTxns records) := by
  simp [committedOnly]

/-- The result is sorted by wal id. -/
def sortById (records : List (Record Chunk)) : List (Record Chunk) :=
  records.mergeSort fun a b => decide (a.id ≤ b.id)

@[simp] theorem mem_sortById {records : List (Record Chunk)} {r : Record Chunk} :
    r ∈ sortById records ↔ r ∈ records :=
  List.mem_mergeSort

/-! ## Reading segments -/

/-- The segments one after the other; reading stops after the first one that
    has a bad page. -/
def readUntilBroken (c : Codec Chunk) (after : UInt64) :
    List Bytes → Option (List (Record Chunk))
  | [] => some []
  | file :: files =>
      match readAllRecords c after file with
      | none => none
      | some records =>
          if verifyChain c file then (readUntilBroken c after files).map (records ++ ·)
          else some records

/-- `read_database_segments`. -/
def readDatabaseSegments (c : Codec Chunk) (after : UInt64) (dir : Directory) :
    Option (List (Record Chunk)) :=
  (readUntilBroken c after (dir.map Prod.snd)).map committedOnly

/-- The loop of `read_committed_records` over the database directories. -/
def readDatabases (c : Codec Chunk) (after : UInt64) :
    List Directory → Option (List (Record Chunk))
  | [] => some []
  | dir :: dirs =>
      match readDatabaseSegments c after dir with
      | none => none
      | some records => (readDatabases c after dirs).map (records ++ ·)

/-- `read_committed_records`. -/
def readCommittedRecords (c : Codec Chunk) (after : UInt64) (dirs : List Directory) :
    Option (List (Record Chunk)) :=
  (readDatabases c after dirs).map sortById

end Wal
end Otterbrix
