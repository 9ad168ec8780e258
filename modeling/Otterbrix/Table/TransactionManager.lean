/-
  Otterbrix.Table.TransactionManager

  The commit clock of the engine (`transaction_manager_t`) and the visibility
  filter that reads its snapshots (`transaction_version_operator`).

  Every public operation takes the manager's lock for its whole body, so one
  operation is one atomic step and a concurrent run is a sequence of steps.
  `uint64_t` counters wrap: additions are taken modulo `2 ^ 64`.
-/
import Mathlib.Algebra.Group.Nat.Defs
import Mathlib.Data.List.AList
import Otterbrix.Lib.OrderedSet

namespace Otterbrix
namespace Table

/-- Width of the stamps: `uint64_t` arithmetic is modulo this. -/
def uint64Size : Nat := 2 ^ 64

/-- `TRANSACTION_ID_START`: stamps at or above it are ids of pending transactions. -/
def transactionIdStart : Nat := 4611686018427388000

/-- `NOT_DELETED_ID`: the delete stamp of a row nobody deleted. -/
def notDeletedId : Nat := uint64Size - 2

/-- `transaction_data`: a transaction's id and its MVCC snapshot.  The defaults
    make the see-all view that recovery and replay read through. -/
structure TransactionData where
  transactionId : Nat := 0
  startTime : Nat := 0
  snapshotHorizon : Nat := uint64Size - 1
  inFlightSnapshot : List Nat := []
  deriving Repr, DecidableEq

/-! ## Visibility filter -/

/-- `transaction_version_operator::use_inserted_version`. -/
def useInsertedVersion (txn : TransactionData) (id : Nat) : Bool :=
  if txn.transactionId ≠ 0 ∧ id = txn.transactionId then true
  else if id ≥ transactionIdStart then false
  else if id > txn.snapshotHorizon then false
  else if OrderedSet.binarySearch txn.inFlightSnapshot id then false
  else true

/-- `transaction_version_operator::use_deleted_version`. -/
def useDeletedVersion (txn : TransactionData) (id : Nat) : Bool :=
  !useInsertedVersion txn id

/-- A commit id (below the band of transaction ids) is visible to a snapshot
    when it is at most the horizon and was not in flight. -/
theorem useInsertedVersion_commit_iff {txn : TransactionData} {c : Nat}
    (hc : c < transactionIdStart)
    (hid : txn.transactionId = 0 ∨ transactionIdStart ≤ txn.transactionId)
    (hs : txn.inFlightSnapshot.Pairwise (· < ·)) :
    useInsertedVersion txn c = true ↔
      c ≤ txn.snapshotHorizon ∧ c ∉ txn.inFlightSnapshot := by
  have hself : ¬(txn.transactionId ≠ 0 ∧ c = txn.transactionId) := by
    rintro ⟨h0, rfl⟩
    omega
  have hmem := OrderedSet.binarySearch_iff_mem hs c
  unfold useInsertedVersion
  rw [if_neg hself, if_neg (not_le.mpr hc)]
  split_ifs with hgt hin
  · simp only [false_iff, not_and]
    omega
  · simp [hmem.mp hin]
  · simp only [true_iff]
    exact ⟨by omega, fun h => hin (hmem.mpr h)⟩

/-- A pending stamp is visible to nobody but the transaction that wrote it. -/
theorem useInsertedVersion_pending_iff {txn : TransactionData} {id : Nat}
    (hid : transactionIdStart ≤ id) :
    useInsertedVersion txn id = true ↔ id = txn.transactionId := by
  have hpos : 0 < transactionIdStart := by decide
  unfold useInsertedVersion
  split_ifs with hself
  · simp [hself.2]
  · simp only [false_iff]
    intro h
    exact hself ⟨by omega, h⟩

/-! ## The manager -/

/-- State of `transaction_manager_t`.  `active` maps a session to the data of
    the transaction it runs; a transaction leaves it on commit and on abort. -/
structure TransactionManager where
  nextTransactionId : Nat
  currentTimestamp : Nat
  active : AList (fun _ : Nat => TransactionData)
  activeStartTimes : OrderedSet Nat
  inFlightCommits : OrderedSet Nat
  publishedHorizon : Nat

namespace TransactionManager

/-- The manager of a fresh process. -/
def initial : TransactionManager where
  nextTransactionId := transactionIdStart
  currentTimestamp := 1
  active := ∅
  activeStartTimes := OrderedSet.empty
  inFlightCommits := OrderedSet.empty
  publishedHorizon := 0

/-- The snapshot part of `begin_transaction` and `take_snapshot`. -/
def snapshot (m : TransactionManager) (transactionId startTime : Nat) : TransactionData where
  transactionId := transactionId
  startTime := startTime
  snapshotHorizon := m.publishedHorizon
  inFlightSnapshot := m.inFlightCommits.toList

/-- `begin_transaction`: a session that already runs a transaction gets it back. -/
def beginTransaction (m : TransactionManager) (session : Nat) :
    TransactionManager × TransactionData :=
  match m.active.lookup session with
  | some txn => (m, txn)
  | none =>
      let txn := m.snapshot m.nextTransactionId m.currentTimestamp
      ({ m with
          nextTransactionId := (m.nextTransactionId + 1) % uint64Size
          currentTimestamp := (m.currentTimestamp + 1) % uint64Size
          active := m.active.insert session txn
          activeStartTimes := m.activeStartTimes.insert m.currentTimestamp }, txn)

/-- `commit`: allocates the commit id and leaves it in flight; `0` when the
    session runs no transaction. -/
def commit (m : TransactionManager) (session : Nat) : TransactionManager × Nat :=
  match m.active.lookup session with
  | none => (m, 0)
  | some txn =>
      ({ m with
          currentTimestamp := (m.currentTimestamp + 1) % uint64Size
          active := m.active.erase session
          activeStartTimes := m.activeStartTimes.erase txn.startTime
          inFlightCommits := m.inFlightCommits.insert m.currentTimestamp }, m.currentTimestamp)

/-- `publish`: the id leaves the in-flight set and the horizon advances to it. -/
def publish (m : TransactionManager) (commitId : Nat) : TransactionManager :=
  { m with
    inFlightCommits := m.inFlightCommits.erase commitId
    publishedHorizon :=
      if commitId > m.publishedHorizon then commitId else m.publishedHorizon }

/-- `abort`. -/
def abort (m : TransactionManager) (session : Nat) : TransactionManager :=
  match m.active.lookup session with
  | none => m
  | some txn =>
      { m with
        active := m.active.erase session
        activeStartTimes := m.activeStartTimes.erase txn.startTime }

/-- `take_snapshot`, read through a `transaction_data` of no transaction. -/
def takeSnapshot (m : TransactionManager) : TransactionData := m.snapshot 0 0

/-- `restore_commit_clock`: raises both halves of the clock past a durable frontier. -/
def restoreCommitClock (m : TransactionManager) (frontier : Nat) : TransactionManager :=
  let next := (frontier + 1) % uint64Size
  { m with
    currentTimestamp := if next > m.currentTimestamp then next else m.currentTimestamp
    publishedHorizon := if frontier > m.publishedHorizon then frontier else m.publishedHorizon }

/-- `lowest_active_snapshot_horizon`. -/
def lowestActiveSnapshotHorizon (m : TransactionManager) : Nat :=
  match m.active.entries with
  | [] => m.publishedHorizon
  | es => es.foldl (fun lowest e => if e.2.snapshotHorizon < lowest
      then e.2.snapshotHorizon else lowest) (uint64Size - 1)

/-- `min(watermark, ids.front() - 1)` in `uint64_t`, for a nonempty sorted range. -/
def capBelow (watermark : Nat) (front : Option Nat) : Nat :=
  match front with
  | none => watermark
  | some i => min watermark ((i + uint64Size - 1) % uint64Size)

/-- One turn of the loop of `compact_watermark` over the active transactions. -/
def capByTransaction (watermark : Nat) (data : TransactionData) : Nat :=
  capBelow (min watermark data.snapshotHorizon) data.inFlightSnapshot.head?

/-- `compact_watermark`. -/
def compactWatermark (m : TransactionManager) : Nat :=
  m.active.entries.foldl (fun w e => capByTransaction w e.2)
    (capBelow m.publishedHorizon m.inFlightCommits.front?)

end TransactionManager
end Table
end Otterbrix
