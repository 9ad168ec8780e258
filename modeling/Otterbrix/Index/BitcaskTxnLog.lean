/-
  Otterbrix.Index.BitcaskTxnLog

  The opening of a bitcask index, with the recovery of its transaction log: it goes over the
  frames behind the place that is noted as applied and applies those whose transactions are
  committed.

  A frame that is cut off at the end of the log ends the loop; a wrong magic number, a wrong
  checksum or an unknown kind aborts the process.
-/
import Otterbrix.Index.BitcaskIndex

namespace Otterbrix
namespace Index

open Bytes

/-! ## Frames -/

/-- `txn_magic`. -/
def txnMagic : UInt32 := 0x314E5854

def frameHeaderSize : Nat := 32

/-- `op_kind`. -/
inductive TxnOp where
  | insert
  | delete
deriving DecidableEq

def TxnOp.code : TxnOp → UInt8
  | .insert => 1
  | .delete => 2

/-- What is found at a place of the log. -/
inductive FrameStep where
  /-- the loop ends -/
  | stop
  | fails (error : BitcaskError)
  | frame (txnId : UInt64) (op : TxnOp) (payload : Bytes)

namespace BitcaskFormat

variable {K : Type} (fmt : BitcaskFormat K)

/-- One turn of the loop of `recover_txn_log_unlocked`; `bytes` is the rest of the log. -/
def parseFrame (bytes : Bytes) : FrameStep :=
  if bytes.length < frameHeaderSize then .stop
  else if readLe32 bytes ≠ txnMagic then .fails .aborts
  else
    let size := (readLe64 (bytes.drop 24)).toNat
    -- the payload is allocated before its length is checked
    if !fmt.allocates size then .fails .throws
    else if bytes.length < frameHeaderSize + size then .stop
    else if fmt.crc ((bytes.take (frameHeaderSize + size)).drop 8) ≠ readLe32 (bytes.drop 4) then
      .fails .aborts
    else
      let payload := (bytes.drop frameHeaderSize).take size
      let txnId := readLe64 (bytes.drop 8)
      let op := bytes[16]?.getD 0
      if op = TxnOp.insert.code then .frame txnId .insert payload
      else if op = TxnOp.delete.code then .frame txnId .delete payload
      else .fails .aborts

/-- The keys and rows of a payload; a short read throws. -/
def readValues : Nat → Bytes → Option (List (K × UInt64))
  | 0, _ => some []
  | n + 1, bytes => do
      let (key, rest) ← fmt.read bytes
      if rest.length < 8 then none
      else
        let values ← readValues n (rest.drop 8)
        return (key, readLe64 rest) :: values

/-- The values of a frame. -/
def decodeFrame (payload : Bytes) : Option (List (K × UInt64)) :=
  if payload.length < 4 then none else fmt.readValues (readLe32 payload).toNat (payload.drop 4)

end BitcaskFormat

namespace BitcaskConfig

variable {K : Type} (cfg : BitcaskConfig K)

/-! ## Recovery -/

/-- One value of a frame. -/
def applyValue (op : TxnOp) (fuel : Nat) (st : Bitcask) (value : K × UInt64) : Option Bitcask :=
  match op with
  | .insert => cfg.insert st value.1 value.2 fuel
  | .delete => cfg.remove st value.1 value.2 fuel

/-- The loop of `recover_txn_log_unlocked`; `bytes` is the log from `offset` on. -/
def recoverFrom (committed : UInt64 → Bool) (fuel : Nat) :
    Nat → Bitcask → Nat → Bytes → Option (Except BitcaskError Bitcask)
  | 0, st, _, _ => some (.ok st)
  | steps + 1, st, offset, bytes =>
      match cfg.parseFrame bytes with
      | .stop => some (.ok st)
      | .fails error => some (.error error)
      | .frame txnId op payload =>
          let size := frameHeaderSize + payload.length
          let next := fun st => recoverFrom committed fuel steps
            { st with appliedOffset := offset + size } (offset + size) (bytes.drop size)
          if committed txnId then
            match cfg.decodeFrame payload with
            | none => some (.error .throws)
            | some values => values.foldlM (cfg.applyValue op fuel) st >>= next
          else next st

/-- `recover_txn_log_unlocked`. -/
def recoverTxnLog (committed : UInt64 → Bool) (st : Bitcask) (fuel : Nat) :
    Option (Except BitcaskError Bitcask) :=
  match st.txnLog with
  | none => some (.ok st)
  | some log =>
      cfg.recoverFrom committed fuel (log.length + 1) st st.appliedOffset (log.drop st.appliedOffset)

/-- `create`: the hash file is opened, the segments are loaded, the active one is opened and the log
    is recovered. -/
def openIndex (files : BitcaskFiles) (committed : UInt64 → Bool) (fuel : Nat) :
    Option (Except BitcaskError Bitcask) := do
  let hash ← files.hash.reopen fuel
  let result ← cfg.loadFromDisk { files with hash := hash } fuel
  match result with
  | .error error => return .error error
  | .ok st => cfg.recoverTxnLog committed (openActiveSegment st) fuel

end BitcaskConfig
end Index
end Otterbrix
