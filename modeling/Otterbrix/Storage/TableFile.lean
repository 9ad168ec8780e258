/-
  Otterbrix.Storage.TableFile

  Where the segments of a table go in its file: `partial_block_manager_t` packs the bytes
  of small segments into shared blocks, and a segment that `transition_segment_to_disk`
  moves gets a block of its own.
-/
import Otterbrix.Lib.LittleEndian
import Otterbrix.Storage.Block

namespace Otterbrix
namespace Storage

/-! ## Partial blocks -/

/-- `partial_block_t`; the capacity is the block size. -/
structure PartialBlock where
  blockId : Nat
  usedBytes : Nat
deriving DecidableEq

/-- `partial_block_manager_t`, with the block manager it allocates from. -/
structure PartialBlockManager where
  blockManager : BlockManager
  partialBlocks : List PartialBlock := []
  blockBuffers : List (Nat × Memory) := []

/-- `FULL_THRESHOLD` of the block payload: a larger segment has a block of its own. -/
def Geometry.fullThreshold (g : Geometry) : Nat := g.blockSize * 8 / 10

namespace PartialBlockManager

variable (g : Geometry) (crc : Bytes → UInt32)

/-- The first partial block with enough room takes the segment. -/
def fit (segmentSize : Nat) : List PartialBlock → Option (Nat × Nat × List PartialBlock)
  | [] => none
  | pb :: rest =>
      if segmentSize ≤ g.blockSize - pb.usedBytes then
        some (pb.blockId, pb.usedBytes,
          { pb with usedBytes := pb.usedBytes + segmentSize } :: rest)
      else (fit segmentSize rest).map fun r => (r.1, r.2.1, pb :: r.2.2)

/-- `get_block_allocation`: a block and an offset in it. -/
def getBlockAllocation (m : PartialBlockManager) (segmentSize : Nat) :
    (Nat × Nat) × PartialBlockManager :=
  if g.fullThreshold < segmentSize then
    let (blockId, blockManager) := m.blockManager.freeBlockId
    ((blockId, 0), { m with blockManager := blockManager })
  else
    match fit g segmentSize m.partialBlocks with
    | some (blockId, offset, partialBlocks) =>
        ((blockId, offset), { m with partialBlocks := partialBlocks })
    | none =>
        let (blockId, blockManager) := m.blockManager.freeBlockId
        ((blockId, 0),
          { m with
            blockManager := blockManager
            partialBlocks := m.partialBlocks ++ [⟨blockId, segmentSize⟩] })

/-- A store in the buffer kept for a block, which starts out zero. -/
def storeIn (blockId offset : Nat) (bytes : Bytes) : List (Nat × Memory) → List (Nat × Memory)
  | [] => [(blockId, Memory.zero.store offset bytes)]
  | (id, buffer) :: rest =>
      if id = blockId then (id, buffer.store offset bytes) :: rest
      else (id, buffer) :: storeIn blockId offset bytes rest

/-- `write_to_block`. -/
def writeToBlock (m : PartialBlockManager) (blockId offset : Nat) (bytes : Bytes) :
    PartialBlockManager :=
  { m with blockBuffers := storeIn blockId offset bytes m.blockBuffers }

/-- `flush_partial_blocks`. -/
def flushPartialBlocks (m : PartialBlockManager) : BlockManager :=
  m.blockBuffers.foldl (fun bm b => bm.checksumAndWrite crc b.1 (b.2.load 0 g.bufferSize))
    m.blockManager

end PartialBlockManager

/-! ## Blocks of one segment -/

variable (g : Geometry) (crc : Bytes → UInt32)

/-- `transition_segment_to_disk`: the payload goes to a block of its own. -/
def transitionSegment (bm : BlockManager) (payload : Bytes) : BlockManager :=
  let (blockId, bm) := bm.freeBlockId
  bm.checksumAndWrite crc blockId ((Memory.zero.store 0 payload).load 0 g.bufferSize)

end Storage
end Otterbrix
