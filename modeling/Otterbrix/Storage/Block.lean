/-
  Otterbrix.Storage.Block

  The blocks of an `.otbx` file: `file_buffer_t`, and the part of
  `single_file_block_manager_t` that hands out block ids and moves blocks between
  memory and the file.

  A block in memory is a checksum slot of eight bytes followed by the payload, both
  inside one allocation that is a whole number of sectors.  In the file, block `i` has
  the allocation-sized place number `i` behind the three header sectors.
-/
import Otterbrix.Lib.Memory
import Otterbrix.Lib.OrderedSet
import Mathlib.Logic.Function.Basic

namespace Otterbrix
namespace Storage

def sectorSize : Nat := 4096
def defaultBlockHeaderSize : Nat := 8
def defaultBlockAllocSize : Nat := 2 ^ 18

/-! ## Sizes -/

/-- `file_buffer_t::calculate_memory` of a block: the allocation for `userSize` bytes. -/
def calculateMemory (userSize : Nat) : Nat :=
  (defaultBlockHeaderSize + userSize + (sectorSize - 1)) / sectorSize * sectorSize

/-- The block allocation size of a file, a whole number of sectors. -/
structure Geometry where
  blockAllocSize : Nat
  sectors : sectorSize ∣ blockAllocSize
  pos : 0 < blockAllocSize

namespace Geometry

variable (g : Geometry)

/-- `block_manager_t::block_size`. -/
def blockSize : Nat := g.blockAllocSize - defaultBlockHeaderSize

/-- `size_` of a `block_t`: what its buffer holds behind the checksum slot. -/
def bufferSize : Nat := calculateMemory g.blockSize - defaultBlockHeaderSize

theorem sectorSize_le : sectorSize ≤ g.blockAllocSize := Nat.le_of_dvd g.pos g.sectors

/-- The allocation of a block is the block allocation size. -/
theorem calculateMemory_blockSize : calculateMemory g.blockSize = g.blockAllocSize := by
  obtain ⟨k, hk⟩ := g.sectors
  have hle := g.sectorSize_le
  unfold calculateMemory blockSize sectorSize defaultBlockHeaderSize at *
  omega

theorem bufferSize_eq : g.bufferSize = g.blockAllocSize - 8 := by
  rw [bufferSize, calculateMemory_blockSize]
  rfl

end Geometry

/-- The geometry every `table_storage_t` is opened with. -/
def defaultGeometry : Geometry where
  blockAllocSize := defaultBlockAllocSize
  sectors := by decide
  pos := by decide

/-! ## The file -/

/-- The places of the blocks behind the header sectors.  A place that was never written holds
    whatever the file system returns for it. -/
structure File where
  blocks : Nat → Bytes

/-! ## The block manager -/

/-- `single_file_block_manager_t`, with the file behind its handle. -/
structure BlockManager where
  file : File
  freeList : OrderedSet Nat := OrderedSet.empty
  maxBlock : Nat := 0

namespace BlockManager

/-- `free_block_id`. -/
def freeBlockId (bm : BlockManager) : Nat × BlockManager :=
  match bm.freeList.front? with
  | some blockId => (blockId, { bm with freeList := bm.freeList.erase blockId })
  | none => (bm.maxBlock, { bm with maxBlock := bm.maxBlock + 1 })

/-- `peek_free_block_id`. -/
def peekFreeBlockId (bm : BlockManager) : Nat :=
  match bm.freeList.front? with
  | some blockId => blockId
  | none => bm.maxBlock

variable (crc : Bytes → UInt32)

/-- `checksum_and_write`: the slot, then the payload. -/
def checksumAndWrite (bm : BlockManager) (blockId : Nat) (payload : Bytes) : BlockManager :=
  { bm with
    file := { bm.file with
      blocks := Function.update bm.file.blocks blockId
        (Bytes.writeLe64 (crc payload).toUInt64 ++ payload) } }

end BlockManager

/-- `verify_checksum` of what a block's place holds. -/
def verifyChecksum (crc : Bytes → UInt32) (internal : Bytes) : Bool :=
  Bytes.readLe64 internal == (crc (internal.drop 8)).toUInt64

variable {crc : Bytes → UInt32}

theorem verifyChecksum_write (payload : Bytes) :
    verifyChecksum crc (Bytes.writeLe64 (crc payload).toUInt64 ++ payload) = true := by
  unfold verifyChecksum
  rw [Bytes.readLe64_writeLe64_append, Bytes.drop_writeLe64_append]
  exact beq_self_eq_true _

namespace BlockManager

variable {bm : BlockManager}

theorem freeBlockId_fst : bm.freeBlockId.1 = bm.peekFreeBlockId := by
  unfold freeBlockId peekFreeBlockId
  cases bm.freeList.front? <;> rfl

end BlockManager

end Storage
end Otterbrix
