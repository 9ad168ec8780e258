/-
  Otterbrix.Table.StringSegment

  A new segment of strings (`column_segment_t` of type STRING): behind a header of 20 bytes an
  array of 32-bit offsets grows upwards, and from the end of the segment the dictionary with the
  strings grows downwards.  The offset of a row is the size of the dictionary once the row is in;
  a row's string starts there, and its length is the distance to the offset of the row before.

  A string of at least `string_block_limit` bytes goes to an overflow block.  The dictionary then
  has a marker for it, whose size is counted as 8 bytes and which is written with 16, and the row's
  offset is negative.  The readers take the marker's offset for one in the dictionary.
-/
import Otterbrix.Lib.FixedWidth
import Otterbrix.Lib.Memory
import Otterbrix.Storage.Block

namespace Otterbrix
namespace Table

open Storage Bytes

/-! ## Numbers in memory -/

/-- `load<uint32_t>`. -/
def loadU32 (m : Memory) (off : Nat) : Nat := leNat (m.load off 4)

/-- `store<uint32_t>`. -/
def storeU32 (m : Memory) (off n : Nat) : Memory := m.store off (leBytes 4 n)

/-- A load of an `int32_t`. -/
def loadI32 (m : Memory) (off : Nat) : Int := IntType.int32.wrap (loadU32 m off)

/-- A store of an `int32_t`. -/
def storeI32 (m : Memory) (off : Nat) (v : Int) : Memory := storeU32 m off (v % 2 ^ 32).toNat

/-! ## The segment -/

/-- `DICTIONARY_HEADER_SIZE`. -/
def dictionaryHeaderSize : Nat := 20

/-- `BIG_STRING_MARKER_BASE_SIZE`. -/
def bigStringMarkerBaseSize : Nat := 8

/-- `string_block_limit`. -/
def stringBlockLimit (blockSize : Nat) : Nat := min (blockSize / 4 / 8 * 8) 4096

/-- `string_block_t` with the memory of its block. -/
structure StringBlock where
  blockId : UInt64
  offset : Nat
  size : Nat
  memory : Memory

/-- `column_segment_t` of a new string segment: its block and, newest first, its overflow blocks. -/
structure StringSegment where
  count : Nat := 0
  buffer : Memory
  segmentSize : Nat
  overflow : List StringBlock := []
  /-- How often an overflow block has been asked for. -/
  requests : Nat := 0

/-- What the buffer manager does on each request: `none` if it is out of memory, else the id of the
    block if one is allocated. -/
abbrev BufferManager := Nat → Option UInt64

namespace StringSegment

/-- `create_segment`: the size and the end of the dictionary are set, the rest of the memory is
    not initialised. -/
def create (g : Geometry) (memory : Memory) : StringSegment where
  buffer := storeU32 (storeU32 memory 0 0) 4 g.blockSize
  segmentSize := g.blockSize

/-- `dictionary.size`. -/
def dictionarySize (s : StringSegment) : Nat := loadU32 s.buffer 0

/-- `dictionary.end`. -/
def dictionaryEnd (s : StringSegment) : Nat := loadU32 s.buffer 4

/-- `result_data[i]` and `base_data[i]`: the offset of a row. -/
def offsetAt (s : StringSegment) (i : Nat) : Int := loadI32 s.buffer (dictionaryHeaderSize + 4 * i)

/-- A store to `result_data[i]`. -/
def setOffset (s : StringSegment) (i : Nat) (v : Int) : StringSegment :=
  { s with buffer := storeI32 s.buffer (dictionaryHeaderSize + 4 * i) v }

/-- `*dictionary_size += n`, and the bytes at the new start of the dictionary. -/
def pushDictionary (s : StringSegment) (n : Nat) (bytes : Bytes) : StringSegment :=
  let size := (s.dictionarySize + n) % 2 ^ 32
  let buffer := storeU32 s.buffer 0 size
  { s with buffer := buffer.store (s.dictionaryEnd - size) bytes }

/-- `remaining_space`. -/
def remainingSpace (s : StringSegment) : Nat :=
  s.segmentSize - (s.dictionarySize + s.count * 4 + dictionaryHeaderSize)

/-- `write_string_memory`: the string goes to the newest overflow block or to a new one; the block
    and the place in it. -/
def writeStringMemory (g : Geometry) (bm : BufferManager) (s : StringSegment) (str : Bytes) :
    Option (StringSegment × UInt64 × Nat) :=
  let totalLength := (str.length + 4) % 2 ^ 32
  let fill (block : StringBlock) : StringBlock :=
    { block with
      offset := block.offset + totalLength
      memory := block.memory.store block.offset (leBytes 4 str.length ++ str) }
  let fresh (blockId : UInt64) : StringBlock :=
    ⟨blockId, 0, max totalLength g.blockSize, Memory.zero⟩
  match bm s.requests with
  | none => none
  | some blockId =>
      let s := { s with requests := s.requests + 1 }
      match s.overflow with
      | [] => some ({ s with overflow := [fill (fresh blockId)] }, blockId, 0)
      | head :: blocks =>
          if head.size ≤ head.offset + totalLength then
            some ({ s with overflow := fill (fresh blockId) :: head :: blocks }, blockId, 0)
          else some ({ s with overflow := fill head :: blocks }, head.blockId, head.offset)

/-- `write_string_marker`: the block and the offset, each in 8 bytes. -/
def stringMarker (block : UInt64) (offset : Nat) : Bytes :=
  writeLe64 block ++ leBytes 8 offset

/-- What a row takes of the dictionary's space. -/
def requiredSpace (g : Geometry) : Option Bytes → Nat
  | none => 0
  | some str => if stringBlockLimit g.blockSize ≤ str.length then bigStringMarkerBaseSize else str.length

/-- One row of `string_append`, once there is room for it; `none` if an overflow block cannot be
    had. -/
def appendRow (g : Geometry) (bm : BufferManager) (s : StringSegment) (target : Nat) :
    Option Bytes → Option StringSegment
  | none => some (s.setOffset target (if 0 < target then s.offsetAt (target - 1) else 0))
  | some str =>
      if stringBlockLimit g.blockSize ≤ str.length then do
        let (s, block, offset) ← s.writeStringMemory g bm str
        let s := s.pushDictionary bigStringMarkerBaseSize (stringMarker block offset)
        pure (s.setOffset target (-s.dictionarySize))
      else
        let s := s.pushDictionary str.length str
        some (s.setOffset target s.dictionarySize)

/-- The loop of `string_append` from row `i` of the call on: the number of rows that were accepted,
    or `none` for an error, which leaves `count` alone. -/
def appendFrom (g : Geometry) (bm : BufferManager) (baseCount : Nat) :
    Nat → Nat → StringSegment → List (Option Bytes) → StringSegment × Option Nat
  | i, _, s, [] => ({ s with count := s.count + i }, some i)
  | i, remaining, s, row :: rows =>
      if remaining < 4 then ({ s with count := s.count + i }, some i)
      else if remaining - 4 < requiredSpace g row then ({ s with count := s.count + i }, some i)
      else
        match s.appendRow g bm (baseCount + i) row with
        | none => ({ s with requests := s.requests + 1 }, none)
        | some s => appendFrom g bm baseCount (i + 1) (remaining - 4 - requiredSpace g row) s rows

/-- `string_append`. -/
def append (g : Geometry) (bm : BufferManager) (s : StringSegment) (rows : List (Option Bytes)) :
    StringSegment × Option Nat :=
  appendFrom g bm s.count 0 s.remainingSpace s rows

/-! ## Readers -/

/-- `fetch_string_location`, with `read_string_marker`; `none` for the exception. -/
def fetchStringLocation (g : Geometry) (s : StringSegment) (dictOffset : Int) : Option Int :=
  if dictOffset + g.blockSize < 0 ∨ (g.blockSize : Int) < dictOffset then none
  else if 0 ≤ dictOffset then some dictOffset
  else some (loadI32 s.buffer (s.dictionaryEnd - dictOffset.natAbs + 8))

/-- `fetch_string_from_dict`, with `fetch_string`. -/
def fetchStringFromDict (g : Geometry) (s : StringSegment) (dictOffset : Int) (stringLength : Nat) :
    Option Bytes :=
  (s.fetchStringLocation g dictOffset).map fun location =>
    if location = 0 then []
    else s.buffer.load ((s.dictionaryEnd : Int) - location).toNat stringLength

/-- The length of a row's string, from its offset and the one before. -/
def stringLength (dictOffset previous : Int) : Nat :=
  (IntType.uint32.wrap (dictOffset.natAbs - previous.natAbs)).toNat

/-- The offset of the row before. -/
def previousOffset (s : StringSegment) (row : Nat) : Int :=
  if row = 0 then 0 else s.offsetAt (row - 1)

/-- `string_fetch_row`. -/
def stringFetchRow (g : Geometry) (s : StringSegment) (row : Nat) : Option Bytes :=
  s.fetchStringFromDict g (s.offsetAt row) (stringLength (s.offsetAt row) (s.previousOffset row))

/-- `string_check_row` with the comparison of a filter. -/
def stringCheckRow (g : Geometry) (s : StringSegment) (row : Nat) (filter : Bytes → Bool) :
    Option Bool :=
  (s.fetchStringFromDict g (s.offsetAt row)
    (stringLength (s.offsetAt row) (s.previousOffset row))).map filter

/-- The loop of `string_scan_partial`: the strings of `n` rows. -/
def scanFrom (g : Geometry) (s : StringSegment) : Nat → Nat → Int → Option (List Bytes)
  | 0, _, _ => some []
  | n + 1, row, previous => do
      let str ← s.fetchStringFromDict g (s.offsetAt row) (stringLength (s.offsetAt row) previous)
      let rest ← s.scanFrom g n (row + 1) (s.offsetAt row)
      pure (str :: rest)

/-- `string_scan_partial`. -/
def stringScanPartial (g : Geometry) (s : StringSegment) (start scanCount : Nat) :
    Option (List Bytes) :=
  s.scanFrom g scanCount start (s.previousOffset start)

/-! ## Runs -/

/-- A call, with the rows accepted so far. -/
def step (g : Geometry) (bm : BufferManager) (state : StringSegment × List (Option Bytes))
    (rows : List (Option Bytes)) : StringSegment × List (Option Bytes) :=
  let (s, result) := state.1.append g bm rows
  (s, state.2 ++ rows.take (result.getD 0))

/-- A new segment after some calls, with the rows they accepted. -/
def run (g : Geometry) (bm : BufferManager) (memory : Memory) (calls : List (List (Option Bytes))) :
    StringSegment × List (Option Bytes) :=
  calls.foldl (step g bm) (create g memory, [])

/-- Every accepted string is returned by each of the readers. -/
structure Returns (g : Geometry) (s : StringSegment) (accepted : List (Option Bytes)) : Prop where
  count : s.count = accepted.length
  fetchRow : ∀ row str, accepted[row]? = some (some str) → s.stringFetchRow g row = some str
  checkRow : ∀ row str filter, accepted[row]? = some (some str) →
    s.stringCheckRow g row filter = some (filter str)
  scanPartial : ∀ start n, start + n ≤ accepted.length →
    ∃ strs, s.stringScanPartial g start n = some strs ∧ strs.length = n ∧
      ∀ i < n, ∀ str, accepted[start + i]? = some (some str) → strs[i]? = some str

end StringSegment
end Table
end Otterbrix
