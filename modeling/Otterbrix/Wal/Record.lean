/-
  Otterbrix.Wal.Record

  Binary WAL records (`wal_binary.cpp`).

  A record is `[size:4][body:size][crc32:4]`.  The body of a data record is
  `[last_crc32:4][wal_id:8][txn_id:8][type:1][table_oid:4][row_start:8]`
  `[row_count:8][payload_size:4][payload]`; a COMMIT body stops after the type
  with `[commit_id:8]`.

  Two pieces are parameters: the CRC-32C of the checksum library, and the
  codec that turns a data chunk into a payload and back.  Nothing below
  depends on what they compute.
-/
import Otterbrix.Lib.LittleEndian

namespace Otterbrix
namespace Wal

/-- The checksum and the data-chunk codec the record format is built on. -/
structure Codec (Chunk : Type) where
  crc32c : Bytes → UInt32
  serializeBinary : Chunk → Bytes
  deserializeBinary : Bytes → Option Chunk

/-- `uint32_t` arithmetic is modulo this. -/
def uint32Size : Nat := 2 ^ 32

/-- `wal_record_type`.  A byte that is no enumerator keeps its value. -/
inductive RecordType where
  | commit
  | physicalInsert
  | physicalDelete
  | physicalUpdate
  | physicalAddColumn
  | other (byte : UInt8)
  deriving DecidableEq, Repr

def RecordType.toByte : RecordType → UInt8
  | .commit => 1
  | .physicalInsert => 10
  | .physicalDelete => 11
  | .physicalUpdate => 12
  | .physicalAddColumn => 13
  | .other b => b

def RecordType.ofByte (b : UInt8) : RecordType :=
  if b = 1 then .commit
  else if b = 10 then .physicalInsert
  else if b = 11 then .physicalDelete
  else if b = 12 then .physicalUpdate
  else if b = 13 then .physicalAddColumn
  else .other b

/-- `record_t`.  Members the decoder leaves unset on an early return are `0`. -/
structure Record (Chunk : Type) where
  size : Nat := 0
  crc32 : UInt32 := 0
  lastCrc32 : UInt32 := 0
  id : UInt64 := 0
  transactionId : UInt64 := 0
  commitId : UInt64 := 0
  recordType : RecordType := .commit
  tableOid : UInt32 := 0
  physicalData : Option Chunk := none
  physicalRowIds : List Int64 := []
  physicalRowStart : UInt64 := 0
  physicalRowCount : UInt64 := 0
  isCorrupt : Bool := false
  deriving DecidableEq

variable {Chunk : Type}

/-- `record_t::is_valid`. -/
def Record.isValid (r : Record Chunk) : Bool := decide (r.size > 0) && !r.isCorrupt

/-- `record_t::is_commit_marker`. -/
def Record.isCommitMarker (r : Record Chunk) : Bool := decide (r.recordType = .commit)

/-! ## Encoding -/

/-- `DML_FIXED_HEADER`: body bytes of a data record before its payload. -/
def dmlFixedHeader : Nat := 45

/-- The first four members of every body. -/
def bodyStart (lastCrc32 : UInt32) (walId txnId : UInt64) (rtype : RecordType) (rest : Bytes) :
    Bytes :=
  Bytes.writeLe32 lastCrc32 ++ (Bytes.writeLe64 walId ++ (Bytes.writeLe64 txnId ++
    ([rtype.toByte] ++ rest)))

/-- `[size][body][crc32]` around a body. -/
def frameBody (c : Codec Chunk) (body : Bytes) : Bytes :=
  Bytes.writeLe32 (UInt32.ofNat body.length) ++ (body ++ Bytes.writeLe32 (c.crc32c body))

/-- Body of a data record; `payload_size` is what the cast to `uint32_t` leaves
    of the payload's length, and only that many bytes are copied. -/
def dmlBody (lastCrc32 : UInt32) (walId txnId : UInt64) (rtype : RecordType) (tableOid : UInt32)
    (rowStart rowCount : UInt64) (payload : Bytes) : Bytes :=
  let payloadSize := payload.length % uint32Size
  bodyStart lastCrc32 walId txnId rtype
    (Bytes.writeLe32 tableOid ++ (Bytes.writeLe64 rowStart ++ (Bytes.writeLe64 rowCount ++
      (Bytes.writeLe32 (UInt32.ofNat payloadSize) ++ payload.take payloadSize))))

/-- `write_dml_record`: the bytes appended to the buffer and the record's CRC.
    `total` is computed in `uint32_t`; when it wraps, the buffer is resized to
    less than what is then copied into it, and the call has no defined result. -/
def writeDmlRecord (c : Codec Chunk) (lastCrc32 : UInt32) (walId txnId : UInt64)
    (rtype : RecordType) (tableOid : UInt32) (rowStart rowCount : UInt64) (payload : Bytes) :
    Option (Bytes × UInt32) :=
  let sizeField := (dmlFixedHeader + payload.length % uint32Size) % uint32Size
  let total := (4 + sizeField + 4) % uint32Size
  let body := dmlBody lastCrc32 walId txnId rtype tableOid rowStart rowCount payload
  if total < 4 + body.length + 4 then none
  else some (frameBody c body, c.crc32c body)

/-- The row-id array as it lies in memory. -/
def writeRowIds (rowIds : List Int64) : Bytes :=
  rowIds.flatMap fun i => Bytes.writeLe64 i.toUInt64

/-- `encode_insert`. -/
def encodeInsert (c : Codec Chunk) (lastCrc32 : UInt32) (walId txnId : UInt64) (tableOid : UInt32)
    (dataChunk : Chunk) (rowStart rowCount : UInt64) : Option (Bytes × UInt32) :=
  writeDmlRecord c lastCrc32 walId txnId .physicalInsert tableOid rowStart rowCount
    (c.serializeBinary dataChunk)

/-- `encode_add_column`. -/
def encodeAddColumn (c : Codec Chunk) (lastCrc32 : UInt32) (walId txnId : UInt64)
    (tableOid : UInt32) (schemaChunk : Chunk) (columnCount : UInt64) : Option (Bytes × UInt32) :=
  writeDmlRecord c lastCrc32 walId txnId .physicalAddColumn tableOid 0 columnCount
    (c.serializeBinary schemaChunk)

/-- `encode_delete`: the payload is the raw row-id array. -/
def encodeDelete (c : Codec Chunk) (lastCrc32 : UInt32) (walId txnId : UInt64) (tableOid : UInt32)
    (rowIds : List Int64) : Option (Bytes × UInt32) :=
  writeDmlRecord c lastCrc32 walId txnId .physicalDelete tableOid 0 (UInt64.ofNat rowIds.length)
    (writeRowIds rowIds)

/-- `encode_update`: `[row_ids_size:4][row_ids][data_chunk]`. -/
def encodeUpdate (c : Codec Chunk) (lastCrc32 : UInt32) (walId txnId : UInt64) (tableOid : UInt32)
    (rowIds : List Int64) (newData : Chunk) : Option (Bytes × UInt32) :=
  let rowIdsBytes := 8 * rowIds.length % uint32Size
  writeDmlRecord c lastCrc32 walId txnId .physicalUpdate tableOid 0 (UInt64.ofNat rowIds.length)
    (Bytes.writeLe32 (UInt32.ofNat rowIdsBytes) ++ (writeRowIds rowIds).take rowIdsBytes ++
      c.serializeBinary newData)

/-- `encode_commit`. -/
def encodeCommit (c : Codec Chunk) (lastCrc32 : UInt32) (walId txnId commitId : UInt64) :
    Option (Bytes × UInt32) :=
  let body := bodyStart lastCrc32 walId txnId .commit (Bytes.writeLe64 commitId)
  some (frameBody c body, c.crc32c body)

/-- What a `write_physical_*` call asks to be logged. -/
inductive PhysicalEntry (Chunk : Type) where
  | insert (tableOid : UInt32) (dataChunk : Chunk) (rowStart rowCount : UInt64)
  | addColumn (tableOid : UInt32) (schemaChunk : Chunk) (columnCount : UInt64)
  | delete (tableOid : UInt32) (rowIds : List Int64)
  | update (tableOid : UInt32) (rowIds : List Int64) (newData : Chunk)

/-- A physical record or a COMMIT marker. -/
inductive LogEntry (Chunk : Type) where
  | physical (entry : PhysicalEntry Chunk)
  | commit (commitId : UInt64)

/-- The encoder of each kind of entry. -/
def LogEntry.encode (c : Codec Chunk) (lastCrc32 : UInt32) (walId txnId : UInt64) :
    LogEntry Chunk → Option (Bytes × UInt32)
  | .physical (.insert tableOid dataChunk rowStart rowCount) =>
      encodeInsert c lastCrc32 walId txnId tableOid dataChunk rowStart rowCount
  | .physical (.addColumn tableOid schemaChunk columnCount) =>
      encodeAddColumn c lastCrc32 walId txnId tableOid schemaChunk columnCount
  | .physical (.delete tableOid rowIds) => encodeDelete c lastCrc32 walId txnId tableOid rowIds
  | .physical (.update tableOid rowIds newData) =>
      encodeUpdate c lastCrc32 walId txnId tableOid rowIds newData
  | .commit commitId => encodeCommit c lastCrc32 walId txnId commitId

/-! ## Decoding -/

/-- `n` row ids read from the front of a string. -/
def readRowIds : Nat → Bytes → List Int64
  | 0, _ => []
  | n + 1, p => (Bytes.readLe64 p).toInt64 :: readRowIds n (p.drop 8)

/-- The chunk of an INSERT, ADD COLUMN or UPDATE payload; no bytes, no chunk. -/
def decodeChunk (c : Codec Chunk) (rec : Record Chunk) (chunk : Bytes) : Record Chunk :=
  if chunk.length > 0 then
    match c.deserializeBinary chunk with
    | none => { rec with isCorrupt := true }
    | some d => { rec with physicalData := some d }
  else rec

/-- The payload switch of `decode_record`. -/
def decodePayload (c : Codec Chunk) (rec : Record Chunk) (payload : Bytes) : Record Chunk :=
  match rec.recordType with
  | .physicalInsert | .physicalAddColumn => decodeChunk c rec payload
  | .physicalDelete => { rec with physicalRowIds := readRowIds (payload.length / 8) payload }
  | .physicalUpdate =>
      if payload.length < 4 then { rec with isCorrupt := true }
      else
        let rowIdsBytes := (Bytes.readLe32 payload).toNat
        let rowIdsData := payload.drop 4
        -- the bound is checked in uint32_t
        if (4 + rowIdsBytes) % uint32Size > payload.length then { rec with isCorrupt := true }
        else
          decodeChunk c { rec with physicalRowIds := readRowIds (rowIdsBytes / 8) rowIdsData }
            (rowIdsData.drop rowIdsBytes)
  | _ => { rec with isCorrupt := true }

/-- The members after the type byte of a data record. -/
def decodeDml (c : Codec Chunk) (rec : Record Chunk) (bodySize : Nat) (p : Bytes) : Record Chunk :=
  if bodySize < dmlFixedHeader then { rec with isCorrupt := true }
  else
    let r := { rec with
      tableOid := Bytes.readLe32 p
      physicalRowStart := Bytes.readLe64 (p.drop 4)
      physicalRowCount := Bytes.readLe64 ((p.drop 4).drop 8) }
    let payloadSize := (Bytes.readLe32 (((p.drop 4).drop 8).drop 8)).toNat
    if dmlFixedHeader + payloadSize ≠ bodySize then { r with isCorrupt := true }
    else decodePayload c r (((((p.drop 4).drop 8).drop 8).drop 4).take payloadSize)

/-- Everything after the CRC check. -/
def decodeBody (c : Codec Chunk) (rec : Record Chunk) (bodySize : Nat) (body : Bytes) :
    Record Chunk :=
  let p := ((body.drop 4).drop 8).drop 8
  let r := { rec with
    lastCrc32 := Bytes.readLe32 body
    id := Bytes.readLe64 (body.drop 4)
    transactionId := Bytes.readLe64 ((body.drop 4).drop 8)
    recordType := .ofByte (p.headD 0) }
  if r.recordType = .commit then { r with commitId := Bytes.readLe64 (p.drop 1) }
  else decodeDml c r bodySize (p.drop 1)

/-- `decode_record` on a buffer of `data.length` bytes. -/
def decodeRecord (c : Codec Chunk) (data : Bytes) : Record Chunk :=
  if data.length < 37 then { isCorrupt := true }
  else
    let bodySize := (Bytes.readLe32 data).toNat
    let size := (4 + bodySize + 4) % uint32Size
    if size > data.length then { isCorrupt := true }
    else
      let body := data.drop 4
      let expectedCrc := Bytes.readLe32 (body.drop bodySize)
      let actualCrc := c.crc32c (body.take bodySize)
      if expectedCrc ≠ actualCrc then { size := size, crc32 := expectedCrc, isCorrupt := true }
      else decodeBody c { size := size, crc32 := actualCrc } bodySize body

/-! ## What the decoder keeps -/

/-- The members of a record that are settled before its payload is looked at. -/
def Record.fixed (r : Record Chunk) : Nat × UInt64 × UInt64 × RecordType :=
  (r.size, r.id, r.transactionId, r.recordType)

theorem decodeChunk_fixed (c : Codec Chunk) (rec : Record Chunk) (chunk : Bytes) :
    (decodeChunk c rec chunk).fixed = rec.fixed := by
  unfold decodeChunk
  split_ifs with hlen
  · cases c.deserializeBinary chunk <;> rfl
  · rfl

/-- The payload switch fills payload members only. -/
theorem decodePayload_fixed (c : Codec Chunk) (rec : Record Chunk) (payload : Bytes) :
    (decodePayload c rec payload).fixed = rec.fixed := by
  unfold decodePayload
  split
  · exact decodeChunk_fixed c rec payload
  · exact decodeChunk_fixed c rec payload
  · rfl
  · dsimp only
    split_ifs
    · rfl
    · rfl
    · rw [decodeChunk_fixed]
      rfl
  · rfl

theorem decodeDml_fixed (c : Codec Chunk) (rec : Record Chunk) (bodySize : Nat) (p : Bytes) :
    (decodeDml c rec bodySize p).fixed = rec.fixed := by
  unfold decodeDml
  dsimp only
  split_ifs
  · rfl
  · rfl
  · rw [decodePayload_fixed]
    rfl

/-- Ids and type come from the front of the body. -/
theorem decodeBody_fixed (c : Codec Chunk) (rec : Record Chunk) (bodySize : Nat) (body : Bytes) :
    (decodeBody c rec bodySize body).fixed =
      (rec.size, Bytes.readLe64 (body.drop 4), Bytes.readLe64 ((body.drop 4).drop 8),
        RecordType.ofByte ((((body.drop 4).drop 8).drop 8).headD 0)) := by
  unfold decodeBody
  dsimp only
  split_ifs
  · rfl
  · rw [decodeDml_fixed]
    rfl

/-- A decoded record claims no more bytes than it was given. -/
theorem decodeRecord_size_le (c : Codec Chunk) (data : Bytes) :
    (decodeRecord c data).size ≤ data.length := by
  unfold decodeRecord
  simp only
  split_ifs with hlen hsize hcrc
  · exact Nat.zero_le _
  · exact Nat.zero_le _
  · exact Nat.le_of_not_lt hsize
  · rw [show ∀ r : Record Chunk, r.size = r.fixed.1 from fun _ => rfl, decodeBody_fixed]
    exact Nat.le_of_not_lt hsize

/-! ## Frames

What the page layer needs to know of a record: it is at least 37 bytes long and
announces its own length. -/

/-- The bytes of one record, with a size field that agrees with their number. -/
structure Frame where
  bytes : Bytes
  long : 37 ≤ bytes.length
  small : bytes.length < uint32Size
  sized : (Bytes.readLe32 bytes).toNat + 8 = bytes.length

theorem length_bodyStart (lastCrc32 : UInt32) (walId txnId : UInt64) (rtype : RecordType)
    (rest : Bytes) : (bodyStart lastCrc32 walId txnId rtype rest).length = 21 + rest.length := by
  simp only [bodyStart, List.length_append, Bytes.length_writeLe32, Bytes.length_writeLe64,
    List.length_singleton]
  omega

theorem length_frameBody (c : Codec Chunk) (body : Bytes) :
    (frameBody c body).length = body.length + 8 := by
  simp only [frameBody, List.length_append, Bytes.length_writeLe32]
  omega

/-- The size field of a framed body. -/
theorem readLe32_frameBody (c : Codec Chunk) {body : Bytes} (h : body.length + 8 < uint32Size) :
    (Bytes.readLe32 (frameBody c body)).toNat = body.length := by
  have hsize : uint32Size = 2 ^ 32 := rfl
  rw [frameBody, Bytes.readLe32_writeLe32_append, UInt32.toNat_ofNat']
  exact Nat.mod_eq_of_lt (by omega)

/-- A framed body decodes as its body: the size fits and the CRC matches. -/
theorem decodeRecord_frameBody (c : Codec Chunk) {body : Bytes} (hlong : 29 ≤ body.length)
    (hsmall : body.length + 8 < uint32Size) :
    decodeRecord c (frameBody c body) =
      decodeBody c { size := body.length + 8, crc32 := c.crc32c body } body.length
        (body ++ Bytes.writeLe32 (c.crc32c body)) := by
  have hlen := length_frameBody c body
  have hsize : (4 + body.length + 4) % uint32Size = body.length + 8 := by
    rw [Nat.mod_eq_of_lt (by omega)]
    omega
  have hdrop : (frameBody c body).drop 4 = body ++ Bytes.writeLe32 (c.crc32c body) :=
    Bytes.drop_writeLe32_append _ _
  have htake : (body ++ Bytes.writeLe32 (c.crc32c body)).take body.length = body :=
    List.take_left' rfl
  have hcrc : Bytes.readLe32 ((body ++ Bytes.writeLe32 (c.crc32c body)).drop body.length) =
      c.crc32c body := by
    rw [List.drop_left' rfl]
    simpa using Bytes.readLe32_writeLe32_append (c.crc32c body) []
  unfold decodeRecord
  rw [if_neg (by omega)]
  simp only [readLe32_frameBody c hsmall, hsize, hdrop, htake, hcrc, hlen, gt_iff_lt,
    Nat.lt_irrefl, if_false, ne_eq, not_true_eq_false]

theorem length_dmlBody (lastCrc32 : UInt32) (walId txnId : UInt64) (rtype : RecordType)
    (tableOid : UInt32) (rowStart rowCount : UInt64) (payload : Bytes) :
    (dmlBody lastCrc32 walId txnId rtype tableOid rowStart rowCount payload).length =
      dmlFixedHeader + payload.length % uint32Size := by
  have hle : payload.length % uint32Size ≤ payload.length := Nat.mod_le _ _
  rw [dmlBody, length_bodyStart]
  simp only [List.length_append, Bytes.length_writeLe32, Bytes.length_writeLe64, List.length_take,
    dmlFixedHeader]
  omega

variable {c : Codec Chunk} {lastCrc32 : UInt32} {walId txnId : UInt64} {rtype : RecordType}
  {tableOid : UInt32} {rowStart rowCount : UInt64} {payload bs : Bytes} {crc : UInt32}
  {entry : LogEntry Chunk}

/-- `write_dml_record` has a result exactly when its total fits `uint32_t`. -/
theorem writeDmlRecord_eq_some_iff :
    writeDmlRecord c lastCrc32 walId txnId rtype tableOid rowStart rowCount payload =
        some (bs, crc) ↔
      payload.length % uint32Size + 53 < uint32Size ∧
        bs = frameBody c (dmlBody lastCrc32 walId txnId rtype tableOid rowStart rowCount payload) ∧
        crc = c.crc32c (dmlBody lastCrc32 walId txnId rtype tableOid rowStart rowCount payload) := by
  have hheader : dmlFixedHeader = 45 := rfl
  have hlen := length_dmlBody lastCrc32 walId txnId rtype tableOid rowStart rowCount payload
  have htotal : (4 + (dmlFixedHeader + payload.length % uint32Size) % uint32Size + 4) %
      uint32Size < uint32Size := Nat.mod_lt _ (by decide)
  unfold writeDmlRecord
  dsimp only
  split_ifs with hwrap
  · -- the wrapped total is too small for the body
    simp only [false_iff]
    rintro ⟨hsmall, -⟩
    rw [Nat.mod_eq_of_lt (by omega : dmlFixedHeader + payload.length % uint32Size < uint32Size),
      Nat.mod_eq_of_lt (by omega)] at hwrap
    omega
  · simp only [Option.some.injEq, Prod.mk.injEq]
    constructor
    · rintro ⟨rfl, rfl⟩
      exact ⟨by omega, rfl, rfl⟩
    · rintro ⟨-, rfl, rfl⟩
      exact ⟨rfl, rfl⟩

/-- The type byte an entry is written with. -/
def LogEntry.recordType : LogEntry Chunk → RecordType
  | .physical (.insert ..) => .physicalInsert
  | .physical (.addColumn ..) => .physicalAddColumn
  | .physical (.delete ..) => .physicalDelete
  | .physical (.update ..) => .physicalUpdate
  | .commit _ => .commit

/-- The four data records share `write_dml_record`. -/
theorem writeDmlRecord_eq_frameBody
    (h : writeDmlRecord c lastCrc32 walId txnId rtype tableOid rowStart rowCount payload =
      some (bs, crc)) :
    ∃ rest, bs = frameBody c (bodyStart lastCrc32 walId txnId rtype rest) ∧
      8 ≤ rest.length ∧ rest.length + 29 < uint32Size := by
  obtain ⟨hsmall, rfl, -⟩ := writeDmlRecord_eq_some_iff.mp h
  have hheader : dmlFixedHeader = 45 := rfl
  have hlen := length_dmlBody lastCrc32 walId txnId rtype tableOid rowStart rowCount payload
  rw [dmlBody, length_bodyStart] at hlen
  exact ⟨_, rfl, by omega, by omega⟩

/-- Every encoder frames a body that starts with the caller's ids. -/
theorem encode_eq_frameBody (h : entry.encode c lastCrc32 walId txnId = some (bs, crc)) :
    ∃ rest, bs = frameBody c (bodyStart lastCrc32 walId txnId entry.recordType rest) ∧
      8 ≤ rest.length ∧ rest.length + 29 < uint32Size := by
  cases entry with
  | physical entry => cases entry <;> exact writeDmlRecord_eq_frameBody h
  | commit commitId =>
      obtain ⟨rfl, -⟩ : frameBody c (bodyStart lastCrc32 walId txnId .commit
          (Bytes.writeLe64 commitId)) = bs ∧ _ := by simpa [LogEntry.encode, encodeCommit] using h
      exact ⟨_, rfl, by simp, by simp [uint32Size]⟩

/-- The frame of an encoded entry. -/
def Frame.ofEncode {c : Codec Chunk} {lastCrc32 : UInt32} {walId txnId : UInt64}
    {entry : LogEntry Chunk} {bs : Bytes} {crc : UInt32}
    (h : entry.encode c lastCrc32 walId txnId = some (bs, crc)) : Frame where
  bytes := bs
  long := by
    obtain ⟨rest, rfl, hlo, hhi⟩ := encode_eq_frameBody h
    rw [length_frameBody, length_bodyStart]
    omega
  small := by
    obtain ⟨rest, rfl, hlo, hhi⟩ := encode_eq_frameBody h
    rw [length_frameBody, length_bodyStart]
    omega
  sized := by
    obtain ⟨rest, rfl, hlo, hhi⟩ := encode_eq_frameBody h
    have hbody := length_bodyStart lastCrc32 walId txnId entry.recordType rest
    rw [readLe32_frameBody c (by omega), length_frameBody]

theorem LogEntry.ofByte_recordType (entry : LogEntry Chunk) :
    RecordType.ofByte entry.recordType.toByte = entry.recordType := by
  cases entry with
  | physical entry => cases entry <;> rfl
  | commit => rfl

/-- Size, ids and type of a decoded entry. -/
theorem decodeRecord_encode (h : entry.encode c lastCrc32 walId txnId = some (bs, crc)) :
    (decodeRecord c bs).fixed = (bs.length, walId, txnId, entry.recordType) := by
  obtain ⟨rest, rfl, hlo, hhi⟩ := encode_eq_frameBody h
  have hbody := length_bodyStart lastCrc32 walId txnId entry.recordType rest
  rw [decodeRecord_frameBody c (by omega) (by omega), decodeBody_fixed, length_frameBody]
  simp [bodyStart, entry.ofByte_recordType]

end Wal
end Otterbrix
