/-
  Otterbrix.Index.BitcaskRecord

  The records of a bitcask segment: a header of 24 bytes with checksum, kind, payload size
  and timestamp, and a payload with the key and its rows.  `load_from_disk` goes over a
  segment record by record and stops at one that is cut off; `read_rows_at` reads the record
  whose payload is at a given place.

  The encoding of a key, the checksum and the bytes under which a key is hashed are
  parameters.
-/
import Otterbrix.Lib.LittleEndian

namespace Otterbrix
namespace Index

open Bytes

/-! ## The format -/

/-- `append_logical_value` and `read_logical_value`. -/
structure KeyCodec (K : Type) where
  append : K → Bytes
  read : Bytes → Option (K × Bytes)
  read_append : ∀ key rest, read (append key ++ rest) = some (key, rest)

/-- What a bitcask index is given from outside. -/
structure BitcaskFormat (K : Type) extends KeyCodec K where
  /-- `ComputeCrc32c`. -/
  crc : Bytes → UInt32
  /-- `key_bytes_for_hash`. -/
  keyBytes : K → Bytes
  /-- A string of so many bytes can be allocated. -/
  allocates : Nat → Bool

def recordHeaderSize : Nat := 24

/-- `record_kind_t::value`. -/
def valueKind : UInt8 := 1

/-- `record_kind_t::tombstone`. -/
def tombstoneKind : UInt8 := 2

/-- A record of a segment, with the place of its payload. -/
structure LogRecord (K : Type) where
  offset : Nat
  tombstone : Bool
  timestamp : UInt64
  key : K
  rows : List UInt64
deriving DecidableEq

/-- What is found at a place of a segment. -/
inductive RecordStep (K : Type) where
  /-- the loop ends -/
  | stop
  /-- the checksum is wrong -/
  | corrupt
  /-- an exception: a size that cannot be allocated, or a payload that cannot be decoded -/
  | throws
  | record (r : LogRecord K) (size : Nat)

/-- What a reference leads to. -/
inductive ReadStep (K : Type) where
  | value (key : K) (rows : List UInt64)
  /-- `read_rows_at` returns false -/
  | unread
  /-- an exception: a size that cannot be allocated, or a payload that cannot be decoded -/
  | throws

/-- The key that is read. -/
def ReadStep.key? {K : Type} : ReadStep K → Option K
  | .value key _ => some key
  | _ => none

/-- The rows that are read, none of them if nothing is; no result at an exception. -/
def ReadStep.rows? {K : Type} : ReadStep K → Option (List UInt64)
  | .value _ rows => some rows
  | .unread => some []
  | .throws => none

/-- How the loop over a segment ends. -/
inductive LoadEnd where
  | complete
  | corrupt
  | throws
deriving DecidableEq

/-- `pread` in a loop that does not move on: what is missing at the end of the file is filled with
    what is there. -/
def pread (bytes : Bytes) (location count : Nat) : Option Bytes :=
  if count = 0 then some []
  else if bytes.length ≤ location then none
  else
    let available := bytes.drop location
    some ((List.range count).map fun i => available[i % available.length]?.getD 0)

namespace BitcaskFormat

variable {K : Type} (fmt : BitcaskFormat K)

/-- `serialize_payload`. -/
def serializePayload (key : K) (rows : List UInt64) : Bytes :=
  fmt.append key ++ (writeLe32 (UInt32.ofNat rows.length) ++ rows.flatMap writeLe64)

/-- The loop of `deserialize_payload`. -/
def readRows : Nat → Bytes → Option (List UInt64)
  | 0, _ => some []
  | n + 1, bytes =>
      if bytes.length < 8 then none
      else (readRows n (bytes.drop 8)).map (readLe64 bytes :: ·)

/-- `deserialize_payload`. -/
def deserializePayload (payload : Bytes) : Option (K × List UInt64) := do
  let (key, rest) ← fmt.read payload
  if rest.length < 4 then none
  else
    let rows ← readRows (readLe32 rest).toNat (rest.drop 4)
    return (key, rows)

/-- What the checksum of a record is taken of. -/
def recordBody (kind : UInt8) (timestamp : UInt64) (payload : Bytes) : Bytes :=
  kind :: 0 :: 0 :: 0 :: (writeLe64 (UInt64.ofNat payload.length) ++ (writeLe64 timestamp ++ payload))

/-- `write_record`. -/
def encodeRecord (kind : UInt8) (timestamp : UInt64) (payload : Bytes) : Bytes :=
  let body := recordBody kind timestamp payload
  writeLe32 (fmt.crc body) ++ body

/-- One turn of the loop of `load_from_disk`; `bytes` is the segment from `offset` on. -/
def parseRecord (offset : Nat) (bytes : Bytes) : RecordStep K :=
  if bytes.length < recordHeaderSize then .stop
  else
    let size := (readLe64 (bytes.drop 8)).toNat
    -- the sum of offset and size wraps and passes the check, the allocation fails
    if 2 ^ 64 ≤ offset + recordHeaderSize + size then .throws
    else if bytes.length < recordHeaderSize + size then .stop
    else if !fmt.allocates size then .throws
    else if fmt.crc ((bytes.take (recordHeaderSize + size)).drop 4) ≠ readLe32 bytes then .corrupt
    else
      match fmt.deserializePayload ((bytes.drop recordHeaderSize).take size) with
      | none => .throws
      | some (key, rows) =>
          let kind := bytes[4]?.getD 0
          if kind = tombstoneKind ∨ kind = valueKind then
            .record {
              offset := offset + recordHeaderSize
              tombstone := decide (kind = tombstoneKind)
              timestamp := readLe64 (bytes.drop 16)
              key := key
              rows := rows } size
          else .stop

/-- The loop of `load_from_disk` over a segment. -/
def parseFrom : Nat → Nat → Bytes → List (LogRecord K) × LoadEnd
  | 0, _, _ => ([], .complete)
  | fuel + 1, offset, bytes =>
      match fmt.parseRecord offset bytes with
      | .stop => ([], .complete)
      | .corrupt => ([], .corrupt)
      | .throws => ([], .throws)
      | .record r size =>
          let (records, loadEnd) := parseFrom fuel (offset + recordHeaderSize + size)
            (bytes.drop (recordHeaderSize + size))
          (r :: records, loadEnd)

/-- All of a segment; every record takes at least its header. -/
def parseSegment (bytes : Bytes) : List (LogRecord K) × LoadEnd :=
  fmt.parseFrom (bytes.length + 1) 0 bytes

/-- `read_rows_at`, in the segment with the given bytes.  The payload is allocated before anything of
    the header is checked. -/
def readRowsAt (bytes : Bytes) (valueOffset : Nat) : ReadStep K :=
  if valueOffset < recordHeaderSize then .unread
  else
    match pread bytes (valueOffset - recordHeaderSize) recordHeaderSize with
    | none => .unread
    | some header =>
        let size := (readLe64 (header.drop 8)).toNat
        if !fmt.allocates size then .throws
        else
          match pread bytes valueOffset size with
          | none => .unread
          | some payload =>
              if fmt.crc (header.drop 4 ++ payload) ≠ readLe32 header then .unread
              else
                match fmt.deserializePayload payload with
                | none => .throws
                | some (key, rows) =>
                    if header[4]?.getD 0 = valueKind then .value key rows else .unread

/-! ## Reading back what was written -/

theorem readRows_flatMap (rows : List UInt64) :
    readRows rows.length (rows.flatMap writeLe64) = some rows := by
  induction rows with
  | nil => rfl
  | cons row rows ih =>
    have hlength : ¬(writeLe64 row ++ rows.flatMap writeLe64).length < 8 := by
      rw [List.length_append, length_writeLe64]
      omega
    rw [List.flatMap_cons, List.length_cons, readRows, if_neg hlength, drop_writeLe64_append, ih,
      readLe64_writeLe64_append]
    rfl

theorem deserializePayload_serializePayload (key : K) {rows : List UInt64}
    (hrows : rows.length < 2 ^ 32) :
    fmt.deserializePayload (fmt.serializePayload key rows) = some (key, rows) := by
  unfold deserializePayload serializePayload
  simp only [fmt.read_append, Option.bind_eq_bind, Option.bind_some]
  have hlength : ¬(writeLe32 (UInt32.ofNat rows.length) ++ rows.flatMap writeLe64).length < 4 := by
    rw [List.length_append, length_writeLe32]
    omega
  rw [if_neg hlength, readLe32_writeLe32_append, drop_writeLe32_append,
    UInt32.toNat_ofNat_of_lt' hrows, readRows_flatMap]
  rfl

theorem length_recordBody (kind : UInt8) (timestamp : UInt64) (payload : Bytes) :
    (recordBody kind timestamp payload).length = 20 + payload.length := by
  simp only [recordBody, List.length_cons, List.length_append, length_writeLe64]
  omega

theorem length_encodeRecord (kind : UInt8) (timestamp : UInt64) (payload : Bytes) :
    (fmt.encodeRecord kind timestamp payload).length = recordHeaderSize + payload.length := by
  show (writeLe32 _ ++ recordBody kind timestamp payload).length = _
  rw [List.length_append, length_writeLe32, length_recordBody, recordHeaderSize]
  omega

/-- A record at its place in a segment. -/
def recordAt (offset : Nat) (kind : UInt8) (timestamp : UInt64) (key : K) (rows : List UInt64) :
    LogRecord K where
  offset := offset + recordHeaderSize
  tombstone := decide (kind = tombstoneKind)
  timestamp := timestamp
  key := key
  rows := rows

/-- **A record that was written is found.** -/
theorem parseRecord_encodeRecord {kind : UInt8} (hkind : kind = tombstoneKind ∨ kind = valueKind)
    (timestamp : UInt64) (key : K) {rows : List UInt64} (hrows : rows.length < 2 ^ 32) {offset : Nat}
    (hsize : offset + recordHeaderSize + (fmt.serializePayload key rows).length < 2 ^ 64)
    (hallocates : fmt.allocates (fmt.serializePayload key rows).length = true) (more : Bytes) :
    fmt.parseRecord offset
        (fmt.encodeRecord kind timestamp (fmt.serializePayload key rows) ++ more) =
      .record (recordAt offset kind timestamp key rows) (fmt.serializePayload key rows).length := by
  have hdecode := fmt.deserializePayload_serializePayload key hrows
  generalize fmt.serializePayload key rows = payload at hsize hallocates hdecode ⊢
  have hlength := fmt.length_encodeRecord kind timestamp payload
  -- the fields of the header
  have hcrc : readLe32 (fmt.encodeRecord kind timestamp payload ++ more) =
      fmt.crc (recordBody kind timestamp payload) := by
    show readLe32 ((writeLe32 _ ++ _) ++ more) = _
    rw [List.append_assoc, readLe32_writeLe32_append]
  have hbody : (fmt.encodeRecord kind timestamp payload ++ more).drop 4 =
      recordBody kind timestamp payload ++ more := by
    show ((writeLe32 _ ++ _) ++ more).drop 4 = _
    rw [List.append_assoc, drop_writeLe32_append]
  have hdrop8 : (fmt.encodeRecord kind timestamp payload ++ more).drop 8 =
      writeLe64 (UInt64.ofNat payload.length) ++ (writeLe64 timestamp ++ (payload ++ more)) := by
    rw [show 8 = 4 + 4 from rfl, ← List.drop_drop, hbody]
    simp [recordBody]
  have hdrop16 : (fmt.encodeRecord kind timestamp payload ++ more).drop 16 =
      writeLe64 timestamp ++ (payload ++ more) := by
    rw [show 16 = 8 + 8 from rfl, ← List.drop_drop, hdrop8, drop_writeLe64_append]
  have hdrop24 : (fmt.encodeRecord kind timestamp payload ++ more).drop recordHeaderSize =
      payload ++ more := by
    rw [show recordHeaderSize = 16 + 8 from rfl, ← List.drop_drop, hdrop16, drop_writeLe64_append]
  have hkind4 : (fmt.encodeRecord kind timestamp payload ++ more)[4]? = some kind := by
    rw [← List.head?_drop, hbody]
    rfl
  have htoNat : (UInt64.ofNat payload.length).toNat = payload.length :=
    UInt64.toNat_ofNat_of_lt' (by show payload.length < 2 ^ 64; omega)
  unfold parseRecord
  dsimp only
  rw [hdrop8, readLe64_writeLe64_append, htoNat, if_neg, if_neg (Nat.not_le.mpr hsize), if_neg,
    if_neg (by simp [hallocates]), List.take_left' hlength, if_neg, hdrop24, List.take_left' rfl,
    hdecode]
  · dsimp only
    rw [hkind4, hdrop16, readLe64_writeLe64_append, Option.getD_some, if_pos hkind]
    rfl
  · rw [hcrc, not_not]
    refine congrArg fmt.crc ?_
    show (writeLe32 _ ++ recordBody kind timestamp payload).drop 4 = _
    rw [drop_writeLe32_append]
  · rw [List.length_append, hlength]
    omega
  · rw [List.length_append, hlength]
    omega

/-! ## Records in a segment -/

/-- The kind byte of a record. -/
def kindOf (r : LogRecord K) : UInt8 :=
  if r.tombstone then tombstoneKind else valueKind

/-- A record at the front of some bytes, field by field. -/
structure Front (offset : Nat) (bytes : Bytes) (r : LogRecord K) (size : Nat) : Prop where
  size_eq : (readLe64 (bytes.drop 8)).toNat = size
  bound : offset + recordHeaderSize + size < 2 ^ 64
  fits : recordHeaderSize + size ≤ bytes.length
  allocated : fmt.allocates size = true
  crc_eq : fmt.crc ((bytes.take (recordHeaderSize + size)).drop 4) = readLe32 bytes
  payload : fmt.deserializePayload ((bytes.drop recordHeaderSize).take size) = some (r.key, r.rows)
  kind_eq : bytes[4]?.getD 0 = kindOf r
  offset_eq : r.offset = offset + recordHeaderSize
  timestamp_eq : r.timestamp = readLe64 (bytes.drop 16)

variable {fmt} {offset size : Nat} {bytes : Bytes} {r : LogRecord K}

theorem front_of_parseRecord (h : fmt.parseRecord offset bytes = .record r size) :
    fmt.Front offset bytes r size := by
  unfold parseRecord at h
  dsimp only at h
  split at h
  · exact absurd h (by simp)
  split at h
  · exact absurd h (by simp)
  split at h
  · exact absurd h (by simp)
  split at h
  · exact absurd h (by simp)
  split at h
  · exact absurd h (by simp)
  next hbound hfits hallocates hcrc =>
  split at h
  · exact absurd h (by simp)
  next key rows hpayload =>
  split at h
  · next hkind =>
    obtain ⟨rfl, rfl⟩ := RecordStep.record.inj h
    refine ⟨rfl, Nat.lt_of_not_le hbound, Nat.le_of_not_lt hfits, by simpa using hallocates,
      not_not.mp hcrc, hpayload, ?_, rfl, rfl⟩
    rcases hkind with hkind | hkind
    · rw [hkind]
      rfl
    · rw [hkind]
      rfl
  · exact absurd h (by simp)

theorem Front.parseRecord (h : fmt.Front offset bytes r size) :
    fmt.parseRecord offset bytes = .record r size := by
  have hfits := h.fits
  have hlong : ¬bytes.length < recordHeaderSize := by omega
  have hkind : kindOf r = tombstoneKind ∨ kindOf r = valueKind := by
    unfold kindOf
    split
    · exact .inl rfl
    · exact .inr rfl
  have htombstone : decide (kindOf r = tombstoneKind) = r.tombstone := by
    unfold kindOf
    cases r.tombstone <;> rfl
  unfold BitcaskFormat.parseRecord
  dsimp only
  rw [if_neg hlong, h.size_eq, if_neg (Nat.not_le.mpr h.bound), if_neg (by omega),
    if_neg (by simp [h.allocated]), if_neg (not_not.mpr h.crc_eq), h.payload]
  dsimp only
  rw [h.kind_eq, if_pos hkind, htombstone, ← h.offset_eq, ← h.timestamp_eq]

/-- More bytes behind a record change nothing. -/
theorem Front.append (h : fmt.Front offset bytes r size) (more : Bytes) :
    fmt.Front offset (bytes ++ more) r size := by
  have hfits := h.fits
  have hlong : recordHeaderSize ≤ bytes.length := by omega
  have hdrop : ∀ n ≤ recordHeaderSize, (bytes ++ more).drop n = bytes.drop n ++ more := fun n hn =>
    List.drop_append_of_le_length (by omega)
  have hread : ∀ n, n + 8 ≤ recordHeaderSize →
      readLe64 ((bytes ++ more).drop n) = readLe64 (bytes.drop n) := by
    intro n hn
    unfold readLe64
    rw [hdrop n (by omega), List.take_append_of_le_length (by rw [List.length_drop]; omega)]
  refine ⟨?_, h.bound, ?_, h.allocated, ?_, ?_, ?_, h.offset_eq, ?_⟩
  · rw [hread 8 (by decide)]
    exact h.size_eq
  · rw [List.length_append]
    omega
  · rw [List.take_append_of_le_length hfits, readLe32_append _ (Nat.le_trans (by decide) hlong)]
    exact h.crc_eq
  · rw [hdrop _ (Nat.le_refl _), List.take_append_of_le_length (by rw [List.length_drop]; omega)]
    exact h.payload
  · rw [List.getElem?_append_left (Nat.lt_of_lt_of_le (by decide) hlong)]
    exact h.kind_eq
  · rw [hread 16 (by decide)]
    exact h.timestamp_eq

/-- The records from an offset on, and the bytes behind them. -/
inductive Records (fmt : BitcaskFormat K) : Nat → Bytes → List (LogRecord K) → Bytes → Prop where
  | nil (offset : Nat) (junk : Bytes) : Records fmt offset junk [] junk
  | cons {offset size : Nat} {bytes junk : Bytes} {r : LogRecord K} {rs : List (LogRecord K)}
      (first : fmt.Front offset bytes r size)
      (rest : Records fmt (offset + recordHeaderSize + size) (bytes.drop (recordHeaderSize + size))
        rs junk) :
      Records fmt offset bytes (r :: rs) junk

variable {rs : List (LogRecord K)} {junk : Bytes}

theorem Records.length_le (h : fmt.Records offset bytes rs junk) : junk.length ≤ bytes.length := by
  induction h with
  | nil => exact Nat.le_refl _
  | cons first rest ih =>
    rw [List.length_drop] at ih
    omega

/-- Behind a segment without junk more records follow. -/
theorem Records.append {rs' : List (LogRecord K)} {more : Bytes} (h : fmt.Records offset bytes rs [])
    (hmore : fmt.Records (offset + bytes.length) more rs' junk) :
    fmt.Records offset (bytes ++ more) (rs ++ rs') junk := by
  generalize hjunk : ([] : Bytes) = rest at h
  induction h with
  | nil =>
    subst hjunk
    exact hmore
  | @cons offset size bytes _ r rs first rest ih =>
    have hfits := first.fits
    refine .cons (first.append more) ?_
    rw [List.drop_append_of_le_length hfits]
    refine ih ?_ hjunk
    rw [List.length_drop]
    rwa [show offset + recordHeaderSize + size + (bytes.length - (recordHeaderSize + size)) =
      offset + bytes.length by omega]

/-- The loop of `load_from_disk`, up to where it goes on. -/
theorem Records.parseFrom (h : fmt.Records offset bytes rs junk) {fuel : Nat}
    (hfuel : bytes.length < fuel) :
    fmt.parseFrom fuel offset bytes =
      (rs ++ (fmt.parseFrom (fuel - rs.length) (offset + (bytes.length - junk.length)) junk).1,
        (fmt.parseFrom (fuel - rs.length) (offset + (bytes.length - junk.length)) junk).2) := by
  induction h generalizing fuel with
  | nil => simp
  | @cons offset size bytes junk r rs first rest ih =>
    have hfits := first.fits
    have hjunk := rest.length_le
    have hpos : 0 < recordHeaderSize := by decide
    rw [List.length_drop] at hjunk
    cases fuel with
    | zero => exact absurd hfuel (Nat.not_lt_zero _)
    | succ fuel =>
      rw [BitcaskFormat.parseFrom, first.parseRecord]
      dsimp only
      rw [ih (by rw [List.length_drop]; omega), List.length_drop, List.length_cons,
        Nat.succ_sub_succ, show offset + recordHeaderSize + size +
          (bytes.length - (recordHeaderSize + size) - junk.length) =
            offset + (bytes.length - junk.length) by omega]
      rfl

/-- A record is no longer than the segment it is in. -/
theorem Records.mem_front (h : fmt.Records offset bytes rs junk) {r : LogRecord K} (hr : r ∈ rs) :
    ∃ place size, offset ≤ place ∧ fmt.Front place (bytes.drop (place - offset)) r size := by
  induction h with
  | nil => exact absurd hr List.not_mem_nil
  | @cons offset size bytes junk first rs hfirst rest ih =>
    rcases List.mem_cons.mp hr with rfl | hr
    · exact ⟨offset, size, Nat.le_refl _, by rwa [Nat.sub_self, List.drop_zero]⟩
    · obtain ⟨place, size', hplace, hfront⟩ := ih hr
      refine ⟨place, size', by omega, ?_⟩
      rw [List.drop_drop] at hfront
      rwa [show place - offset = recordHeaderSize + size +
        (place - (offset + recordHeaderSize + size)) by omega]

theorem Front.unique {r' : LogRecord K} {size' : Nat} (h : fmt.Front offset bytes r size)
    (h' : fmt.Front offset bytes r' size') : r = r' ∧ size = size' :=
  RecordStep.record.inj (h.parseRecord.symm.trans h'.parseRecord)

/-- The records of a segment that ends with its last one are all there are. -/
theorem Records.subset_of_stop {rs' : List (LogRecord K)} (h : fmt.Records offset bytes rs' junk)
    (hall : fmt.Records offset bytes rs []) : rs' ⊆ rs := by
  induction h generalizing rs with
  | nil => exact List.nil_subset _
  | cons first rest ih =>
    cases hall with
    | nil =>
      have hfits := first.fits
      exact absurd hfits (by rw [List.length_nil, recordHeaderSize]; omega)
    | cons first' rest' =>
      obtain ⟨rfl, rfl⟩ := first.unique first'
      exact List.cons_subset_cons _ (ih rest')

/-! ## Reading a record -/

theorem pread_of_le {file : Bytes} {location count : Nat} (h : location + count ≤ file.length) :
    pread file location count = some ((file.drop location).take count) := by
  unfold pread
  by_cases hzero : count = 0
  · rw [if_pos hzero, hzero, List.take_zero]
  rw [if_neg hzero, if_neg (by omega)]
  dsimp only
  refine congrArg some (List.ext_getElem? fun i => ?_)
  rw [List.getElem?_map, List.getElem?_take]
  by_cases hi : i < count
  · have hlt : i < (file.drop location).length := by
      rw [List.length_drop]
      omega
    rw [List.getElem?_range hi, if_pos hi, Option.map_some, Nat.mod_eq_of_lt hlt,
      List.getElem?_eq_getElem hlt, Option.getD_some]
  · rw [List.getElem?_eq_none (by rw [List.length_range]; omega), if_neg hi, Option.map_none]

/-- **`read_rows_at`** at a record: its key and its rows, or nothing at a tombstone. -/
theorem Front.readRowsAt {file : Bytes} {place : Nat} (h : fmt.Front place (file.drop place) r size) :
    fmt.readRowsAt file r.offset = if r.tombstone then .unread else .value r.key r.rows := by
  have hfits := h.fits
  rw [List.length_drop] at hfits
  have hheader : (24 : Nat) = recordHeaderSize := rfl
  generalize hb : file.drop place = b at h
  have hb24 : file.drop (place + recordHeaderSize) = b.drop recordHeaderSize := by
    rw [← hb, List.drop_drop]
  -- the header as it is read
  have hread : readLe64 ((b.take recordHeaderSize).drop 8) = readLe64 (b.drop 8) := by
    unfold readLe64
    rw [List.drop_take, List.take_take, Nat.min_eq_left (by decide)]
  have hcrc : readLe32 (b.take recordHeaderSize) = readLe32 b := readLe32_take (by decide)
  have hkind : (b.take recordHeaderSize)[4]? = b[4]? := List.getElem?_take_of_lt (by decide)
  have hbody : (b.take recordHeaderSize).drop 4 ++ (b.drop recordHeaderSize).take size =
      (b.take (recordHeaderSize + size)).drop 4 := by
    rw [List.take_add, List.drop_append_of_le_length]
    rw [List.length_take, ← hb, List.length_drop]
    omega
  unfold BitcaskFormat.readRowsAt
  rw [h.offset_eq, if_neg (by omega), Nat.add_sub_cancel, pread_of_le (by omega), hb]
  dsimp only
  rw [hread, h.size_eq, if_neg (by simp [h.allocated]), pread_of_le (by omega), hb24]
  dsimp only
  rw [hbody, hcrc, h.crc_eq, if_neg (fun hne => hne rfl), h.payload]
  dsimp only
  rw [hkind, h.kind_eq]
  unfold kindOf
  cases r.tombstone <;> rfl

theorem Records.readRowsAt (h : fmt.Records 0 bytes rs junk) {r : LogRecord K} (hr : r ∈ rs) :
    fmt.readRowsAt bytes r.offset = if r.tombstone then .unread else .value r.key r.rows := by
  obtain ⟨place, size, -, hfront⟩ := h.mem_front hr
  exact hfront.readRowsAt

end BitcaskFormat
end Index
end Otterbrix
