/-
  Otterbrix.Wal.RoundTrip

  A segment written record by record and read back.

  The records come back, whatever id they are filtered by, exactly when the
  reader keeps step with the layout of their sizes and flush points (and each
  of them decodes).  A spanning record that starts on the page where another
  one ends is the shortest way to lose one.
-/
import Otterbrix.Wal.WriterLayout
import Otterbrix.Wal.ReaderSync

namespace Otterbrix
namespace Wal

variable {Chunk : Type}

/-- An encoded entry, with the arguments it was encoded from. -/
structure LoggedRecord (c : Codec Chunk) where
  lastCrc32 : UInt32
  walId : UInt64
  txnId : UInt64
  entry : LogEntry Chunk
  bytes : Bytes
  crc : UInt32
  encoded : entry.encode c lastCrc32 walId txnId = some (bytes, crc)

/-- A COMMIT marker. -/
def LoggedRecord.ofCommit (c : Codec Chunk) (lastCrc32 : UInt32) (walId txnId commitId : UInt64) :
    LoggedRecord c where
  lastCrc32 := lastCrc32
  walId := walId
  txnId := txnId
  entry := .commit commitId
  bytes := frameBody c (bodyStart lastCrc32 walId txnId .commit (Bytes.writeLe64 commitId))
  crc := c.crc32c (bodyStart lastCrc32 walId txnId .commit (Bytes.writeLe64 commitId))
  encoded := rfl

theorem length_writeRowIds (rowIds : List Int64) :
    (writeRowIds rowIds).length = 8 * rowIds.length := by
  induction rowIds with
  | nil => rfl
  | cons i rowIds ih =>
      rw [writeRowIds, List.flatMap_cons, ← writeRowIds, List.length_append,
        Bytes.length_writeLe64, ih, List.length_cons]
      omega

/-- A DELETE record of few enough row ids. -/
def LoggedRecord.ofDelete (c : Codec Chunk) (lastCrc32 : UInt32) (walId txnId : UInt64)
    (tableOid : UInt32) (rowIds : List Int64) (h : 8 * rowIds.length + 53 < uint32Size) :
    LoggedRecord c where
  lastCrc32 := lastCrc32
  walId := walId
  txnId := txnId
  entry := .physical (.delete tableOid rowIds)
  bytes := frameBody c (dmlBody lastCrc32 walId txnId .physicalDelete tableOid 0
    (UInt64.ofNat rowIds.length) (writeRowIds rowIds))
  crc := c.crc32c (dmlBody lastCrc32 walId txnId .physicalDelete tableOid 0
    (UInt64.ofNat rowIds.length) (writeRowIds rowIds))
  encoded := by
    refine writeDmlRecord_eq_some_iff.mpr ⟨?_, rfl, rfl⟩
    rw [length_writeRowIds, Nat.mod_eq_of_lt (by omega)]
    exact h

theorem LoggedRecord.length_ofDelete (c : Codec Chunk) (lastCrc32 : UInt32) (walId txnId : UInt64)
    (tableOid : UInt32) (rowIds : List Int64) (h : 8 * rowIds.length + 53 < uint32Size) :
    (ofDelete c lastCrc32 walId txnId tableOid rowIds h).bytes.length =
      8 * rowIds.length + 53 := by
  have hheader : dmlFixedHeader = 45 := rfl
  rw [ofDelete, length_frameBody, length_dmlBody, length_writeRowIds, Nat.mod_eq_of_lt (by omega)]
  omega

/-- The record as the page layer sees it. -/
def LoggedRecord.frame {c : Codec Chunk} (r : LoggedRecord c) : Frame := Frame.ofEncode r.encoded

@[simp] theorem LoggedRecord.bytes_frame {c : Codec Chunk} (r : LoggedRecord c) :
    r.frame.bytes = r.bytes := rfl

/-- The ids and the type the record was encoded with come back. -/
theorem LoggedRecord.decoded {c : Codec Chunk} (r : LoggedRecord c) :
    (decodeRecord c r.bytes).size = r.bytes.length ∧ (decodeRecord c r.bytes).id = r.walId ∧
      (decodeRecord c r.bytes).transactionId = r.txnId ∧
      (decodeRecord c r.bytes).recordType = r.entry.recordType := by
  simpa [Record.fixed] using decodeRecord_encode r.encoded

/-- The file of a fresh segment after appends and flushes, closed by a flush. -/
def writeSegment (c : Codec Chunk) (segmentIndex : UInt32) (databaseName : Bytes)
    (ops : List (WriteOp (LoggedRecord c))) : Bytes :=
  let w := (PageWriter.openSegment allWritesSucceed [] segmentIndex databaseName).run c
    allWritesSucceed (ops.map (WriteOp.map fun r => (r.bytes, r.walId)))
  (w.flush c allWritesSucceed).2.file

/-- The shapes of its pages. -/
def segmentShapes {c : Codec Chunk} (ops : List (WriteOp (LoggedRecord c))) : List PageShape :=
  layout (sizesOf (fun r => r.bytes.length) ops)

/-- What reading back is expected to give. -/
def loggedAfter (c : Codec Chunk) (after : UInt64) (rs : List (LoggedRecord c)) :
    List (Record Chunk) :=
  (rs.filter fun r => decide (after < r.walId)).map fun r => decodeRecord c r.bytes

/-! ## The file and its pages -/

theorem appended_map {α β : Type} (f : α → β) (ops : List (WriteOp α)) :
    appended (ops.map (WriteOp.map f)) = (appended ops).map f := by
  induction ops with
  | nil => rfl
  | cons op ops ih => cases op <;> simp [WriteOp.map, appended, ih]

theorem map_map_writeOp {α β γ : Type} (f : α → β) (g : β → γ) (ops : List (WriteOp α)) :
    (ops.map (WriteOp.map f)).map (WriteOp.map g) = ops.map (WriteOp.map fun r => g (f r)) := by
  rw [List.map_map]
  refine List.map_congr_left fun op _ => ?_
  cases op <;> rfl

/-- The pages of the file hold the records in the computed shapes. -/
theorem writeSegment_pages (c : Codec Chunk) (segmentIndex : UInt32) (databaseName : Bytes)
    (ops : List (WriteOp (LoggedRecord c))) :
    ∃ pages, OnDisk c (fileHeaderPage segmentIndex databaseName)
        (writeSegment c segmentIndex databaseName ops) pages ∧
      pages.map PageContent.shape = segmentShapes ops ∧
      Laid none pages ((appended ops).map LoggedRecord.frame) none := by
  obtain ⟨pages, carry, lead, fs, ws, hframes, hsim⟩ :=
    (sim_openSegment c segmentIndex databaseName).run
      (ops.map (WriteOp.map fun r => (r.frame, r.walId)))
  obtain ⟨pages', hdisk, hshape, hlaid⟩ := hsim.closedPages
  rw [map_map_writeOp] at hdisk
  rw [sizesOf, map_map_writeOp] at hshape
  rw [hframes, appended_map, List.map_map] at hlaid
  exact ⟨pages', hdisk, hshape, hlaid⟩

variable {c : Codec Chunk} {pages : List PageContent} {after : UInt64} {rs : List (LoggedRecord c)}

theorem forall₂_holds {images : List Bytes} (h : List.Forall₂ (Holds c) images pages) :
    (∀ p ∈ images, p.length = pageSize) ∧ (∀ p ∈ images, verifyPageChecksum c p = true) ∧
      images.map viewOf = pages.map PageContent.view := by
  induction h with
  | nil => simp
  | cons hp _ ih =>
      obtain ⟨hlength, hverified, hviews⟩ := ih
      refine ⟨?_, ?_, ?_⟩
      · exact List.forall_mem_cons.mpr ⟨hp.length, hlength⟩
      · exact List.forall_mem_cons.mpr ⟨hp.verified, hverified⟩
      · rw [List.map_cons, List.map_cons, hp.view, hviews]

/-- Reading a file is reading the contents of its pages. -/
theorem OnDisk.readAllRecords {hdr file : Bytes} (h : OnDisk c hdr file pages)
    (hhdr : hdr.length = pageSize) (after : UInt64) :
    readAllRecords c after file = readViews c after {} (pages.map PageContent.view) := by
  obtain ⟨images, rfl, hall⟩ := h
  obtain ⟨hlength, hverified, hviews⟩ := forall₂_holds hall
  have hpages : dataPages (hdr ++ images.flatten) = images := by
    have hsplit := @dataPages_append hdr [] images hhdr hlength (by decide)
    rwa [List.append_nil] at hsplit
  have hread := @readPages_append _ c after {} images [] hverified (by simp)
  rw [List.append_nil] at hread
  rw [Wal.readAllRecords, hpages, hread, hviews]

/-! ## What the reader keeps of logged records -/

/-- Of records that decode, the reader keeps those above the bound. -/
theorem flatMap_kept (after : UInt64) (hvalid : ∀ r ∈ rs, (decodeRecord c r.bytes).isValid = true) :
    (rs.map LoggedRecord.frame).flatMap (kept c after) = loggedAfter c after rs := by
  induction rs with
  | nil => rfl
  | cons r rs ih =>
      obtain ⟨hr, hrs⟩ := List.forall_mem_cons.mp hvalid
      have hid : (decodeRecord c r.bytes).id = r.walId := r.decoded.2.1
      have hkept : kept c after r.frame =
          if after < r.walId then [decodeRecord c r.bytes] else [] := by
        rw [kept, r.bytes_frame, keepRecord, hr, hid]
        simp
      rw [List.map_cons, List.flatMap_cons, ih hrs, hkept, loggedAfter, loggedAfter]
      split_ifs with h <;> simp [h]

/-- Every record the reader keeps is valid. -/
theorem isValid_of_mem_kept {fs : List Frame} {r : Record Chunk}
    (h : r ∈ fs.flatMap (kept c after)) : r.isValid = true := by
  obtain ⟨f, -, hr⟩ := List.mem_flatMap.mp h
  unfold kept keepRecord at hr
  split_ifs at hr with hkeep
  · obtain rfl := List.mem_singleton.mp hr
    exact (Bool.and_eq_true_iff.mp hkeep).1
  · simp at hr

/-- The decoded records claim all the bytes of the segment. -/
theorem claimed_decoded (rs : List (LoggedRecord c)) :
    claimed (rs.map fun r => decodeRecord c r.bytes) =
      (frameBytes (rs.map LoggedRecord.frame)).length := by
  induction rs with
  | nil => rfl
  | cons r rs ih =>
      have hsize : (decodeRecord c r.bytes).size = r.bytes.length := r.decoded.1
      rw [List.map_cons, List.map_cons, frameBytes_cons, List.length_append, ← ih]
      simp [claimed, hsize]

theorem loggedAfter_zero (hids : ∀ r ∈ rs, 0 < r.walId) :
    loggedAfter c 0 rs = rs.map fun r => decodeRecord c r.bytes := by
  rw [loggedAfter, List.filter_eq_self.mpr fun r hr => decide_eq_true (hids r hr)]

/-! ## Round trip -/

/-- Survivable shapes: everything comes back. -/
theorem readAllRecords_of_readable (segmentIndex : UInt32) (databaseName : Bytes)
    {ops : List (WriteOp (LoggedRecord c))} (hshape : readable (segmentShapes ops) = true)
    (after : UInt64) :
    readAllRecords c after (writeSegment c segmentIndex databaseName ops) =
      some (((appended ops).map LoggedRecord.frame).flatMap (kept c after)) := by
  obtain ⟨pages, hdisk, hshapes, hlaid⟩ := writeSegment_pages c segmentIndex databaseName ops
  rw [hdisk.readAllRecords (length_fileHeaderPage _ _)]
  rw [← hshapes] at hshape
  exact readViews_of_follows InSync.idle hlaid hshape

/-- Any other shape: not all of the records come back. -/
theorem readAllRecords_of_not_readable (segmentIndex : UInt32) (databaseName : Bytes)
    {ops : List (WriteOp (LoggedRecord c))} (hshape : readable (segmentShapes ops) = false)
    (after : UInt64) :
    readAllRecords c after (writeSegment c segmentIndex databaseName ops) ≠
      some ((appended ops).map fun r => decodeRecord c r.bytes) := by
  obtain ⟨pages, hdisk, hshapes, hlaid⟩ := writeSegment_pages c segmentIndex databaseName ops
  rw [hdisk.readAllRecords (length_fileHeaderPage _ _)]
  rw [← hshapes] at hshape
  intro hread
  have hloss := loses_of_not_follows InSync.idle hlaid hshape _ hread
  have hbytes := hlaid.bytes
  rw [claimed_decoded] at hloss
  simp only [Carry.done, Carry.frames, List.nil_append, Nat.add_zero] at hbytes
  rw [hbytes, List.length_nil] at hloss
  omega

/-- **Segment round trip.** Reading a segment back gives, for every bound, the
    records above it in append order, each as its bytes decode, exactly when
    the reader survives the shapes of the pages and every record decodes. -/
theorem segment_round_trip_iff (c : Codec Chunk) (segmentIndex : UInt32) (databaseName : Bytes)
    (ops : List (WriteOp (LoggedRecord c))) (hids : ∀ r ∈ appended ops, 0 < r.walId) :
    (∀ after, readAllRecords c after (writeSegment c segmentIndex databaseName ops) =
        some (loggedAfter c after (appended ops))) ↔
      readable (segmentShapes ops) = true ∧
        ∀ r ∈ appended ops, (decodeRecord c r.bytes).isValid = true := by
  constructor
  · intro h
    have hzero := h 0
    rw [loggedAfter_zero hids] at hzero
    have hshape : readable (segmentShapes ops) = true := by
      by_contra hnot
      exact readAllRecords_of_not_readable segmentIndex databaseName
        (Bool.eq_false_iff.mpr hnot) 0 hzero
    refine ⟨hshape, fun r hr => ?_⟩
    rw [readAllRecords_of_readable segmentIndex databaseName hshape, Option.some.injEq] at hzero
    have hmem : decodeRecord c r.bytes ∈
        ((appended ops).map LoggedRecord.frame).flatMap (kept c 0) := by
      rw [hzero]
      exact List.mem_map_of_mem hr
    exact isValid_of_mem_kept hmem
  · rintro ⟨hshape, hvalid⟩ after
    rw [readAllRecords_of_readable segmentIndex databaseName hshape, flatMap_kept after hvalid]

/-- A codec for closed examples: a constant checksum and empty chunks. -/
def plainCodec : Codec Unit where
  crc32c := fun _ => 0
  serializeBinary := fun _ => []
  deserializeBinary := fun _ => some ()

/-- Two markers with a flush between them come back. -/
theorem segment_round_trip_two_commits :
    let ops := [.append (.ofCommit plainCodec 0 1 5 9), .flush,
      .append (.ofCommit plainCodec 0 2 6 10)]
    ∀ after, readAllRecords plainCodec after (writeSegment plainCodec 0 [] ops) =
      some (loggedAfter plainCodec after (appended ops)) := by
  intro ops
  refine (segment_round_trip_iff plainCodec 0 [] ops (by decide)).mpr ⟨by decide, by decide⟩

/-- Two records of 4853 bytes: the second one starts on the page where the
    first one ends. -/
theorem second_span_lost (r₁ r₂ : LoggedRecord c) (h₁ : r₁.bytes.length = 4853)
    (h₂ : r₂.bytes.length = 4853) (hids : 0 < r₁.walId ∧ 0 < r₂.walId) :
    readAllRecords c 0 (writeSegment c 0 [] [.append r₁, .append r₂]) ≠
      some (loggedAfter c 0 [r₁, r₂]) := by
  have hshapes : segmentShapes [.append r₁, .append r₂] = layout [.append 4853, .append 4853] := by
    simp only [segmentShapes, sizesOf, List.map_cons, List.map_nil, WriteOp.map, h₁, h₂]
  have hlost : readable (segmentShapes [.append r₁, .append r₂]) = false := by
    rw [hshapes]
    decide
  rw [loggedAfter_zero (by simpa using hids)]
  exact readAllRecords_of_not_readable 0 [] hlost 0

/-- Two DELETE records of 600 row ids each: the second one does not come back. -/
theorem segment_round_trip_loses_second_span :
    let r (id : UInt64) := LoggedRecord.ofDelete plainCodec 0 id 5 16384 (List.replicate 600 0)
      (by rw [List.length_replicate]; decide)
    readAllRecords plainCodec 0 (writeSegment plainCodec 0 [] [.append (r 1), .append (r 2)]) ≠
      some (loggedAfter plainCodec 0 [r 1, r 2]) := by
  intro r
  have hlen (id : UInt64) : (r id).bytes.length = 4853 := by
    rw [LoggedRecord.length_ofDelete, List.length_replicate]
  exact second_span_lost (r 1) (r 2) (hlen 1) (hlen 2) (by decide)

end Wal
end Otterbrix
