/-
  Otterbrix.Wal.PageWriter

  `wal_page_writer_t`: records are copied into a page buffer; a record that
  does not fit fills the page, flushes it and goes on in the next one.  The
  only trace of the split are two flag bits: CONT on every page that carries a
  piece of the record, END on the page where it finishes.

  `ok` says which page writes succeed, by file offset.
-/
import Otterbrix.Wal.Page

namespace Otterbrix
namespace Wal

variable {Chunk : Type}

/-- State of `wal_page_writer_t`.  `data` is the page buffer between the header
    and `current_offset_`; the rest of the buffer is zero. -/
structure PageWriter where
  file : Bytes
  fileSize : Nat
  data : Bytes
  numRecords : UInt32
  pageLsn : UInt64
  pageEndLsn : UInt64
  pageFlags : UInt16
  hasData : Bool
  data_le : data.length ≤ pageDataSize

namespace PageWriter

/-- `start_new_page`. -/
def startNewPage (w : PageWriter) : PageWriter where
  file := w.file
  fileSize := w.fileSize
  data := []
  numRecords := 0
  pageLsn := 0
  pageEndLsn := 0
  pageFlags := 0
  hasData := false
  data_le := Nat.zero_le _

/-- The constructor: an existing segment is resumed at its last page boundary,
    anything up to one page long gets a fresh file header. -/
def openSegment (ok : Nat → Bool) (existing : Bytes) (segmentIndex : UInt32)
    (databaseName : Bytes) : PageWriter :=
  let blank : PageWriter := ⟨existing, 0, [], 0, 0, 0, 0, false, Nat.zero_le _⟩
  if existing.length > pageSize then
    startNewPage { blank with fileSize := existing.length / pageSize * pageSize }
  else if ok 0 then
    startNewPage { blank with
      file := writeAt existing 0 (fileHeaderPage segmentIndex databaseName)
      fileSize := pageSize }
  else startNewPage blank

/-- The header `flush_page` fills in. -/
def header (w : PageWriter) : PageHeader where
  pageLsn := w.pageLsn
  pageEndLsn := w.pageEndLsn
  numRecords := w.numRecords
  dataSize := UInt32.ofNat w.data.length
  checksum := 0
  flags := w.pageFlags
  reserved := 0

/-- `flush_page`.  A failed write leaves the buffer as it is. -/
def flushPage (c : Codec Chunk) (ok : Nat → Bool) (w : PageWriter) : Bool × PageWriter :=
  if !w.hasData && w.numRecords == 0 && (w.pageFlags &&& pagePartialCont) == 0 then (true, w)
  else if ok w.fileSize then
    (true, startNewPage { w with
      file := writeAt w.file w.fileSize (buildPage c w.header w.data)
      fileSize := w.fileSize + pageSize })
  else (false, w)

/-- `flush`. -/
def flush (c : Codec Chunk) (ok : Nat → Bool) (w : PageWriter) : Bool × PageWriter :=
  if w.hasData then w.flushPage c ok else (true, w)

/-- Free bytes of the page buffer. -/
def space (w : PageWriter) : Nat := pageDataSize - w.data.length

/-- The branch of `append` where the record (or its remainder) fits. -/
def putLast (w : PageWriter) (isFirstChunk : Bool) (src : Bytes) (h : src.length ≤ w.space) :
    PageWriter where
  file := w.file
  fileSize := w.fileSize
  data := w.data ++ src
  numRecords := if isFirstChunk then w.numRecords + 1 else w.numRecords
  pageLsn := w.pageLsn
  pageEndLsn := w.pageEndLsn
  pageFlags := if isFirstChunk then w.pageFlags else w.pageFlags ||| pagePartialEnd
  hasData := true
  data_le := by
    have hle := w.data_le
    unfold space at h
    rw [List.length_append]
    omega

/-- The branch of `append` where the page is filled up. -/
def putPart (w : PageWriter) (src : Bytes) : PageWriter where
  file := w.file
  fileSize := w.fileSize
  data := w.data ++ src.take w.space
  numRecords := w.numRecords
  pageLsn := w.pageLsn
  pageEndLsn := w.pageEndLsn
  pageFlags := w.pageFlags ||| pagePartialCont
  hasData := true
  data_le := by
    have hle := w.data_le
    have htake := List.length_take_le w.space src
    unfold space at htake
    rw [List.length_append]
    unfold space
    omega

/-- The page that continues a spanning record. -/
def continuationPage (w : PageWriter) (walId : UInt64) : PageWriter :=
  { w.startNewPage with pageFlags := pagePartialCont, pageLsn := walId, pageEndLsn := walId }

/-- The loop of `append`. -/
def appendLoop (c : Codec Chunk) (ok : Nat → Bool) (walId : UInt64) (isFirstChunk : Bool)
    (src : Bytes) (w : PageWriter) : Bool × PageWriter :=
  if src.length = 0 then (true, w)
  else if h : src.length ≤ w.space then (true, w.putLast isFirstChunk src h)
  else
    let (flushed, w') := (w.putPart src).flushPage c ok
    if flushed then appendLoop c ok walId false (src.drop w.space) (w'.continuationPage walId)
    else (false, w')
termination_by (src.length, w.data.length)
decreasing_by
  -- a page with room takes a piece of the record; a full page is replaced by an empty one
  have hroom : w.space = pageDataSize - w.data.length := rfl
  have hpos : 0 < pageDataSize := by decide
  simp only [continuationPage, startNewPage, List.length_drop, List.length_nil]
  rcases Nat.eq_zero_or_pos w.space with hfull | hfree
  · rw [hfull, Nat.sub_zero]
    exact Prod.Lex.right _ (by omega)
  · exact Prod.Lex.left _ _ (by omega)

/-- `append`. -/
def append (c : Codec Chunk) (ok : Nat → Bool) (w : PageWriter) (data : Bytes) (walId : UInt64) :
    Bool × PageWriter :=
  if data.length = 0 then (true, w)
  else
    appendLoop c ok walId true data
      { w with
        pageLsn := if w.pageLsn = 0 then walId else w.pageLsn
        pageEndLsn := walId }

end PageWriter
end Wal
end Otterbrix
