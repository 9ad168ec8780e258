/-
  Otterbrix.Wal.LastPage

  What `truncate_before` knows of a segment: `page_end_lsn` of its last page.

  A writer stamps the open page with the id of every record it puts on it, the
  pages a record spills over included.  So the last page of a flushed segment
  ends with the id of the last record (`Ends.flush`), and a segment goes exactly
  if that record is at or below the checkpoint (`truncatable_eq`).
-/
import Mathlib.Data.List.Induction
import Otterbrix.Wal.RoundTrip
import Otterbrix.Wal.Worker

namespace Otterbrix
namespace Wal

variable {Chunk : Type}

/-! ## The last page of a file -/

/-- `page_end_lsn` of the last data page. -/
def lastEndLsn (file : Bytes) : Option UInt64 :=
  if pageCount file = 0 then none
  else some (PageHeader.ofBytes (pageAt file (pageCount file))).pageEndLsn

/-- A segment is removed if it has no data page or ends at or below the checkpoint. -/
theorem Worker.truncatable_eq (checkpoint : UInt64) (file : Bytes) :
    Worker.truncatable checkpoint file =
      (lastEndLsn file).all (fun id => decide (id ≤ checkpoint)) := by
  unfold Worker.truncatable lastEndLsn
  by_cases hnone : pageCount file = 0
  · rw [if_pos hnone, hnone]
    rfl
  · rw [if_neg hnone, beq_eq_false_iff_ne.mpr hnone, Bool.false_or]
    rfl

theorem lastEndLsn_header {file : Bytes} (hlen : file.length = pageSize) :
    lastEndLsn file = none := by
  have hcount : pageCount file = 0 := by
    rw [pageCount, if_pos (Nat.le_of_eq hlen)]
  rw [lastEndLsn, if_pos hcount]

/-- A page put behind whole pages is the last one. -/
theorem lastEndLsn_append {file page : Bytes} {n : Nat} (hfile : file.length = (n + 1) * pageSize)
    (hpage : page.length = pageSize) :
    lastEndLsn (file ++ page) = some (PageHeader.ofBytes page).pageEndLsn := by
  have hpos : 0 < pageSize := by decide
  have hlen : (file ++ page).length = (n + 2) * pageSize := by
    rw [List.length_append, hfile, hpage, ← Nat.succ_mul]
  have hcount : pageCount (file ++ page) = n + 1 := by
    have hmore : ¬(n + 2) * pageSize ≤ pageSize := by
      rw [Nat.succ_mul, Nat.succ_mul]
      omega
    rw [pageCount, hlen, if_neg hmore, Nat.mul_div_cancel _ hpos]
    rfl
  have hat : pageAt (file ++ page) (n + 1) = page := by
    rw [pageAt, List.drop_left' hfile, List.take_of_length_le (Nat.le_of_eq hpage)]
  rw [lastEndLsn, hcount, if_neg (Nat.succ_ne_zero n), hat]

theorem pageEndLsn_buildPage (c : Codec Chunk) (hdr : PageHeader) (data : Bytes) :
    (PageHeader.ofBytes (buildPage c hdr data)).pageEndLsn = hdr.pageEndLsn := by
  unfold buildPage
  rw [PageHeader.ofBytes_toBytes_append]

/-! ## The writer -/

/-- The file of the writer is made of whole pages, and the writer is at its end. -/
structure WholePages (w : PageWriter) : Prop where
  fileSize : w.fileSize = w.file.length
  pages : ∃ n, w.file.length = (n + 1) * pageSize

/-- The last record appended to the segment of `w` is the last of `ids`. -/
structure Ends (w : PageWriter) (ids : List UInt64) : Prop extends WholePages w where
  buffered : w.hasData = true → ids.getLast? = some w.pageEndLsn
  written : w.hasData = false → lastEndLsn w.file = ids.getLast?

/-- A page that is flushed becomes the last one, with the id it was stamped with. -/
theorem WholePages.flushPage {w : PageWriter} (h : WholePages w) (c : Codec Chunk)
    (hdata : w.hasData = true) :
    ∃ w', w.flushPage c allWritesSucceed = (true, w') ∧ WholePages w' ∧ w'.hasData = false ∧
      lastEndLsn w'.file = some w.pageEndLsn := by
  obtain ⟨n, hn⟩ := h.pages
  have hpage := length_buildPage c w.header w.data_le
  have hlast := lastEndLsn_append hn hpage
  rw [pageEndLsn_buildPage] at hlast
  refine ⟨_, flushPage_eq c hdata h.fileSize, ⟨?_, n + 1, ?_⟩, rfl, hlast⟩
  · show w.fileSize + pageSize = (w.file ++ buildPage c w.header w.data).length
    rw [List.length_append, hpage, h.fileSize]
  · show (w.file ++ buildPage c w.header w.data).length = (n + 1 + 1) * pageSize
    rw [List.length_append, hpage, hn, Nat.succ_mul (n + 1)]

/-- **Step.** -/
theorem Ends.flush {w : PageWriter} {ids : List UInt64} (h : Ends w ids) (c : Codec Chunk) :
    Ends (w.flush c allWritesSucceed).2 ids ∧
      lastEndLsn (w.flush c allWritesSucceed).2.file = ids.getLast? := by
  unfold PageWriter.flush
  by_cases hdata : w.hasData = true
  · obtain ⟨w', hflush, hwhole, hempty, hlast⟩ := h.toWholePages.flushPage c hdata
    have hends : lastEndLsn w'.file = ids.getLast? := by rw [hlast, h.buffered hdata]
    rw [if_pos hdata, hflush]
    exact ⟨⟨hwhole, fun hfull => absurd (hempty.symm.trans hfull) (by decide), fun _ => hends⟩,
      hends⟩
  · rw [if_neg hdata]
    exact ⟨h, h.written (Bool.eq_false_iff.mpr hdata)⟩

/-- The loop of `append`: every page it fills and the one it ends on carry the id. -/
theorem WholePages.appendLoop {w : PageWriter} (h : WholePages w) (c : Codec Chunk)
    (walId : UInt64) (isFirstChunk : Bool) {src : Bytes} (hsrc : src ≠ [])
    (hid : w.pageEndLsn = walId) :
    ∃ w', w.appendLoop c allWritesSucceed walId isFirstChunk src = (true, w') ∧ WholePages w' ∧
      w'.hasData = true ∧ w'.pageEndLsn = walId := by
  induction isFirstChunk, src, w using PageWriter.appendLoop.induct c allWritesSucceed walId with
  | case1 isFirst src w hnil => exact absurd (List.length_eq_zero_iff.mp hnil) hsrc
  | case2 isFirst src w hnil hfits =>
    -- the record ends on this page
    refine ⟨w.putLast isFirst src hfits, ?_, ⟨h.fileSize, h.pages⟩, rfl, hid⟩
    rw [PageWriter.appendLoop, if_neg hnil, dif_pos hfits]
  | case3 isFirst src w hnil hfits w' hflush ih =>
    -- the page is filled up and flushed, and the loop goes on with the rest
    have hput : WholePages (w.putPart src) := ⟨h.fileSize, h.pages⟩
    obtain ⟨w₁, hw₁, hwhole, -, -⟩ := hput.flushPage c rfl
    obtain rfl : w₁ = w' := congrArg Prod.snd (hw₁.symm.trans hflush)
    have hrest : src.drop w.space ≠ [] := by
      rw [Ne, List.drop_eq_nil_iff]
      omega
    obtain ⟨w₂, hw₂, hdone⟩ := ih ⟨hwhole.fileSize, hwhole.pages⟩ hrest rfl
    refine ⟨w₂, ?_, hdone⟩
    rw [PageWriter.appendLoop, if_neg hnil, dif_neg hfits, hflush]
    exact hw₂
  | case4 isFirst src w hnil hfits flushed w' hflush hfailed =>
    -- no page write fails
    have hput : WholePages (w.putPart src) := ⟨h.fileSize, h.pages⟩
    obtain ⟨w₁, hw₁, -⟩ := hput.flushPage c rfl
    have htrue : flushed = true := (congrArg Prod.fst (hw₁.symm.trans hflush)).symm
    exact absurd htrue hfailed

/-- **Step.** -/
theorem Ends.append {w : PageWriter} {ids : List UInt64} (h : Ends w ids) (c : Codec Chunk)
    {bytes : Bytes} (hne : bytes ≠ []) (walId : UInt64) :
    Ends (w.append c allWritesSucceed bytes walId).2 (ids ++ [walId]) := by
  have hlen : ¬bytes.length = 0 := fun hzero => hne (List.length_eq_zero_iff.mp hzero)
  have hstamped : WholePages { w with
      pageLsn := if w.pageLsn = 0 then walId else w.pageLsn
      pageEndLsn := walId } := ⟨h.fileSize, h.pages⟩
  obtain ⟨w', hw', hwhole, hdata, hid⟩ := hstamped.appendLoop c walId true hne rfl
  rw [PageWriter.append, if_neg hlen, hw']
  refine ⟨hwhole, fun _ => ?_, fun hempty => absurd (hdata.symm.trans hempty) (by decide)⟩
  rw [List.getLast?_append, List.getLast?_singleton, Option.some_or, hid]

/-- A fresh segment. -/
theorem ends_openSegment (segmentIndex : UInt32) (databaseName : Bytes) :
    Ends (PageWriter.openSegment allWritesSucceed [] segmentIndex databaseName) [] := by
  have hfile : (PageWriter.openSegment allWritesSucceed [] segmentIndex databaseName).file =
      fileHeaderPage segmentIndex databaseName := by
    show writeAt [] 0 (fileHeaderPage segmentIndex databaseName) = _
    rw [writeAt, List.take_nil, List.nil_append, List.drop_nil, List.append_nil]
  have hlen := length_fileHeaderPage segmentIndex databaseName
  refine ⟨⟨?_, 0, ?_⟩, fun hdata => ?_, fun _ => ?_⟩
  · show pageSize = _
    rw [hfile, hlen]
  · rw [hfile, hlen, Nat.zero_add, Nat.one_mul]
  · exact absurd hdata Bool.false_ne_true
  · rw [hfile, lastEndLsn_header hlen]
    rfl

end Wal
end Otterbrix
