/-
  Otterbrix.Wal.Truncation

  `truncate_before` removes a closed segment when `page_end_lsn` of its last page is at or below the
  checkpoint.  A run of a worker is followed here together with the records it has appended: which
  segment each went to, and whether its last byte has reached the file.

  A record is on disk when its bytes lie in the data of consecutive pages, so a file is looked at as
  the concatenation of the data of its pages.  Appending continues that byte string; a page that is
  flushed, whether by `flush` or because it is full, moves it from the page buffer to the file.
-/
import Otterbrix.Wal.LastPage
import Otterbrix.Wal.TornTail

namespace Otterbrix
namespace Wal

variable {Chunk : Type}

/-! ## The bytes of a file -/

/-- The data of all pages of a file. -/
def fileData (file : Bytes) : Bytes := ((dataPages file).map pageData).flatten

theorem dataPages_snoc {file page : Bytes} {n : Nat} (hfile : file.length = (n + 1) * pageSize)
    (hpage : page.length = pageSize) : dataPages (file ++ page) = dataPages file ++ [page] := by
  obtain ⟨header, body, rfl, hheader⟩ : ∃ header body, file = header ++ body ∧
      header.length = pageSize := by
    refine ⟨file.take pageSize, file.drop pageSize, (List.take_append_drop _ _).symm, ?_⟩
    rw [List.length_take, hfile, Nat.succ_mul]
    omega
  obtain ⟨pages, rest, hbody, hpages, hrest⟩ := exists_pages body
  -- whole pages leave no torn rest
  have hnil : rest = [] := by
    rw [hbody, List.length_append, List.length_append, length_flatten_pages hpages, hheader,
      Nat.succ_mul] at hfile
    have hmod : rest.length % pageSize = 0 := by
      have heq : rest.length + pages.length * pageSize = n * pageSize := by omega
      have h := congrArg (· % pageSize) heq
      simpa using h
    rw [Nat.mod_eq_of_lt hrest] at hmod
    exact List.length_eq_zero_iff.mp hmod
  subst hnil
  have hempty : ([] : Bytes).length < pageSize := by decide
  have hsnoc : ∀ p ∈ pages ++ [page], p.length = pageSize := by
    intro p hp
    rcases List.mem_append.mp hp with h | h
    · exact hpages p h
    · rw [List.mem_singleton.mp h, hpage]
  have hbefore := dataPages_append hheader hpages hempty
  have hafter := dataPages_append hheader hsnoc hempty
  rw [List.flatten_append, List.flatten_singleton] at hafter
  rw [hbody, hbefore, ← hafter]
  simp only [List.append_assoc, List.append_nil]

theorem fileData_snoc {file page : Bytes} {n : Nat} (hfile : file.length = (n + 1) * pageSize)
    (hpage : page.length = pageSize) :
    fileData (file ++ page) = fileData file ++ pageData page := by
  unfold fileData
  rw [dataPages_snoc hfile hpage, List.map_append, List.flatten_append, List.map_singleton,
    List.flatten_singleton]

theorem dataPages_header {file : Bytes} (hlen : file.length = pageSize) : dataPages file = [] := by
  have hcount : pageCount file = 0 := by
    rw [pageCount, if_pos (Nat.le_of_eq hlen)]
  rw [dataPages, hcount, List.range_zero, List.map_nil]

/-! ## The writer -/

/-- A writer at the end of a file of whole pages that all pass their check. -/
structure Sound (c : Codec Chunk) (w : PageWriter) : Prop extends WholePages w where
  verified : verifyChain c w.file = true

/-- What a step of the writer does to the file: it stays, or what was buffered has reached it and
the last page carries the id. -/
def Reaches (w w' : PageWriter) (walId : UInt64) : Prop :=
  w'.file = w.file ∨
    (fileData w.file ++ w.data <+: fileData w'.file ∧ lastEndLsn w'.file = some walId)

theorem pageData_header (c : Codec Chunk) (w : PageWriter) :
    pageData (buildPage c w.header w.data) = w.data := by
  have hle := w.data_le
  have hpage : pageDataSize < 2 ^ 32 := by decide
  apply pageData_buildPage
  rw [PageWriter.header, UInt32.toNat_ofNat']
  exact Nat.mod_eq_of_lt (by omega)

variable {c : Codec Chunk} {w : PageWriter}

/-- A flushed page. -/
theorem Sound.flushPage (h : Sound c w) (hdata : w.hasData = true) :
    ∃ w', w.flushPage c allWritesSucceed = (true, w') ∧ Sound c w' ∧ w'.hasData = false ∧
      w'.data = [] ∧ fileData w'.file = fileData w.file ++ w.data ∧
      lastEndLsn w'.file = some w.pageEndLsn := by
  obtain ⟨n, hn⟩ := h.pages
  have hpage := length_buildPage c w.header w.data_le
  obtain ⟨w', hflush, hwhole, hempty, hlast⟩ := h.toWholePages.flushPage c hdata
  have hw' := congrArg Prod.snd ((flushPage_eq c hdata h.fileSize).symm.trans hflush)
  have hfile : w'.file = w.file ++ buildPage c w.header w.data :=
    (congrArg PageWriter.file hw').symm
  refine ⟨w', hflush, ⟨hwhole, ?_⟩, hempty, ?_, ?_, hlast⟩
  · rw [hfile, verifyChain, dataPages_snoc hn hpage, List.all_append, List.all_cons,
      verifyPageChecksum_buildPage, List.all_nil, Bool.and_true, Bool.and_true]
    exact h.verified
  · exact (congrArg PageWriter.data hw').symm
  · rw [hfile, fileData_snoc hn hpage, pageData_header]

/-- `flush` leaves nothing in the buffer. -/
theorem Sound.flush (h : Sound c w) :
    Sound c (w.flush c allWritesSucceed).2 ∧ (w.flush c allWritesSucceed).2.hasData = false ∧
      (w.hasData = true → fileData (w.flush c allWritesSucceed).2.file = fileData w.file ++ w.data) ∧
      Reaches w (w.flush c allWritesSucceed).2 w.pageEndLsn := by
  unfold PageWriter.flush
  by_cases hdata : w.hasData = true
  · obtain ⟨w', hflush, hsound, hempty, -, hbytes, hlast⟩ := h.flushPage hdata
    rw [if_pos hdata, hflush]
    exact ⟨hsound, hempty, fun _ => hbytes, .inr ⟨hbytes ▸ List.prefix_rfl, hlast⟩⟩
  · rw [if_neg hdata]
    exact ⟨h, Bool.eq_false_iff.mpr hdata, fun hd => absurd hd hdata, .inl rfl⟩

/-- **The loop of `append`.**  The record continues the byte string of the file, and every page that
is flushed on the way carries its id. -/
theorem Sound.appendLoop (h : Sound c w) (walId : UInt64) (isFirstChunk : Bool) {src : Bytes}
    (hsrc : src ≠ []) (hid : w.pageEndLsn = walId) :
    ∃ w', w.appendLoop c allWritesSucceed walId isFirstChunk src = (true, w') ∧ Sound c w' ∧
      w'.hasData = true ∧ w'.pageEndLsn = walId ∧
      fileData w'.file ++ w'.data = fileData w.file ++ w.data ++ src ∧ Reaches w w' walId := by
  induction isFirstChunk, src, w using PageWriter.appendLoop.induct c allWritesSucceed walId with
  | case1 isFirst src w hnil => exact absurd (List.length_eq_zero_iff.mp hnil) hsrc
  | case2 isFirst src w hnil hfits =>
    -- the record ends on this page
    refine ⟨w.putLast isFirst src hfits, ?_, ⟨⟨h.fileSize, h.pages⟩, h.verified⟩, rfl, hid, ?_,
      .inl rfl⟩
    · rw [PageWriter.appendLoop, if_neg hnil, dif_pos hfits]
    · show fileData w.file ++ (w.data ++ src) = _
      rw [List.append_assoc]
  | case3 isFirst src w hnil hfits w' hflush ih =>
    -- the page is filled up and flushed, and the loop goes on with the rest
    have hput : Sound c (w.putPart src) := ⟨⟨h.fileSize, h.pages⟩, h.verified⟩
    obtain ⟨w₁, hw₁, hsound, -, -, hbytes, hlast⟩ := hput.flushPage rfl
    obtain rfl : w₁ = w' := congrArg Prod.snd (hw₁.symm.trans hflush)
    have hrest : src.drop w.space ≠ [] := by
      rw [Ne, List.drop_eq_nil_iff]
      omega
    have hcont : Sound c (w₁.continuationPage walId) :=
      ⟨⟨hsound.fileSize, hsound.pages⟩, hsound.verified⟩
    obtain ⟨w₂, hw₂, hsound₂, hdata₂, hid₂, hbytes₂, hreach⟩ := ih hcont hrest rfl
    have hbytes₁ : fileData w₁.file = fileData w.file ++ w.data ++ src.take w.space := by
      rw [hbytes, List.append_assoc]
      rfl
    have hpart : fileData w.file ++ w.data <+: fileData w₁.file := by
      rw [hbytes₁]
      exact List.prefix_append _ _
    refine ⟨w₂, ?_, hsound₂, hdata₂, hid₂, ?_, .inr ?_⟩
    · rw [PageWriter.appendLoop, if_neg hnil, dif_neg hfits, hflush]
      exact hw₂
    · rw [hbytes₂]
      show fileData w₁.file ++ [] ++ src.drop w.space = _
      rw [List.append_nil, hbytes₁, List.append_assoc _ (src.take _), List.take_append_drop]
    · rcases hreach with hsame | ⟨hfront, hend⟩
      · -- the rest fitted on the next page
        rw [hsame]
        exact ⟨hpart, hlast.trans (congrArg some hid)⟩
      · refine ⟨hpart.trans ?_, hend⟩
        exact (List.prefix_append _ _).trans hfront
  | case4 isFirst src w hnil hfits flushed w' hflush hfailed =>
    -- no page write fails
    have hput : Sound c (w.putPart src) := ⟨⟨h.fileSize, h.pages⟩, h.verified⟩
    obtain ⟨w₁, hw₁, -⟩ := hput.flushPage rfl
    have htrue : flushed = true := (congrArg Prod.fst (hw₁.symm.trans hflush)).symm
    exact absurd htrue hfailed

theorem Sound.append (h : Sound c w) (walId : UInt64) {bytes : Bytes} (hbytes : bytes ≠ []) :
    ∃ w', (w.append c allWritesSucceed bytes walId).2 = w' ∧ Sound c w' ∧ w'.hasData = true ∧
      w'.pageEndLsn = walId ∧ fileData w'.file ++ w'.data = fileData w.file ++ w.data ++ bytes ∧
      Reaches w w' walId := by
  have hlen : ¬bytes.length = 0 := fun hzero => hbytes (List.length_eq_zero_iff.mp hzero)
  have hstamped : Sound c { w with
      pageLsn := if w.pageLsn = 0 then walId else w.pageLsn
      pageEndLsn := walId } := ⟨⟨h.fileSize, h.pages⟩, h.verified⟩
  obtain ⟨w', hw', hrest⟩ := hstamped.appendLoop walId true hbytes rfl
  refine ⟨w', ?_, hrest⟩
  rw [PageWriter.append, if_neg hlen, hw']

/-- An existing segment of whole pages is resumed behind its last page. -/
theorem sound_openSegment {existing : Bytes} {n : Nat}
    (hpages : existing.length = (n + 1) * pageSize) (hverified : verifyChain c existing = true)
    (segmentIndex : UInt32) (databaseName : Bytes) :
    let w := PageWriter.openSegment allWritesSucceed existing segmentIndex databaseName
    Sound c w ∧ w.hasData = false ∧ fileData w.file = fileData existing ∧
      lastEndLsn w.file = lastEndLsn existing := by
  have hpos : 0 < pageSize := by decide
  intro w
  by_cases hmore : pageSize < existing.length
  · obtain ⟨hfile, hsize, hdata⟩ :=
      openSegment_existing allWritesSucceed segmentIndex databaseName hmore
    have hwhole : existing.length / pageSize * pageSize = existing.length := by
      rw [hpages, Nat.mul_div_cancel _ hpos]
    refine ⟨⟨⟨?_, n, ?_⟩, ?_⟩, hdata, congrArg fileData hfile, congrArg lastEndLsn hfile⟩
    · rw [hsize, hfile, hwhole]
    · rw [hfile, hpages]
    · rw [hfile, hverified]
  · -- a file of one page is its header, which is written again
    have hone : existing.length = pageSize := by
      rw [hpages, Nat.succ_mul] at hmore ⊢
      omega
    have hfile : w.file = fileHeaderPage segmentIndex databaseName := by
      have hopen : w.file = writeAt existing 0 (fileHeaderPage segmentIndex databaseName) := by
        show (PageWriter.openSegment allWritesSucceed existing segmentIndex databaseName).file = _
        unfold PageWriter.openSegment
        rw [if_neg hmore]
        rfl
      rw [hopen, writeAt, List.take_zero, List.nil_append, Nat.zero_add, length_fileHeaderPage,
        ← hone, List.drop_length, List.append_nil]
    have hsize : w.fileSize = pageSize ∧ w.hasData = false := by
      show (PageWriter.openSegment allWritesSucceed existing segmentIndex databaseName).fileSize = _
        ∧ (PageWriter.openSegment allWritesSucceed existing segmentIndex databaseName).hasData = _
      unfold PageWriter.openSegment
      rw [if_neg hmore]
      exact ⟨rfl, rfl⟩
    have hheader := length_fileHeaderPage segmentIndex databaseName
    refine ⟨⟨⟨?_, 0, ?_⟩, ?_⟩, hsize.2, ?_, ?_⟩
    · rw [hsize.1, hfile, hheader]
    · rw [hfile, hheader, Nat.zero_add, Nat.one_mul]
    · rw [hfile, verifyChain, dataPages_header hheader, List.all_nil]
    · rw [hfile, fileData, fileData, dataPages_header hheader, dataPages_header hone]
    · rw [hfile, lastEndLsn_header hheader, lastEndLsn_header hone]

/-- A fresh segment. -/
theorem sound_freshSegment (c : Codec Chunk) (segmentIndex : UInt32) (databaseName : Bytes) :
    let w := PageWriter.openSegment allWritesSucceed [] segmentIndex databaseName
    Sound c w ∧ w.hasData = false := by
  have hends := ends_openSegment segmentIndex databaseName
  have hfile : (PageWriter.openSegment allWritesSucceed [] segmentIndex databaseName).file =
      fileHeaderPage segmentIndex databaseName := by
    show writeAt [] 0 (fileHeaderPage segmentIndex databaseName) = _
    rw [writeAt, List.take_nil, List.nil_append, List.drop_nil, List.append_nil]
  refine ⟨⟨hends.toWholePages, ?_⟩, rfl⟩
  rw [hfile, verifyChain, dataPages_header (length_fileHeaderPage _ _), List.all_nil]

/-! ## Runs -/

/-- An appended record: its segment, id and bytes. -/
structure AppendedRecord where
  segment : Nat
  walId : UInt64
  bytes : Bytes

/-- A worker, the records whose last byte is in a file, those that are still in the page buffer, the
last id and the checkpoints so far. -/
structure History where
  worker : Worker
  flushed : List AppendedRecord := []
  pending : List AppendedRecord := []
  lastId : Option UInt64 := none
  checkpoints : List UInt64 := []

/-- What happens to a worker.  A restart loses the page buffer. -/
inductive HistoryEvent where
  | append (walId : UInt64) (record : Frame) (crc : UInt32)
  | flush
  | truncateBefore (checkpoint : UInt64)
  | restart

namespace History

/-- The records of the page buffer go to the file. -/
def moved (h : History) (worker : Worker) : History :=
  { h with worker := worker, flushed := h.flushed ++ h.pending, pending := [] }

/-- `ensure_writer` as the first half of an append. -/
def ensureWriter (c : Codec Chunk) (cfg : WalConfig) (h : History) : History :=
  if h.worker.mustRotate cfg then h.moved (h.worker.ensureWriter c cfg allWritesSucceed) else h

/-- The second half: the record goes to the page buffer; a page that fills up takes what was there
to the file. -/
def write (c : Codec Chunk) (h : History) (walId : UInt64) (bytes : Bytes) : History :=
  let writer := (h.worker.writer.append c allWritesSucceed bytes walId).2
  let worker := { h.worker with writer := writer }
  let h' := if writer.file = h.worker.writer.file then { h with worker := worker }
    else h.moved worker
  { h' with
    pending := h'.pending ++ [⟨worker.currentSegmentIndex, walId, bytes⟩]
    lastId := some walId }

/-- One event; no result if the constructor of the restarted worker does not return. -/
def perform (c : Codec Chunk) (cfg : WalConfig) (h : History) : HistoryEvent → Option History
  | .append walId record crc =>
      let h' := { h with worker := { h.worker with id := walId, lastCrc := crc } }
      some ((h'.ensureWriter c cfg).write c walId record.bytes)
  | .flush => some (h.moved (h.worker.flush c allWritesSucceed))
  | .truncateBefore checkpoint => some { h with
      worker := h.worker.truncateBefore checkpoint
      checkpoints := h.checkpoints ++ [checkpoint] }
  | .restart => (Worker.create c cfg allWritesSucceed h.worker.directory).map fun worker =>
      { h with worker := worker, pending := [] }

/-- All events one after the other. -/
def run (c : Codec Chunk) (cfg : WalConfig) (h : History) : List HistoryEvent → Option History
  | [] => some h
  | e :: es => (h.perform c cfg e).bind fun h' => h'.run c cfg es

/-! ## Where the records are -/

/-- The record lies in the file, and its id is at most that of the last page. -/
structure OnFile (r : AppendedRecord) (file : Bytes) : Prop where
  bytes : r.bytes <:+: fileData file
  below : ∃ last, lastEndLsn file = some last ∧ r.walId ≤ last

/-- The files and the records that have reached them. -/
structure Stored (c : Codec Chunk) (h : History) : Prop where
  below : ∀ f ∈ h.worker.segments, f.1 < h.worker.currentSegmentIndex
  verified : ∀ f ∈ h.worker.segments, verifyChain c f.2 = true
  sound : Sound c h.worker.writer
  placed : ∀ r ∈ h.flushed, r.segment ≤ h.worker.currentSegmentIndex
  issued : ∀ r ∈ h.flushed, ∃ last, h.lastId = some last ∧ r.walId ≤ last
  onFile : ∀ r ∈ h.flushed, ∀ file, (r.segment, file) ∈ h.worker.directory → OnFile r file
  kept : ∀ r ∈ h.flushed, (∀ d ∈ h.checkpoints, d < r.walId) →
    ∃ file, (r.segment, file) ∈ h.worker.directory

/-- The records of the page buffer as well. -/
structure Buffered (h : History) : Prop where
  stamped : h.worker.writer.hasData = true → h.lastId = some h.worker.writer.pageEndLsn
  pending : ∀ r ∈ h.pending, r.segment = h.worker.currentSegmentIndex ∧
    h.worker.writer.hasData = true ∧ (∃ last, h.lastId = some last ∧ r.walId ≤ last) ∧
    r.bytes <:+: fileData h.worker.writer.file ++ h.worker.writer.data

theorem mem_directory {w : Worker} (hbelow : ∀ f ∈ w.segments, f.1 < w.currentSegmentIndex)
    {f : Nat × Bytes} :
    f ∈ w.directory ↔ f ∈ w.segments ∨ f = (w.currentSegmentIndex, w.writer.file) := by
  unfold Worker.directory
  simp only [List.mem_append, List.mem_filter, List.mem_cons, decide_eq_true_iff]
  constructor
  · rintro (⟨h, -⟩ | h | ⟨h, -⟩)
    · exact .inl h
    · exact .inr h
    · exact .inl h
  · rintro (h | h)
    · exact .inl ⟨h, hbelow f h⟩
    · exact .inr (.inl h)

variable {c : Codec Chunk} {h : History}

/-- **What was buffered reaches the file.**  The writer's file grows by what was in the buffer, and
its last page carries an id that no record exceeds. -/
theorem Stored.moved (hs : Stored c h) {writer : PageWriter} (hsound : Sound c writer)
    (hbytes : fileData h.worker.writer.file ++ h.worker.writer.data <+: fileData writer.file)
    {last : UInt64} (hlast : lastEndLsn writer.file = some last)
    (hflushed : ∀ r ∈ h.flushed, r.walId ≤ last)
    (hpending : ∀ r ∈ h.pending, r.segment = h.worker.currentSegmentIndex ∧ r.walId ≤ last ∧
      r.bytes <:+: fileData h.worker.writer.file ++ h.worker.writer.data) :
    Stored c { h.moved { h.worker with writer := writer } with lastId := some last } := by
  have hfile : ∀ r ∈ h.flushed ++ h.pending, r.segment = h.worker.currentSegmentIndex →
      OnFile r writer.file := by
    intro r hr hsegment
    rcases List.mem_append.mp hr with hold | hnew
    · have hbefore := hs.onFile r hold h.worker.writer.file
        ((mem_directory hs.below).mpr (.inr (Prod.ext hsegment rfl)))
      refine ⟨?_, last, hlast, hflushed r hold⟩
      exact hbefore.bytes.trans ((List.prefix_append _ _).trans hbytes).isInfix
    · obtain ⟨-, hid, hinner⟩ := hpending r hnew
      exact ⟨hinner.trans hbytes.isInfix, last, hlast, hid⟩
  have hdir : ∀ f, f ∈ ({ h.worker with writer := writer } : Worker).directory ↔
      f ∈ h.worker.segments ∨ f = (h.worker.currentSegmentIndex, writer.file) :=
    fun f => mem_directory (w := { h.worker with writer := writer }) hs.below
  refine ⟨hs.below, hs.verified, hsound, fun r hr => ?_, fun r hr => ?_, fun r hr file hmem => ?_,
    fun r hr hnew => ?_⟩
  · rcases List.mem_append.mp hr with hold | hnew
    · exact hs.placed r hold
    · exact Nat.le_of_eq (hpending r hnew).1
  · rcases List.mem_append.mp hr with hold | hnew
    · exact ⟨last, rfl, hflushed r hold⟩
    · exact ⟨last, rfl, (hpending r hnew).2.1⟩
  · rcases (hdir _).mp hmem with hclosed | hcurrent
    · -- a closed segment is not touched, and no buffered record belongs to it
      have hlt : r.segment < h.worker.currentSegmentIndex := hs.below _ hclosed
      rcases List.mem_append.mp hr with hold | hnew
      · exact hs.onFile r hold file ((mem_directory hs.below).mpr (.inl hclosed))
      · exact absurd (hpending r hnew).1 (Nat.ne_of_lt hlt)
    · obtain ⟨hsegment, rfl⟩ := Prod.mk.inj hcurrent
      exact hfile r hr hsegment
  · rcases List.mem_append.mp hr with hold | hpend
    · obtain ⟨file, hmem⟩ := hs.kept r hold hnew
      rcases (mem_directory hs.below).mp hmem with hclosed | hcurrent
      · exact ⟨file, (hdir _).mpr (.inl hclosed)⟩
      · exact ⟨writer.file, (hdir _).mpr
          (.inr (Prod.ext (Prod.mk.inj hcurrent).1 rfl))⟩
    · exact ⟨writer.file, (hdir _).mpr
        (.inr (Prod.ext (hpending r hpend).1 rfl))⟩

/-- A writer with another buffer and the same file. -/
theorem Stored.sameFile (hs : Stored c h) {writer : PageWriter} (hsound : Sound c writer)
    (hfile : writer.file = h.worker.writer.file) {lastId : Option UInt64}
    (hissued : ∀ r ∈ h.flushed, ∃ last, lastId = some last ∧ r.walId ≤ last)
    (pending : List AppendedRecord) :
    Stored c { h with
      worker := { h.worker with writer := writer }, pending := pending, lastId := lastId } := by
  have hdir : ({ h.worker with writer := writer } : Worker).directory = h.worker.directory := by
    unfold Worker.directory
    dsimp only
    rw [hfile]
  refine ⟨hs.below, hs.verified, hsound, hs.placed, hissued, fun r hr file hmem => ?_,
    fun r hr hnew => ?_⟩
  · exact hs.onFile r hr file (hdir ▸ hmem)
  · obtain ⟨file, hmem⟩ := hs.kept r hr hnew
    exact ⟨file, hdir.symm ▸ hmem⟩

/-! ## Steps -/

/-- The buffered records are below the id the open page is stamped with. -/
theorem Stored.lastId_le (hs : Stored c h) (hb : Buffered h)
    (hdata : h.worker.writer.hasData = true) :
    (∀ r ∈ h.flushed, r.walId ≤ h.worker.writer.pageEndLsn) ∧
      ∀ r ∈ h.pending, r.segment = h.worker.currentSegmentIndex ∧
        r.walId ≤ h.worker.writer.pageEndLsn ∧
        r.bytes <:+: fileData h.worker.writer.file ++ h.worker.writer.data := by
  have hstamp := hb.stamped hdata
  constructor
  · intro r hr
    obtain ⟨last, hlast, hle⟩ := hs.issued r hr
    rw [hstamp] at hlast
    exact Option.some.inj hlast ▸ hle
  · intro r hr
    obtain ⟨hsegment, -, ⟨last, hlast, hle⟩, hinner⟩ := hb.pending r hr
    rw [hstamp] at hlast
    exact ⟨hsegment, Option.some.inj hlast ▸ hle, hinner⟩

/-- **`flush`.** -/
theorem Stored.flush (hs : Stored c h) (hb : Buffered h) :
    Stored c (h.moved (h.worker.flush c allWritesSucceed)) ∧
      (h.worker.flush c allWritesSucceed).writer.hasData = false := by
  obtain ⟨hsound, hempty, hbytes, hreach⟩ := hs.sound.flush
  refine ⟨?_, hempty⟩
  by_cases hdata : h.worker.writer.hasData = true
  · obtain ⟨hflushed, hpending⟩ := hs.lastId_le hb hdata
    obtain ⟨writer, hflush, -, -, -, -, hlast⟩ := hs.sound.flushPage hdata
    have hwriter : (h.worker.writer.flush c allWritesSucceed).2 = writer := by
      rw [PageWriter.flush, if_pos hdata, hflush]
    have hmoved := hs.moved hsound ((hbytes hdata) ▸ List.prefix_rfl) (hwriter ▸ hlast) hflushed
      hpending
    rw [← hb.stamped hdata] at hmoved
    exact hmoved
  · -- nothing is buffered
    have hnone : h.pending = [] := by
      rw [List.eq_nil_iff_forall_not_mem]
      intro r hr
      exact hdata (hb.pending r hr).2.1
    have hsame : (h.worker.writer.flush c allWritesSucceed).2 = h.worker.writer := by
      rw [PageWriter.flush, if_neg hdata]
    have hstays := hs.sameFile hsound (congrArg PageWriter.file hsame) hs.issued []
    have heq : h.moved (h.worker.flush c allWritesSucceed) = { h with
        worker := { h.worker with writer := (h.worker.writer.flush c allWritesSucceed).2 }
        pending := [] } := by
      unfold History.moved Worker.flush
      rw [hnone, List.append_nil]
    rw [heq]
    exact hstays

/-- A segment is closed as it is, and a fresh one is opened. -/
theorem Stored.rotate (hs : Stored c h) (segmentIndex : UInt32) (databaseName : Bytes) :
    Stored c { h with worker := { h.worker with
      segments := h.worker.segments ++ [(h.worker.currentSegmentIndex, h.worker.writer.file)]
      currentSegmentIndex := h.worker.currentSegmentIndex + 1
      writer := PageWriter.openSegment allWritesSucceed [] segmentIndex databaseName } } := by
  have hbelow : ∀ f ∈ h.worker.segments ++ [(h.worker.currentSegmentIndex, h.worker.writer.file)],
      f.1 < h.worker.currentSegmentIndex + 1 := by
    intro f hf
    rcases List.mem_append.mp hf with hold | hlast
    · exact Nat.lt_succ_of_lt (hs.below f hold)
    · rw [List.mem_singleton.mp hlast]
      exact Nat.lt_succ_self _
  have hdir : ∀ f, f ∈ ({ h.worker with
      segments := h.worker.segments ++ [(h.worker.currentSegmentIndex, h.worker.writer.file)]
      currentSegmentIndex := h.worker.currentSegmentIndex + 1
      writer := PageWriter.openSegment allWritesSucceed [] segmentIndex databaseName } :
        Worker).directory ↔ f ∈ h.worker.directory ∨ f = (h.worker.currentSegmentIndex + 1,
          (PageWriter.openSegment allWritesSucceed [] segmentIndex databaseName).file) := by
    intro f
    rw [mem_directory hbelow, mem_directory hs.below, List.mem_append, List.mem_singleton]
  refine ⟨hbelow, fun f hf => ?_, (sound_freshSegment c segmentIndex databaseName).1,
    fun r hr => Nat.le_succ_of_le (hs.placed r hr), hs.issued, fun r hr file hmem => ?_,
    fun r hr hnew => ?_⟩
  · rcases List.mem_append.mp hf with hold | hlast
    · exact hs.verified f hold
    · rw [List.mem_singleton.mp hlast]
      exact hs.sound.verified
  · rcases (hdir _).mp hmem with hold | hfresh
    · exact hs.onFile r hr file hold
    · have hplaced := hs.placed r hr
      rw [(Prod.mk.inj hfresh).1] at hplaced
      omega
  · obtain ⟨file, hmem⟩ := hs.kept r hr hnew
    exact ⟨file, (hdir _).mpr (.inl hmem)⟩

/-- **`ensure_writer`.** -/
theorem Stored.ensureWriter (hs : Stored c h) (hb : Buffered h) (cfg : WalConfig) :
    Stored c (h.ensureWriter c cfg) ∧ Buffered (h.ensureWriter c cfg) ∧
      (h.ensureWriter c cfg).lastId = h.lastId := by
  unfold History.ensureWriter
  split
  next hrotate =>
    have hworker := Worker.ensureWriter_rotate c allWritesSucceed hrotate hs.below
    rw [hworker]
    refine ⟨(hs.flush hb).1.rotate _ _, ⟨fun hdata => ?_, fun r hr => ?_⟩, rfl⟩
    · exact absurd hdata (Bool.eq_false_iff.mp (sound_freshSegment c _ _).2)
    · cases hr
  next => exact ⟨hs, hb, rfl⟩

/-- **A record is appended**, with an id above all earlier ones. -/
theorem Stored.write (hs : Stored c h) (hb : Buffered h) {walId : UInt64}
    (hnew : ∀ last, h.lastId = some last → last < walId) {bytes : Bytes} (hbytes : bytes ≠ []) :
    Stored c (h.write c walId bytes) ∧ Buffered (h.write c walId bytes) := by
  obtain ⟨writer, hwriter, hsound, hdata, hid, hstream, hreach⟩ := hs.sound.append walId hbytes
  have hbelow : ∀ id, (∃ last, h.lastId = some last ∧ id ≤ last) → id ≤ walId := by
    rintro id ⟨last, hlast, hle⟩
    exact UInt64.le_trans hle (UInt64.le_of_lt (hnew last hlast))
  have hflushed : ∀ r ∈ h.flushed, r.walId ≤ walId := fun r hr => hbelow _ (hs.issued r hr)
  have hwhole : ∀ {xs : Bytes}, xs <:+: fileData h.worker.writer.file ++ h.worker.writer.data →
      xs <:+: fileData writer.file ++ writer.data := by
    intro xs hxs
    rw [hstream]
    exact hxs.trans (List.prefix_append _ _).isInfix
  have hown : bytes <:+: fileData writer.file ++ writer.data := by
    rw [hstream]
    exact (List.suffix_append _ _).isInfix
  unfold History.write
  rw [hwriter]
  dsimp only
  by_cases hsame : writer.file = h.worker.writer.file
  · rw [if_pos hsame]
    refine ⟨hs.sameFile hsound hsame (fun r hr => ⟨walId, rfl, hflushed r hr⟩) _,
      ⟨fun _ => congrArg some hid.symm, fun r hr => ?_⟩⟩
    rcases List.mem_append.mp hr with hold | hlast
    · obtain ⟨hsegment, -, hle, hinner⟩ := hb.pending r hold
      exact ⟨hsegment, hdata, ⟨walId, rfl, hbelow _ hle⟩, hwhole hinner⟩
    · rw [List.mem_singleton.mp hlast]
      exact ⟨rfl, hdata, ⟨walId, rfl, UInt64.le_refl walId⟩, hown⟩
  · rw [if_neg hsame]
    obtain ⟨hfront, hlast⟩ := hreach.resolve_left hsame
    have hmoved := hs.moved hsound hfront hlast hflushed fun r hr =>
      ⟨(hb.pending r hr).1, hbelow _ (hb.pending r hr).2.2.1, (hb.pending r hr).2.2.2⟩
    refine ⟨⟨hmoved.below, hmoved.verified, hmoved.sound, hmoved.placed, hmoved.issued,
      hmoved.onFile, hmoved.kept⟩, ⟨fun _ => congrArg some hid.symm, fun r hr => ?_⟩⟩
    rcases List.mem_append.mp hr with hold | hlast
    · cases hold
    · rw [List.mem_singleton.mp hlast]
      exact ⟨rfl, hdata, ⟨walId, rfl, UInt64.le_refl walId⟩, hown⟩

/-- A segment with a record above the checkpoint is not removed. -/
theorem OnFile.not_truncatable {r : AppendedRecord} {file : Bytes} (hr : OnFile r file)
    {checkpoint : UInt64} (habove : checkpoint < r.walId) :
    Worker.truncatable checkpoint file = false := by
  obtain ⟨last, hlast, hle⟩ := hr.below
  rw [Worker.truncatable_eq, hlast]
  show decide (last ≤ checkpoint) = false
  rw [decide_eq_false_iff_not, UInt64.not_le]
  exact UInt64.lt_of_lt_of_le habove hle

/-- The file of a flushed record stays where it is. -/
theorem Stored.mem_truncateBefore (hs : Stored c h) {checkpoint : UInt64} {r : AppendedRecord}
    (hr : r ∈ h.flushed) (habove : checkpoint < r.walId) {file : Bytes}
    (hmem : (r.segment, file) ∈ h.worker.directory) :
    (r.segment, file) ∈ (h.worker.truncateBefore checkpoint).directory := by
  have hstays := (hs.onFile r hr file hmem).not_truncatable habove
  have hbelow : ∀ f ∈ (h.worker.truncateBefore checkpoint).segments,
      f.1 < h.worker.currentSegmentIndex := fun f hf => hs.below f (List.mem_filter.mp hf).1
  apply (mem_directory hbelow).mpr
  rcases (mem_directory hs.below).mp hmem with hclosed | hcurrent
  · exact .inl (List.mem_filter.mpr ⟨hclosed, by rw [hstays]; rfl⟩)
  · exact .inr hcurrent

/-- **`truncate_before`.** -/
theorem Stored.truncateBefore (hs : Stored c h) (checkpoint : UInt64) :
    Stored c { h with
      worker := h.worker.truncateBefore checkpoint
      checkpoints := h.checkpoints ++ [checkpoint] } := by
  have hbelow : ∀ f ∈ (h.worker.truncateBefore checkpoint).segments,
      f.1 < h.worker.currentSegmentIndex := fun f hf => hs.below f (List.mem_filter.mp hf).1
  have hsub : ∀ f ∈ (h.worker.truncateBefore checkpoint).directory, f ∈ h.worker.directory := by
    intro f hf
    rcases (mem_directory hbelow).mp hf with hclosed | hcurrent
    · exact (mem_directory hs.below).mpr (.inl (List.mem_filter.mp hclosed).1)
    · exact (mem_directory hs.below).mpr (.inr hcurrent)
  refine ⟨hbelow, fun f hf => hs.verified f (List.mem_filter.mp hf).1, hs.sound, hs.placed,
    hs.issued, fun r hr file hmem => hs.onFile r hr file (hsub _ hmem), fun r hr hnew => ?_⟩
  have hold : ∀ d ∈ h.checkpoints, d < r.walId := fun d hd =>
    hnew d (List.mem_append_left _ hd)
  have habove : checkpoint < r.walId :=
    hnew checkpoint (List.mem_append_right _ (List.mem_singleton_self _))
  obtain ⟨file, hmem⟩ := hs.kept r hr hold
  exact ⟨file, hs.mem_truncateBefore hr habove hmem⟩

/-- Recovery over intact files ends with the highest segment index. -/
theorem recoverFromDisk_index {k : Nat} {dir : Directory}
    (hverified : ∀ f ∈ dir, verifyChain c f.2 = true) (hle : ∀ f ∈ dir, f.1 ≤ k)
    {s s' : Recovered} (hs : s.maxSegIndex ≤ k) (hk : s.maxSegIndex = k ∨ ∃ f ∈ dir, f.1 = k)
    (hrecover : recoverFromDisk c s dir = some s') : s'.maxSegIndex = k := by
  induction dir generalizing s with
  | nil =>
    obtain rfl := Option.some.inj hrecover
    rcases hk with h | ⟨f, hf, -⟩
    · exact h
    · cases hf
  | cons f dir ih =>
    obtain ⟨index, file⟩ := f
    have hindex : index ≤ k := hle _ List.mem_cons_self
    unfold recoverFromDisk at hrecover
    cases hread : readAllRecords c 0 file with
    | none =>
      rw [hread] at hrecover
      cases hrecover
    | some records =>
      rw [hread] at hrecover
      dsimp only at hrecover
      rw [if_pos (hverified _ List.mem_cons_self)] at hrecover
      have hnote := (Recovered.foldl_note
        { s with maxSegIndex := max s.maxSegIndex index } records).1
      refine ih (fun f hf => hverified f (List.mem_cons_of_mem _ hf))
        (fun f hf => hle f (List.mem_cons_of_mem _ hf)) ?_ ?_ hrecover
      · rw [hnote]
        exact max_le hs hindex
      · rw [hnote]
        rcases hk with h | ⟨f, hf, h⟩
        · exact .inl (by show max s.maxSegIndex index = k; omega)
        · rcases List.mem_cons.mp hf with rfl | hrest
          · exact .inl (by show max s.maxSegIndex index = k; simp only at h; omega)
          · exact .inr ⟨f, hrest, h⟩

theorem lookup_directory {w : Worker} (hbelow : ∀ f ∈ w.segments, f.1 < w.currentSegmentIndex) :
    w.directory.lookup w.currentSegmentIndex = some w.writer.file := by
  have hfront : (w.segments.filter fun f => f.1 < w.currentSegmentIndex).lookup
      w.currentSegmentIndex = none := by
    apply List.lookup_eq_none_iff.mpr
    intro f hf
    exact bne_iff_ne.mpr (Nat.ne_of_gt (hbelow f (List.mem_filter.mp hf).1))
  unfold Worker.directory
  rw [List.lookup_append, hfront, List.lookup_cons_self]
  rfl

/-- **A restart.**  The page buffer is gone; every file has the pages it had. -/
theorem Stored.restart (hs : Stored c h) (cfg : WalConfig) {worker : Worker}
    (hcreate : Worker.create c cfg allWritesSucceed h.worker.directory = some worker) :
    Stored c { h with worker := worker, pending := [] } ∧ worker.writer.hasData = false := by
  have hdirectory : ∀ f ∈ h.worker.directory, f.1 ≤ h.worker.currentSegmentIndex ∧
      verifyChain c f.2 = true := by
    intro f hf
    rcases (mem_directory hs.below).mp hf with hclosed | rfl
    · exact ⟨Nat.le_of_lt (hs.below f hclosed), hs.verified f hclosed⟩
    · exact ⟨Nat.le_refl _, hs.sound.verified⟩
  have hcurrent : (h.worker.currentSegmentIndex, h.worker.writer.file) ∈ h.worker.directory :=
    (mem_directory hs.below).mpr (.inr rfl)
  obtain ⟨s, hrecover, rfl⟩ := Option.map_eq_some_iff.mp hcreate
  have hindex : s.maxSegIndex = h.worker.currentSegmentIndex :=
    recoverFromDisk_index (fun f hf => (hdirectory f hf).2) (fun f hf => (hdirectory f hf).1)
      (Nat.zero_le _) (.inr ⟨_, hcurrent, rfl⟩) hrecover
  obtain ⟨n, hn⟩ := hs.sound.pages
  obtain ⟨hsound, hempty, hbytes, hlast⟩ := sound_openSegment hn hs.sound.verified
    (UInt32.ofNat h.worker.currentSegmentIndex) cfg.databaseName
  rw [hindex]
  have hwriter : Worker.openWriter cfg allWritesSucceed h.worker.directory
      h.worker.currentSegmentIndex = PageWriter.openSegment allWritesSucceed h.worker.writer.file
        (UInt32.ofNat h.worker.currentSegmentIndex) cfg.databaseName := by
    rw [Worker.openWriter, lookup_directory hs.below]
    rfl
  rw [hwriter]
  refine ⟨?_, hempty⟩
  have hsegments : ∀ f, f ∈ (h.worker.directory.filter fun f =>
      f.1 ≠ h.worker.currentSegmentIndex) ↔ f ∈ h.worker.segments := by
    intro f
    rw [List.mem_filter, mem_directory hs.below, decide_eq_true_iff]
    constructor
    · rintro ⟨hmem | rfl, hne⟩
      · exact hmem
      · exact absurd rfl hne
    · intro hmem
      exact ⟨.inl hmem, Nat.ne_of_lt (hs.below f hmem)⟩
  have hbelow : ∀ f ∈ (h.worker.directory.filter fun f => f.1 ≠ h.worker.currentSegmentIndex),
      f.1 < h.worker.currentSegmentIndex := fun f hf => hs.below f ((hsegments f).mp hf)
  refine ⟨hbelow, fun f hf => hs.verified f ((hsegments f).mp hf), hsound, hs.placed, hs.issued,
    fun r hr file hmem => ?_, fun r hr hnew => ?_⟩
  · rcases (mem_directory hbelow).mp hmem with hclosed | hnow
    · exact hs.onFile r hr file ((mem_directory hs.below).mpr (.inl ((hsegments _).mp hclosed)))
    · obtain ⟨hsegment, rfl⟩ := Prod.mk.inj hnow
      have hbefore := hs.onFile r hr h.worker.writer.file
        ((mem_directory hs.below).mpr (.inr (Prod.ext hsegment rfl)))
      exact ⟨hbytes.symm ▸ hbefore.bytes, hlast.symm ▸ hbefore.below⟩
  · obtain ⟨file, hmem⟩ := hs.kept r hr hnew
    rcases (mem_directory hs.below).mp hmem with hclosed | hnow
    · exact ⟨file, (mem_directory hbelow).mpr (.inl ((hsegments _).mpr hclosed))⟩
    · exact ⟨_, (mem_directory hbelow).mpr (.inr (Prod.ext (Prod.mk.inj hnow).1 rfl))⟩

/-! ## Runs -/

/-- A worker over an empty directory, and everything that happens to it. -/
def runFrom (c : Codec Chunk) (cfg : WalConfig) (es : List HistoryEvent) : Option History :=
  (Worker.create c cfg allWritesSucceed []).bind fun worker => run c cfg { worker := worker } es

/-- The ids of a run. -/
def appendedIds (es : List HistoryEvent) : List UInt64 :=
  es.filterMap fun e => match e with
    | .append walId _ _ => some walId
    | _ => none

theorem stored_start (c : Codec Chunk) (cfg : WalConfig) {worker : Worker}
    (hcreate : Worker.create c cfg allWritesSucceed [] = some worker) :
    Stored c { worker := worker } ∧ Buffered { worker := worker } := by
  obtain rfl := Option.some.inj hcreate
  obtain ⟨hsound, hempty⟩ := sound_freshSegment c (UInt32.ofNat 0) cfg.databaseName
  refine ⟨⟨?_, ?_, hsound, ?_, ?_, ?_, ?_⟩, fun hdata => absurd hdata (Bool.eq_false_iff.mp hempty),
    ?_⟩
  all_goals
    intro x hx
    cases hx

/-- **One event.** -/
theorem Stored.perform (hs : Stored c h) (hb : Buffered h) (cfg : WalConfig) {e : HistoryEvent}
    {es : List HistoryEvent} (hids : (appendedIds (e :: es)).Pairwise (· < ·))
    (hnew : ∀ last, h.lastId = some last → ∀ id ∈ appendedIds (e :: es), last < id)
    {h' : History} (hstep : h.perform c cfg e = some h') :
    Stored c h' ∧ Buffered h' ∧
      ∀ last, h'.lastId = some last → ∀ id ∈ appendedIds es, last < id := by
  have hrest : ∀ id ∈ appendedIds es, id ∈ appendedIds (e :: es) := by
    intro id hid
    obtain ⟨x, hx, hxid⟩ := List.mem_filterMap.mp hid
    exact List.mem_filterMap.mpr ⟨x, List.mem_cons_of_mem _ hx, hxid⟩
  cases e with
  | append walId record crc =>
    obtain rfl := Option.some.inj hstep
    have hcons : appendedIds (.append walId record crc :: es) = walId :: appendedIds es := rfl
    rw [hcons] at hids hnew
    have hs₁ : Stored c { h with worker := { h.worker with id := walId, lastCrc := crc } } :=
      ⟨hs.below, hs.verified, hs.sound, hs.placed, hs.issued, hs.onFile, hs.kept⟩
    have hb₁ : Buffered { h with worker := { h.worker with id := walId, lastCrc := crc } } :=
      ⟨hb.stamped, hb.pending⟩
    obtain ⟨hready, hbuffered, hlastId⟩ := hs₁.ensureWriter hb₁ cfg
    have hbytes : record.bytes ≠ [] := by
      intro hnil
      have hlong := record.long
      rw [hnil] at hlong
      exact absurd hlong (by decide)
    have hbelow := fun last (hlast : _ = some last) =>
      hnew last (hlastId.symm.trans hlast) walId List.mem_cons_self
    obtain ⟨hstored, hbuf⟩ := hready.write hbuffered hbelow hbytes
    refine ⟨hstored, hbuf, fun last hlast id hid => ?_⟩
    obtain rfl : walId = last := Option.some.inj hlast
    exact (List.pairwise_cons.mp hids).1 id hid
  | flush =>
    obtain rfl := Option.some.inj hstep
    obtain ⟨hstored, hempty⟩ := hs.flush hb
    refine ⟨hstored, ⟨fun hdata => ?_, fun r hr => ?_⟩, fun last hlast id hid =>
      hnew last hlast id (hrest id hid)⟩
    · exact absurd hdata (Bool.eq_false_iff.mp hempty)
    · cases hr
  | truncateBefore checkpoint =>
    obtain rfl := Option.some.inj hstep
    exact ⟨hs.truncateBefore checkpoint, ⟨hb.stamped, hb.pending⟩, fun last hlast id hid =>
      hnew last hlast id (hrest id hid)⟩
  | restart =>
    obtain ⟨worker, hcreate, rfl⟩ := Option.map_eq_some_iff.mp hstep
    obtain ⟨hstored, hempty⟩ := hs.restart cfg hcreate
    refine ⟨hstored, ⟨fun hdata => ?_, fun r hr => ?_⟩, fun last hlast id hid =>
      hnew last hlast id (hrest id hid)⟩
    · exact absurd hdata (Bool.eq_false_iff.mp hempty)
    · cases hr

/-- **Every run.** -/
theorem Stored.run (hs : Stored c h) (hb : Buffered h) (cfg : WalConfig) {es : List HistoryEvent}
    (hids : (appendedIds es).Pairwise (· < ·))
    (hnew : ∀ last, h.lastId = some last → ∀ id ∈ appendedIds es, last < id)
    {h' : History} (hrun : h.run c cfg es = some h') : Stored c h' := by
  induction es generalizing h with
  | nil =>
    obtain rfl := Option.some.inj hrun
    exact hs
  | cons e es ih =>
    obtain ⟨next, hstep, hrest⟩ := Option.bind_eq_some_iff.mp hrun
    obtain ⟨hstored, hbuffered, hlater⟩ := hs.perform hb cfg hids hnew hstep
    have htail : (appendedIds es).Pairwise (· < ·) := by
      cases e with
      | append walId record crc => exact (List.pairwise_cons.mp hids).2
      | flush => exact hids
      | truncateBefore checkpoint => exact hids
      | restart => exact hids
    exact ih hstored hbuffered htail hlater hrest

end History

/-- **Truncation.**  In every run with ascending ids, `truncate_before` leaves the file of every
flushed record above the checkpoint in place, and the record is in it; so every flushed record above
all checkpoints so far is in some file. -/
theorem truncation_keeps_flushed (c : Codec Chunk) (cfg : WalConfig) {es : List HistoryEvent}
    (hids : (History.appendedIds es).Pairwise (· < ·)) {h : History}
    (hrun : History.runFrom c cfg es = some h) (checkpoint : UInt64) :
    ∀ r ∈ h.flushed, checkpoint < r.walId →
      ((∀ d ∈ h.checkpoints, d < r.walId) →
        ∃ file, (r.segment, file) ∈ (h.worker.truncateBefore checkpoint).directory ∧
          r.bytes <:+: fileData file) ∧
      ∀ file, (r.segment, file) ∈ h.worker.directory →
        (r.segment, file) ∈ (h.worker.truncateBefore checkpoint).directory ∧
          r.bytes <:+: fileData file := by
  obtain ⟨worker, hcreate, hrest⟩ := Option.bind_eq_some_iff.mp hrun
  obtain ⟨hstart, hbuffered⟩ := History.stored_start c cfg hcreate
  have hs : History.Stored c h := hstart.run hbuffered cfg hids (fun _ hlast => by cases hlast) hrest
  intro r hr habove
  have hstays : ∀ file, (r.segment, file) ∈ h.worker.directory →
      (r.segment, file) ∈ (h.worker.truncateBefore checkpoint).directory ∧
        r.bytes <:+: fileData file := fun file hmem =>
    ⟨hs.mem_truncateBefore hr habove hmem, (hs.onFile r hr file hmem).bytes⟩
  refine ⟨fun hnew => ?_, hstays⟩
  obtain ⟨file, hmem⟩ := hs.kept r hr hnew
  exact ⟨file, hstays file hmem⟩

/-- An append keeps the records there are and adds its own. -/
theorem History.perform_append (c : Codec Chunk) (cfg : WalConfig) (h : History) (walId : UInt64)
    (record : Frame) (crc : UInt32) :
    ∃ h', h.perform c cfg (.append walId record crc) = some h' ∧ h'.checkpoints = h.checkpoints ∧
      (h'.flushed ++ h'.pending).map AppendedRecord.walId =
        (h.flushed ++ h.pending).map AppendedRecord.walId ++ [walId] := by
  have hready : ∀ h : History, (h.ensureWriter c cfg).checkpoints = h.checkpoints ∧
      (h.ensureWriter c cfg).flushed ++ (h.ensureWriter c cfg).pending = h.flushed ++ h.pending := by
    intro h
    unfold ensureWriter
    split
    · exact ⟨rfl, List.append_nil _⟩
    · exact ⟨rfl, rfl⟩
  have hwrite : ∀ h : History, (h.write c walId record.bytes).checkpoints = h.checkpoints ∧
      ((h.write c walId record.bytes).flushed ++ (h.write c walId record.bytes).pending).map
        AppendedRecord.walId = (h.flushed ++ h.pending).map AppendedRecord.walId ++ [walId] := by
    intro h
    unfold write
    dsimp only
    split
    · exact ⟨rfl, by simp⟩
    · exact ⟨rfl, by simp [moved]⟩
  refine ⟨_, rfl, (hwrite _).1.trans (hready _).1, (hwrite _).2.trans ?_⟩
  rw [(hready _).2]

/-- Three COMMIT markers, in segments of their own: `truncate_before(1)` keeps the second and the
third. -/
theorem truncation_keeps_flushed_commit :
    ∃ h, History.runFrom plainCodec ⟨1, []⟩ [.append 1 commitRecord.frame 0,
        .append 2 commitRecord.frame 0, .append 3 commitRecord.frame 0, .flush] = some h ∧
      h.flushed.map AppendedRecord.walId = [1, 2, 3] ∧
      ∀ r ∈ h.flushed, 1 < r.walId →
        ∃ file, (r.segment, file) ∈ (h.worker.truncateBefore 1).directory ∧
          r.bytes <:+: fileData file := by
  obtain ⟨worker, hcreate⟩ : ∃ worker, Worker.create plainCodec ⟨1, []⟩ allWritesSucceed [] =
      some worker := ⟨_, rfl⟩
  obtain ⟨h₁, hstep₁, hnone₁, hids₁⟩ :=
    History.perform_append plainCodec ⟨1, []⟩ { worker := worker } 1 commitRecord.frame 0
  obtain ⟨h₂, hstep₂, hnone₂, hids₂⟩ :=
    History.perform_append plainCodec ⟨1, []⟩ h₁ 2 commitRecord.frame 0
  obtain ⟨h₃, hstep₃, hnone₃, hids₃⟩ :=
    History.perform_append plainCodec ⟨1, []⟩ h₂ 3 commitRecord.frame 0
  have hrun : History.runFrom plainCodec ⟨1, []⟩ [.append 1 commitRecord.frame 0,
      .append 2 commitRecord.frame 0, .append 3 commitRecord.frame 0, .flush] =
        some (h₃.moved (h₃.worker.flush plainCodec allWritesSucceed)) := by
    unfold History.runFrom
    rw [hcreate, Option.bind_some, History.run, hstep₁, Option.bind_some, History.run, hstep₂,
      Option.bind_some, History.run, hstep₃]
    rfl
  refine ⟨_, hrun, ?_, fun r hr habove => ?_⟩
  · rw [hids₂, hids₁] at hids₃
    exact hids₃
  · refine (truncation_keeps_flushed plainCodec ⟨1, []⟩ (by decide) hrun 1 r hr habove).1 ?_
    intro d hd
    rw [show (h₃.moved _).checkpoints = [] from hnone₃.trans (hnone₂.trans hnone₁)] at hd
    exact absurd hd List.not_mem_nil

end Wal
end Otterbrix
