/-
  Otterbrix.Wal.WriterLayout

  The page writer refines the layout: after any sequence of appends and
  flushes, with every page write succeeding, the pages on disk pass their
  checksum and hold the records as `Laid` says, in the shapes `layout` computes.

  The simulation relation `Sim` pairs the writer's buffer and flag bits with
  the open page of the layout.  `append` is followed in two parts: the first
  page of a record, and the loop over its continuation pages.
-/
import Mathlib.Data.List.Forall2
import Otterbrix.Wal.Layout

namespace Otterbrix
namespace Wal

variable {Chunk : Type}

/-- A call on the writer. -/
def PageWriter.perform (c : Codec Chunk) (ok : Nat → Bool) (w : PageWriter) :
    WriteOp (Bytes × UInt64) → Bool × PageWriter
  | .append (bytes, walId) => w.append c ok bytes walId
  | .flush => w.flush c ok

/-- The writer after a sequence of calls. -/
def PageWriter.run (c : Codec Chunk) (ok : Nat → Bool) (w : PageWriter)
    (ops : List (WriteOp (Bytes × UInt64))) : PageWriter :=
  ops.foldl (fun w op => (w.perform c ok op).2) w

/-- No page write fails. -/
def allWritesSucceed : Nat → Bool := fun _ => true

/-! ## Pages on disk -/

/-- A page image that the reader accepts and that shows a given content. -/
structure Holds (c : Codec Chunk) (image : Bytes) (p : PageContent) : Prop where
  length : image.length = pageSize
  verified : verifyPageChecksum c image = true
  view : viewOf image = p.view

/-- A file: some first bytes, then page images holding the contents. -/
def OnDisk (c : Codec Chunk) (hdr file : Bytes) (pages : List PageContent) : Prop :=
  ∃ images : List Bytes, file = hdr ++ images.flatten ∧ List.Forall₂ (Holds c) images pages

theorem OnDisk.snoc {c : Codec Chunk} {hdr file image : Bytes} {pages : List PageContent}
    {p : PageContent} (h : OnDisk c hdr file pages) (hp : Holds c image p) :
    OnDisk c hdr (file ++ image) (pages ++ [p]) := by
  obtain ⟨images, rfl, hall⟩ := h
  refine ⟨images ++ [image], ?_, List.rel_append hall (List.Forall₂.cons hp List.Forall₂.nil)⟩
  rw [List.flatten_append, List.append_assoc]
  simp

/-- The image `flush_page` builds shows its flags and data. -/
theorem holds_buildPage (c : Codec Chunk) (w : PageWriter) {p : PageContent}
    (hcont : (w.pageFlags &&& pagePartialCont != 0) = p.view.isCont)
    (hend : (w.pageFlags &&& pagePartialEnd != 0) = p.view.isEnd) (hdata : w.data = p.data) :
    Holds c (buildPage c w.header w.data) p := by
  have hle := w.data_le
  have hpage : pageDataSize < 2 ^ 32 := by decide
  have hsize : w.header.dataSize.toNat = w.data.length := by
    rw [PageWriter.header, UInt32.toNat_ofNat']
    exact Nat.mod_eq_of_lt (by omega)
  refine ⟨length_buildPage c _ hle, verifyPageChecksum_buildPage c _ _, ?_⟩
  unfold viewOf
  rw [isCont_buildPage, isEnd_buildPage, pageData_buildPage c _ _ hsize]
  change PageView.mk _ _ _ = PageView.mk p.view.isCont p.view.isEnd p.data
  rw [← hcont, ← hend, ← hdata]
  rfl

/-- A successful `flush_page` appends one image to the file. -/
theorem flushPage_eq (c : Codec Chunk) {w : PageWriter} (hdata : w.hasData = true)
    (hsize : w.fileSize = w.file.length) :
    w.flushPage c allWritesSucceed =
      (true, { w with
        file := w.file ++ buildPage c w.header w.data
        fileSize := w.fileSize + pageSize }.startNewPage) := by
  have hwrite : writeAt w.file w.fileSize (buildPage c w.header w.data) =
      w.file ++ buildPage c w.header w.data := by
    rw [writeAt, hsize, List.take_length, List.drop_eq_nil_of_le (by omega), List.append_nil]
  unfold PageWriter.flushPage
  simp only [hdata, allWritesSucceed, hwrite, Bool.not_true, Bool.false_and, Bool.false_eq_true,
    if_false, if_true]

/-! ## The simulation relation -/

/-- The flag bits of the open page. -/
def Lead.flags : Lead → UInt16
  | .fresh => 0
  | .middle _ => pagePartialCont
  | .tail _ => pagePartialCont ||| pagePartialEnd

/-- The writer `w` and the layout state `s` agree: `pages` are on disk, the open
    page starts with `lead` and holds the complete records `ws`; the records
    `fs` start on closed pages. -/
structure Sim (c : Codec Chunk) (hdr : Bytes) (w : PageWriter) (s : LayoutState)
    (pages : List PageContent) (carry : Carry) (lead : Lead) (fs ws : List Frame) : Prop where
  disk : OnDisk c hdr w.file pages
  fileSize : w.fileSize = w.file.length
  laid : Laid none pages fs carry
  opens : Opens carry lead
  data : w.data = lead.bytes ++ frameBytes ws
  flags : w.pageFlags = lead.flags
  hasData : w.hasData = decide (0 < w.data.length)
  closed : s.closed = pages.map PageContent.shape
  leadShape : s.lead = lead.shape
  whole : s.whole = ws.length
  used : s.used = w.data.length

variable {c : Codec Chunk} {hdr : Bytes} {w : PageWriter} {s : LayoutState}
  {pages : List PageContent} {carry : Carry} {lead : Lead} {fs ws : List Frame} {f : Frame}
  {n : Nat}

/-- A page closed by a flush or by a record that does not fit shows its flags. -/
theorem view_flags_close (ho : Opens carry lead) (ws : List Frame) (head : Option Bytes) :
    let flags := if head.isSome then lead.flags ||| pagePartialCont else lead.flags
    (flags &&& pagePartialCont != 0) = (PageContent.mk lead ws head).view.isCont ∧
      (flags &&& pagePartialEnd != 0) = (PageContent.mk lead ws head).view.isEnd := by
  cases ho <;> cases head <;>
    simp only [Lead.flags, PageContent.view, Option.isSome_none, Option.isSome_some, if_true,
      Bool.false_eq_true, if_false] <;>
    decide

/-- `flush` closes the open page. -/
theorem Sim.flush (h : Sim c hdr w s pages carry lead fs ws) :
    ∃ pages' carry' lead' fs' ws', fs' ++ ws' = fs ++ ws ∧
      Sim c hdr (w.flush c allWritesSucceed).2 s.flush pages' carry' lead' fs' ws' := by
  by_cases hempty : w.data.length = 0
  · -- nothing buffered: neither the writer nor the layout moves
    have hnone : w.hasData = false := by rw [h.hasData]; simp [hempty]
    have hw : (w.flush c allWritesSucceed).2 = w := by
      unfold PageWriter.flush
      rw [hnone]
      rfl
    have hs : s.flush = s := by
      unfold LayoutState.flush
      rw [if_pos (h.used.trans hempty)]
    exact ⟨pages, carry, lead, fs, ws, rfl, by rw [hw, hs]; exact h⟩
  · have hsome : w.hasData = true := by rw [h.hasData]; simp; omega
    obtain ⟨hcont, hend⟩ := view_flags_close h.opens ws none
    have hpage : w.data = (PageContent.mk lead ws none).data := by
      rw [h.data]
      simp [PageContent.data]
    have hholds := holds_buildPage c w (p := ⟨lead, ws, none⟩)
      (by rw [h.flags]; exact hcont) (by rw [h.flags]; exact hend) hpage
    have hw : (w.flush c allWritesSucceed).2 = { w with
        file := w.file ++ buildPage c w.header w.data
        fileSize := w.fileSize + pageSize }.startNewPage := by
      rw [PageWriter.flush, if_pos hsome, flushPage_eq c hsome h.fileSize]
    have hstep : PageStep carry ⟨lead, ws, none⟩ ws none := by
      simpa [Carry.head, Carry.frames] using
        @PageStep.close carry none lead ws h.opens trivial
    refine ⟨pages ++ [⟨lead, ws, none⟩], none, .fresh, fs ++ ws, [], by simp, ?_⟩
    rw [hw]
    refine ⟨h.disk.snoc hholds, ?_, h.laid.snoc hstep, Opens.fresh, rfl, rfl, rfl, ?_, ?_, ?_, ?_⟩
    · change w.fileSize + pageSize = (w.file ++ _).length
      rw [List.length_append, h.fileSize, length_buildPage c _ w.data_le]
    all_goals
      unfold LayoutState.flush
      rw [if_neg (by rw [h.used]; exact hempty)]
    · simp [h.closed, h.leadShape, h.whole, PageContent.shape]
    · rfl
    · rfl
    · rfl

/-! ## Spanning records -/

/-- The writer between two pages of the record `f`, `n` bytes of which are on
    disk: the buffer is empty and its CONT bit is set. -/
structure Continuing (c : Codec Chunk) (hdr : Bytes) (w : PageWriter) (pages : List PageContent)
    (fs : List Frame) (f : Frame) (n : Nat) : Prop where
  disk : OnDisk c hdr w.file pages
  fileSize : w.fileSize = w.file.length
  laid : Laid none pages fs (some (f, n))
  more : n < f.bytes.length
  data : w.data = []
  flags : w.pageFlags = pagePartialCont

/-- Filling the open page up with the next piece of a record and flushing it. -/
theorem flush_putPart {p : PageContent} {fs gs : List Frame} {src : Bytes} (walId : UInt64)
    (hdisk : OnDisk c hdr w.file pages) (hsize : w.fileSize = w.file.length)
    (hlaid : Laid none pages fs carry) (hstep : PageStep carry p gs (some (f, n)))
    (hmore : n < f.bytes.length) (hdata : w.data ++ src.take w.space = p.data)
    (hcont : ((w.pageFlags ||| pagePartialCont) &&& pagePartialCont != 0) = p.view.isCont)
    (hend : ((w.pageFlags ||| pagePartialCont) &&& pagePartialEnd != 0) = p.view.isEnd) :
    ∃ w', (w.putPart src).flushPage c allWritesSucceed = (true, w') ∧
      Continuing c hdr (w'.continuationPage walId) (pages ++ [p]) (fs ++ gs) f n := by
  have hholds : Holds c (buildPage c (w.putPart src).header (w.putPart src).data) p :=
    holds_buildPage c (w.putPart src) hcont hend hdata
  refine ⟨_, flushPage_eq c rfl hsize, hdisk.snoc hholds, ?_, hlaid.snoc hstep, hmore, rfl, rfl⟩
  change w.fileSize + pageSize = (w.file ++ _).length
  rw [List.length_append, hsize, hholds.length]

/-- A middle page does not carry the END bit. -/
theorem continuation_not_end :
    ((pagePartialCont ||| pagePartialCont) &&& pagePartialEnd != 0) = false := by
  decide

/-- Counting the middle pages of a record with `rest` bytes to go. -/
theorem middles_succ {rest : Nat} (h : pageDataSize < rest) :
    (rest - 1) / pageDataSize = (rest - pageDataSize - 1) / pageDataSize + 1 := by
  have hpos : 0 < pageDataSize := by decide
  rw [show rest - 1 = (rest - pageDataSize - 1) + pageDataSize by omega,
    Nat.add_div_right _ hpos]

/-- The loop over the continuation pages of a record. -/
theorem Continuing.finish (walId : UInt64) (h : Continuing c hdr w pages fs f n) :
    ∃ w' pages' carry lead,
      w.appendLoop c allWritesSucceed walId false (f.bytes.drop n) = (true, w') ∧
      Sim c hdr w'
        { closed := pages.map PageContent.shape ++
            List.replicate ((f.bytes.length - n - 1) / pageDataSize) ⟨.middle, 0, none⟩
          lead := .tail
          whole := 0
          used := (f.bytes.length - n) -
            (f.bytes.length - n - 1) / pageDataSize * pageDataSize }
        pages' carry lead fs [] := by
  -- on the number of bytes still to be written
  induction hrest : f.bytes.length - n using Nat.strongRecOn generalizing w pages n with
  | ind rest ih =>
      have hmore := h.more
      have hpos : 0 < pageDataSize := by decide
      have hspace : w.space = pageDataSize := by
        rw [PageWriter.space, h.data, List.length_nil, Nat.sub_zero]
      have hlen : (f.bytes.drop n).length = rest := by rw [List.length_drop, hrest]
      rw [PageWriter.appendLoop, if_neg (by omega)]
      by_cases hfits : rest ≤ pageDataSize
      · -- the last page: the tail stays in the buffer
        have hzero : (rest - 1) / pageDataSize = 0 := Nat.div_eq_of_lt (by omega)
        rw [dif_pos (by omega), hzero, Nat.zero_mul, List.replicate_zero, List.append_nil,
          Nat.sub_zero]
        refine ⟨_, pages, some (f, n), .tail (f.bytes.drop n), rfl, ?_⟩
        refine ⟨h.disk, h.fileSize, h.laid, Opens.tail hmore, ?_, ?_, ?_, rfl, rfl, rfl, ?_⟩
        · simp [PageWriter.putLast, h.data, Lead.bytes]
        · simp [PageWriter.putLast, h.flags, Lead.flags]
        · simp only [PageWriter.putLast, h.data, List.nil_append, hlen]
          exact (decide_eq_true (by omega)).symm
        · simp only [PageWriter.putLast, h.data, List.nil_append, hlen]
      · -- a middle page
        have hdata : w.data ++ (f.bytes.drop n).take w.space =
            (PageContent.mk (.middle ((f.bytes.drop n).take pageDataSize)) [] none).data := by
          rw [h.data, hspace]
          simp [PageContent.data, Lead.bytes]
        obtain ⟨w', hflush, hnext⟩ := flush_putPart walId h.disk h.fileSize h.laid
          (PageStep.middle (by omega)) (by omega) hdata
          (by rw [h.flags]; rfl) (by rw [h.flags]; exact continuation_not_end)
        rw [List.append_nil] at hnext
        obtain ⟨w'', pages', carry, lead, hloop, hsim⟩ :=
          ih (rest - pageDataSize) (by omega) hnext (by omega)
        rw [dif_neg (by omega), hflush]
        dsimp only
        rw [if_pos rfl, hspace, List.drop_drop]
        refine ⟨w'', pages', carry, lead, hloop, ?_⟩
        rw [middles_succ (by omega)]
        convert hsim using 2
        · rw [List.map_append, List.append_assoc, List.replicate_succ]
          rfl
        · rw [Nat.succ_mul]
          omega

/-! ## Appending -/

/-- The page lsns play no part in the simulation. -/
theorem Sim.setLsn (h : Sim c hdr w s pages carry lead fs ws) (lsn endLsn : UInt64) :
    Sim c hdr { w with pageLsn := lsn, pageEndLsn := endLsn } s pages carry lead fs ws :=
  ⟨h.disk, h.fileSize, h.laid, h.opens, h.data, h.flags, h.hasData, h.closed, h.leadShape,
    h.whole, h.used⟩

/-- The loop of `append` from its first chunk on. -/
theorem Sim.appendLoop (h : Sim c hdr w s pages carry lead fs ws) (f : Frame) (walId : UInt64) :
    ∃ w' pages' carry' lead' fs' ws',
      w.appendLoop c allWritesSucceed walId true f.bytes = (true, w') ∧
      fs' ++ ws' = fs ++ ws ++ [f] ∧
      Sim c hdr w' (s.append f.bytes.length) pages' carry' lead' fs' ws' := by
  have hlong := f.long
  have hspace : w.space = pageDataSize - s.used := by rw [h.used]; rfl
  rw [PageWriter.appendLoop, if_neg (by omega)]
  unfold LayoutState.append
  dsimp only
  by_cases hfits : f.bytes.length ≤ w.space
  · rw [dif_pos hfits, if_pos (hspace ▸ hfits)]
    refine ⟨_, pages, carry, lead, fs, ws ++ [f], rfl, by rw [List.append_assoc], ?_⟩
    refine ⟨h.disk, h.fileSize, h.laid, h.opens, ?_, h.flags, ?_, h.closed, h.leadShape, ?_, ?_⟩
    · simp [PageWriter.putLast, h.data]
    · simp only [PageWriter.putLast, List.length_append]
      exact (decide_eq_true (by omega)).symm
    · simp [h.whole]
    · simp [PageWriter.putLast, h.used]
  · -- the page takes a head of `w.space` bytes, the loop writes the rest
    obtain ⟨hcont, hend⟩ := view_flags_close h.opens ws (some (f.bytes.take w.space))
    have hdata : w.data ++ f.bytes.take w.space =
        (PageContent.mk lead ws (Carry.head (some (f, w.space)))).data := by
      rw [h.data]
      simp [PageContent.data, Carry.head]
    have hclose : PageStep carry ⟨lead, ws, Carry.head (some (f, w.space))⟩ (ws ++ [f])
        (some (f, w.space)) :=
      PageStep.close ws h.opens (Nat.lt_of_not_le hfits)
    obtain ⟨w', hflush, hcontinue⟩ := flush_putPart walId h.disk h.fileSize h.laid hclose
      (Nat.lt_of_not_le hfits) hdata (by rw [h.flags]; exact hcont) (by rw [h.flags]; exact hend)
    obtain ⟨w'', pages', carry', lead', hloop, hsim⟩ := hcontinue.finish walId
    rw [dif_neg hfits, hflush]
    dsimp only
    rw [if_pos rfl, if_neg (hspace ▸ hfits)]
    refine ⟨w'', pages', carry', lead', fs ++ (ws ++ [f]), [], hloop, by simp, ?_⟩
    rw [← hspace]
    convert hsim using 2
    rw [List.map_append, List.append_assoc, h.closed, h.leadShape, h.whole]
    have hhead : (f.bytes.take w.space).length = w.space := by
      rw [List.length_take]
      omega
    simp [PageContent.shape, Carry.head, hhead]

theorem Sim.append (h : Sim c hdr w s pages carry lead fs ws) (f : Frame) (walId : UInt64) :
    ∃ pages' carry' lead' fs' ws', fs' ++ ws' = fs ++ ws ++ [f] ∧
      Sim c hdr (w.append c allWritesSucceed f.bytes walId).2 (s.append f.bytes.length)
        pages' carry' lead' fs' ws' := by
  have hlong := f.long
  obtain ⟨w', pages', carry', lead', fs', ws', hloop, hframes, hsim⟩ :=
    (h.setLsn (if w.pageLsn = 0 then walId else w.pageLsn) walId).appendLoop f walId
  refine ⟨pages', carry', lead', fs', ws', hframes, ?_⟩
  rw [PageWriter.append, if_neg (by omega), hloop]
  exact hsim

/-! ## Runs -/

/-- Operations of the layout for operations on records. -/
def sizesOf {α : Type} (size : α → Nat) (ops : List (WriteOp α)) : List (WriteOp Nat) :=
  ops.map (WriteOp.map size)

/-- **Step.** One call keeps the simulation. -/
theorem Sim.perform (h : Sim c hdr w s pages carry lead fs ws) (op : WriteOp (Frame × UInt64)) :
    ∃ pages' carry' lead' fs' ws',
      fs' ++ ws' = fs ++ ws ++ (appended [op]).map Prod.fst ∧
      Sim c hdr (w.perform c allWritesSucceed (op.map fun r => (r.1.bytes, r.2))).2
        (s.step (op.map fun r => r.1.bytes.length)) pages' carry' lead' fs' ws' := by
  cases op with
  | append r => exact h.append r.1 r.2
  | flush =>
      obtain ⟨pages', carry', lead', fs', ws', hframes, hsim⟩ := h.flush
      exact ⟨pages', carry', lead', fs', ws', by simpa [appended] using hframes, hsim⟩

theorem appended_cons {α : Type} (op : WriteOp α) (ops : List (WriteOp α)) :
    appended (op :: ops) = appended [op] ++ appended ops := by
  cases op <;> rfl

/-- **Run.** So does a sequence of calls. -/
theorem Sim.run (h : Sim c hdr w s pages carry lead fs ws) (ops : List (WriteOp (Frame × UInt64))) :
    ∃ pages' carry' lead' fs' ws',
      fs' ++ ws' = fs ++ ws ++ (appended ops).map Prod.fst ∧
      Sim c hdr (w.run c allWritesSucceed (ops.map (WriteOp.map fun r => (r.1.bytes, r.2))))
        ((sizesOf (fun r => r.1.bytes.length) ops).foldl LayoutState.step s)
        pages' carry' lead' fs' ws' := by
  induction ops generalizing w s pages carry lead fs ws with
  | nil => exact ⟨pages, carry, lead, fs, ws, by simp [appended], h⟩
  | cons op ops ih =>
      obtain ⟨pages₁, carry₁, lead₁, fs₁, ws₁, hframes₁, h₁⟩ := h.perform op
      obtain ⟨pages₂, carry₂, lead₂, fs₂, ws₂, hframes₂, h₂⟩ := ih h₁
      refine ⟨pages₂, carry₂, lead₂, fs₂, ws₂, ?_, h₂⟩
      rw [hframes₂, hframes₁, appended_cons op ops, List.map_append, List.append_assoc]

/-- With nothing buffered no record is open. -/
theorem Sim.nothing_open (h : Sim c hdr w s pages carry lead fs ws) (hempty : w.data = []) :
    carry = none ∧ ws = [] := by
  have hdata := h.data
  rw [hempty] at hdata
  obtain ⟨hlead, hwhole⟩ := List.append_eq_nil_iff.mp hdata.symm
  refine ⟨?_, ?_⟩
  · cases h.opens with
    | fresh => rfl
    | tail hmore =>
        have hlen := congrArg List.length hlead
        rw [Lead.bytes, List.length_drop, List.length_nil] at hlen
        omega
  · cases ws with
    | nil => rfl
    | cons f ws =>
        have hlong := f.long
        have hlen := congrArg List.length hwhole
        rw [frameBytes_cons, List.length_append, List.length_nil] at hlen
        omega

theorem Sim.data_flush (h : Sim c hdr w s pages carry lead fs ws) :
    (w.flush c allWritesSucceed).2.data = [] := by
  unfold PageWriter.flush
  split_ifs with hdata
  · rw [flushPage_eq c hdata h.fileSize]
    rfl
  · rw [h.hasData, decide_eq_true_iff] at hdata
    exact List.length_eq_zero_iff.mp (Nat.eq_zero_of_not_pos hdata)

/-- A final flush leaves every record complete on the pages of the file. -/
theorem Sim.closedPages (h : Sim c hdr w s pages carry lead fs ws) :
    ∃ pages', OnDisk c hdr (w.flush c allWritesSucceed).2.file pages' ∧
      pages'.map PageContent.shape = s.flush.closed ∧ Laid none pages' (fs ++ ws) none := by
  obtain ⟨pages', carry', lead', fs', ws', hframes, hsim⟩ := h.flush
  obtain ⟨rfl, rfl⟩ := hsim.nothing_open h.data_flush
  rw [List.append_nil] at hframes
  exact ⟨pages', hsim.disk, hsim.closed.symm, hframes ▸ hsim.laid⟩

/-- The writer of a segment that does not exist yet, and the layout it starts from. -/
theorem sim_openSegment (c : Codec Chunk) (segmentIndex : UInt32) (databaseName : Bytes) :
    Sim c (fileHeaderPage segmentIndex databaseName)
      (PageWriter.openSegment allWritesSucceed [] segmentIndex databaseName) {} [] none .fresh
      [] [] := by
  have hfile : (PageWriter.openSegment allWritesSucceed [] segmentIndex databaseName).file =
      fileHeaderPage segmentIndex databaseName := by
    simp [PageWriter.openSegment, allWritesSucceed, PageWriter.startNewPage, writeAt]
  have hsize : (PageWriter.openSegment allWritesSucceed [] segmentIndex databaseName).fileSize =
      pageSize := by
    simp [PageWriter.openSegment, allWritesSucceed, PageWriter.startNewPage]
  refine ⟨⟨[], by rw [hfile]; simp, List.Forall₂.nil⟩, ?_, Laid.nil, Opens.fresh, ?_, ?_, ?_,
    rfl, rfl, rfl, ?_⟩
  · rw [hfile, hsize, length_fileHeaderPage]
  all_goals simp [PageWriter.openSegment, allWritesSucceed, PageWriter.startNewPage, Lead.bytes,
    Lead.flags]

end Wal
end Otterbrix
