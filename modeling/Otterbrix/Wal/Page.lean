/-
  Otterbrix.Wal.Page

  The page format of a WAL segment (`wal_page.hpp`).  A segment is a sequence
  of 4096-byte pages: page 0 holds the file header, every later page a 32-byte
  header, its data and zero padding.  The checksum covers the whole page with
  its own field zeroed.
-/
import Otterbrix.Wal.Record

namespace Otterbrix
namespace Wal

def pageSize : Nat := 4096
def pageHeaderSize : Nat := 32
def pageDataSize : Nat := pageSize - pageHeaderSize

/-- `PAGE_PARTIAL_CONT`: the page holds part of a record that spans pages. -/
def pagePartialCont : UInt16 := 1

/-- `PAGE_PARTIAL_END`: a spanning record ends on the page. -/
def pagePartialEnd : UInt16 := 2

/-- `wal_page_header_t`. -/
structure PageHeader where
  pageLsn : UInt64
  pageEndLsn : UInt64
  numRecords : UInt32
  dataSize : UInt32
  checksum : UInt32
  flags : UInt16
  reserved : UInt16
  deriving DecidableEq, Repr

namespace PageHeader

/-- The members before the checksum, at offset 24. -/
def beforeChecksum (h : PageHeader) : Bytes :=
  Bytes.writeLe64 h.pageLsn ++ (Bytes.writeLe64 h.pageEndLsn ++
    (Bytes.writeLe32 h.numRecords ++ Bytes.writeLe32 h.dataSize))

/-- The members after the checksum. -/
def afterChecksum (h : PageHeader) : Bytes :=
  Bytes.writeLe16 h.flags ++ Bytes.writeLe16 h.reserved

/-- The header as it lies in memory. -/
def toBytes (h : PageHeader) : Bytes :=
  h.beforeChecksum ++ (Bytes.writeLe32 h.checksum ++ h.afterChecksum)

/-- `memcpy(&hdr, page, PAGE_HEADER_SIZE)`. -/
def ofBytes (page : Bytes) : PageHeader where
  pageLsn := Bytes.readLe64 page
  pageEndLsn := Bytes.readLe64 (page.drop 8)
  numRecords := Bytes.readLe32 ((page.drop 8).drop 8)
  dataSize := Bytes.readLe32 (((page.drop 8).drop 8).drop 4)
  checksum := Bytes.readLe32 ((((page.drop 8).drop 8).drop 4).drop 4)
  flags := Bytes.readLe16 (((((page.drop 8).drop 8).drop 4).drop 4).drop 4)
  reserved := Bytes.readLe16 ((((((page.drop 8).drop 8).drop 4).drop 4).drop 4).drop 2)

@[simp] theorem length_beforeChecksum (h : PageHeader) : h.beforeChecksum.length = 24 := by
  simp [beforeChecksum]

@[simp] theorem length_afterChecksum (h : PageHeader) : h.afterChecksum.length = 4 := by
  simp [afterChecksum]

@[simp] theorem length_toBytes (h : PageHeader) : h.toBytes.length = pageHeaderSize := by
  simp [toBytes, pageHeaderSize]

/-- A header read back from the page it was written to. -/
theorem ofBytes_toBytes_append (h : PageHeader) (rest : Bytes) :
    ofBytes (h.toBytes ++ rest) = h := by
  unfold ofBytes toBytes beforeChecksum afterChecksum
  simp only [List.append_assoc, Bytes.drop_writeLe64_append, Bytes.drop_writeLe32_append,
    Bytes.drop_writeLe16_append, Bytes.readLe64_writeLe64_append,
    Bytes.readLe32_writeLe32_append, Bytes.readLe16_writeLe16_append]

/-- `flags & PAGE_PARTIAL_CONT`. -/
def isCont (h : PageHeader) : Bool := h.flags &&& pagePartialCont != 0

/-- `flags & PAGE_PARTIAL_END`. -/
def isEnd (h : PageHeader) : Bool := h.flags &&& pagePartialEnd != 0

end PageHeader

variable {Chunk : Type}

/-! ## Checksums -/

/-- The page with its checksum field zeroed. -/
def zeroChecksum (page : Bytes) : Bytes :=
  page.take 24 ++ (Bytes.writeLe32 0 ++ page.drop 28)

/-- `verify_checksum` of the header read from the page. -/
def verifyPageChecksum (c : Codec Chunk) (page : Bytes) : Bool :=
  c.crc32c (zeroChecksum page) == (PageHeader.ofBytes page).checksum

/-- The page image `flush_page` writes: header, data, zero padding, and the
    checksum computed over the image with a zero checksum field. -/
def buildPage (c : Codec Chunk) (hdr : PageHeader) (data : Bytes) : Bytes :=
  let rest := data ++ List.replicate (pageDataSize - data.length) 0
  let crc := c.crc32c ({ hdr with checksum := 0 }.toBytes ++ rest)
  { hdr with checksum := crc }.toBytes ++ rest

/-- `data_size` bytes of the data area. -/
def pageData (page : Bytes) : Bytes :=
  (page.drop pageHeaderSize).take (PageHeader.ofBytes page).dataSize.toNat

theorem length_buildPage (c : Codec Chunk) (hdr : PageHeader) {data : Bytes}
    (hdata : data.length ≤ pageDataSize) : (buildPage c hdr data).length = pageSize := by
  have hsum : pageHeaderSize + pageDataSize = pageSize := rfl
  simp only [buildPage, List.length_append, PageHeader.length_toBytes, List.length_replicate]
  omega

theorem zeroChecksum_toBytes_append (hdr : PageHeader) (rest : Bytes) :
    zeroChecksum (hdr.toBytes ++ rest) = { hdr with checksum := 0 }.toBytes ++ rest := by
  have htake : (hdr.toBytes ++ rest).take 24 = hdr.beforeChecksum := by
    rw [PageHeader.toBytes, List.append_assoc]
    exact List.take_left' (PageHeader.length_beforeChecksum hdr)
  have hdrop : (hdr.toBytes ++ rest).drop 28 = hdr.afterChecksum ++ rest := by
    rw [PageHeader.toBytes, ← List.append_assoc, List.append_assoc]
    refine List.drop_left' ?_
    simp
  rw [zeroChecksum, htake, hdrop]
  simp only [PageHeader.toBytes, PageHeader.beforeChecksum, PageHeader.afterChecksum,
    List.append_assoc]

/-- A page passes the check of the reader right after it was built. -/
theorem verifyPageChecksum_buildPage (c : Codec Chunk) (hdr : PageHeader) (data : Bytes) :
    verifyPageChecksum c (buildPage c hdr data) = true := by
  unfold verifyPageChecksum buildPage
  simp only [zeroChecksum_toBytes_append, PageHeader.ofBytes_toBytes_append, beq_self_eq_true]

theorem isCont_buildPage (c : Codec Chunk) (hdr : PageHeader) (data : Bytes) :
    (PageHeader.ofBytes (buildPage c hdr data)).isCont = hdr.isCont := by
  unfold buildPage
  rw [PageHeader.ofBytes_toBytes_append]
  rfl

theorem isEnd_buildPage (c : Codec Chunk) (hdr : PageHeader) (data : Bytes) :
    (PageHeader.ofBytes (buildPage c hdr data)).isEnd = hdr.isEnd := by
  unfold buildPage
  rw [PageHeader.ofBytes_toBytes_append]
  rfl

/-- The data area comes back when the header announces its length. -/
theorem pageData_buildPage (c : Codec Chunk) (hdr : PageHeader) (data : Bytes)
    (hsize : hdr.dataSize.toNat = data.length) : pageData (buildPage c hdr data) = data := by
  unfold pageData buildPage
  simp only [PageHeader.ofBytes_toBytes_append, hsize]
  rw [List.drop_left' (PageHeader.length_toBytes _)]
  exact List.take_left' rfl

/-! ## Files -/

/-- `file->write(bytes, offset)` at an offset inside the file. -/
def writeAt (file : Bytes) (offset : Nat) (bytes : Bytes) : Bytes :=
  file.take offset ++ (bytes ++ file.drop (offset + bytes.length))

/-- `wal_file_header_t::init` in a zeroed page. -/
def fileHeaderPage (segmentIndex : UInt32) (databaseName : Bytes) : Bytes :=
  let nameLen := if databaseName.length < 256 then databaseName.length else 255
  let hdr := [0x4f, 0x57, 0x41, 0x4c] ++ Bytes.writeLe16 1 ++ Bytes.writeLe16 0 ++
    Bytes.writeLe32 4096 ++ Bytes.writeLe32 segmentIndex ++
    Bytes.writeLe16 (UInt16.ofNat nameLen) ++ databaseName.take nameLen
  hdr ++ List.replicate (pageSize - hdr.length) 0

theorem length_fileHeaderPage (segmentIndex : UInt32) (databaseName : Bytes) :
    (fileHeaderPage segmentIndex databaseName).length = pageSize := by
  unfold fileHeaderPage pageSize
  simp only [List.length_append, List.length_replicate, List.length_take, List.length_cons,
    List.length_nil, Bytes.length_writeLe16, Bytes.length_writeLe32]
  split_ifs <;> omega

/-- `page_count`: data pages of a file. -/
def pageCount (file : Bytes) : Nat :=
  if file.length ≤ pageSize then 0 else file.length / pageSize - 1

/-- The page at an index, as `read_page` copies it out. -/
def pageAt (file : Bytes) (index : Nat) : Bytes :=
  (file.drop (index * pageSize)).take pageSize

/-- The data pages of a file, in order. -/
def dataPages (file : Bytes) : List Bytes :=
  (List.range (pageCount file)).map fun i => pageAt file (i + 1)

/-- Skipping whole pages of a concatenation. -/
theorem drop_flatten_pages {pages : List Bytes} (hpages : ∀ p ∈ pages, p.length = pageSize)
    (i : Nat) : pages.flatten.drop (i * pageSize) = (pages.drop i).flatten := by
  induction i generalizing pages with
  | zero => simp
  | succ i ih =>
      cases pages with
      | nil => simp
      | cons p pages =>
          have hp : p.length = pageSize := hpages p List.mem_cons_self
          have hrest : ∀ q ∈ pages, q.length = pageSize := fun q hq =>
            hpages q (List.mem_cons_of_mem _ hq)
          rw [List.flatten_cons, List.drop_succ_cons, ← ih hrest, Nat.succ_mul, Nat.add_comm,
            ← List.drop_drop, List.drop_left' hp]

theorem length_flatten_pages {pages : List Bytes} (hpages : ∀ p ∈ pages, p.length = pageSize) :
    pages.flatten.length = pages.length * pageSize := by
  induction pages with
  | nil => simp
  | cons p pages ih =>
      have hp : p.length = pageSize := hpages p List.mem_cons_self
      have hrest : ∀ q ∈ pages, q.length = pageSize := fun q hq =>
        hpages q (List.mem_cons_of_mem _ hq)
      rw [List.flatten_cons, List.length_append, ih hrest, hp, List.length_cons, Nat.succ_mul,
        Nat.add_comm]

/-- Any bytes are whole pages and a torn rest. -/
theorem exists_pages (bytes : Bytes) :
    ∃ (pages : List Bytes) (rest : Bytes), bytes = pages.flatten ++ rest ∧
      (∀ p ∈ pages, p.length = pageSize) ∧ rest.length < pageSize := by
  have hpos : 0 < pageSize := by decide
  induction hn : bytes.length using Nat.strongRecOn generalizing bytes with
  | ind n ih =>
      by_cases hshort : bytes.length < pageSize
      · exact ⟨[], bytes, rfl, by simp, hshort⟩
      · -- cut one page off the front
        obtain ⟨pages, rest, hsplit, hpages, hrest⟩ :=
          ih (n - pageSize) (by omega) (bytes.drop pageSize) (by rw [List.length_drop, hn])
        refine ⟨bytes.take pageSize :: pages, rest, ?_, ?_, hrest⟩
        · rw [List.flatten_cons, List.append_assoc, ← hsplit, List.take_append_drop]
        · refine List.forall_mem_cons.mpr ⟨?_, hpages⟩
          rw [List.length_take]
          omega

/-- The pages of a file made of a header page, whole pages and a torn rest. -/
theorem dataPages_append {hdr rest : Bytes} {pages : List Bytes} (hhdr : hdr.length = pageSize)
    (hpages : ∀ p ∈ pages, p.length = pageSize) (hrest : rest.length < pageSize) :
    dataPages (hdr ++ (pages.flatten ++ rest)) = pages := by
  have hpos : 0 < pageSize := by decide
  have hlen : (hdr ++ (pages.flatten ++ rest)).length =
      (pages.length + 1) * pageSize + rest.length := by
    rw [List.length_append, List.length_append, length_flatten_pages hpages, hhdr, Nat.succ_mul]
    omega
  have hcount : pageCount (hdr ++ (pages.flatten ++ rest)) = pages.length := by
    unfold pageCount
    rw [hlen, Nat.mul_comm, Nat.mul_add_div hpos, Nat.div_eq_of_lt hrest]
    split_ifs with hle
    · -- a file of at most one page has no data page
      rw [Nat.mul_succ] at hle
      have hzero : pageSize * pages.length ≤ 0 := by omega
      rcases Nat.eq_zero_or_pos pages.length with h | h
      · exact h.symm
      · exact absurd hzero (by have := Nat.mul_pos hpos h; omega)
    · omega
  refine List.ext_getElem ?_ fun i hi hi' => ?_
  · rw [dataPages, List.length_map, List.length_range, hcount]
  · have hskip : (hdr ++ (pages.flatten ++ rest)).drop ((i + 1) * pageSize) =
        (pages.drop i).flatten ++ rest := by
      have hbody : i * pageSize ≤ pages.flatten.length := by
        rw [length_flatten_pages hpages]
        exact Nat.mul_le_mul_right _ (Nat.le_of_lt hi')
      rw [Nat.succ_mul, Nat.add_comm, ← List.drop_drop, List.drop_left' hhdr,
        List.drop_append_of_le_length hbody, drop_flatten_pages hpages]
    have hpage : pages[i].length = pageSize := hpages _ (List.getElem_mem hi')
    simp only [dataPages, List.getElem_map, List.getElem_range, pageAt, hskip]
    rw [List.drop_eq_getElem_cons hi', List.flatten_cons, List.append_assoc,
      List.take_left' hpage]

end Wal
end Otterbrix
