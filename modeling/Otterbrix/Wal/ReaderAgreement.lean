/-
  Otterbrix.Wal.ReaderAgreement

  The two readers of a WAL path: `wal_reader_t::read_committed_records`, and
  `manager_wal_replicate_t::load` over one worker per database.

  Both keep the records of committed transactions of each database, and they differ in what they
  look at.  The offline reader takes every subdirectory and every file whose name starts with
  `wal_`, and stops behind the first file with a bad page.  The manager takes the subdirectories
  whose names parse as an oid, and the worker of an oid the files with its own prefix, all of them.

  Both sort by wal id with `std::sort`, which leaves the order of equal ids open, and neither order
  of the databases is fixed: a result is any list that these allow.
-/
import Mathlib.Data.Char
import Mathlib.Data.List.Dedup
import Mathlib.Data.List.Lex
import Otterbrix.Lib.KeySort
import Otterbrix.Wal.ReaderTermination
import Otterbrix.Wal.TornTail

namespace Otterbrix
namespace Wal

variable {Chunk : Type}

/-! ## Names -/

abbrev FileName := List Char

/-- `std::isspace`. -/
def isSpace (ch : Char) : Bool := ch = ' ' ∨ ('\t' ≤ ch ∧ ch ≤ '\r')

/-- `std::stoul`: spaces, a sign, digits; what follows the digits is ignored.  A negative number is
    negated in `unsigned long`. -/
def stoul (s : List Char) : Option Nat :=
  let body := s.dropWhile isSpace
  let negative := body.head? = some '-'
  let unsigned := if negative ∨ body.head? = some '+' then body.tail else body
  let digits := unsigned.takeWhile Char.isDigit
  let value := digits.foldl (fun n d => 10 * n + (d.toNat - '0'.toNat)) 0
  if digits = [] ∨ 2 ^ 64 ≤ value then none
  else some (if negative then (2 ^ 64 - value) % 2 ^ 64 else value)

/-- `database_dir_name_`. -/
def databaseDirName (oid : Nat) : FileName := Nat.toDigits 10 oid

def walStart : FileName := ['w', 'a', 'l', '_']

/-- The start of the names of a worker's segments. -/
def segmentStart (oid : Nat) : FileName := walStart ++ databaseDirName oid ++ ['_']

/-- `segment_filename`: the index in six digits. -/
def segmentFilename (oid index : Nat) : FileName :=
  let digits := Nat.toDigits 10 index
  segmentStart oid ++ List.replicate (6 - digits.length) '0' ++ digits

/-- `parse_segment_index`, `none` for `static_cast<uint32_t>(-1)`. -/
def parseSegmentIndex (oid : Nat) (name : FileName) : Option Nat :=
  let start := segmentStart oid
  if name.length ≤ start.length ∨ ¬start <+: name then none
  else ((stoul (name.drop start.length)).map (· % uint32Size)).filter (· ≠ uint32Size - 1)

/-! ## The directory -/

/-- A subdirectory: its regular files, in the order of their names. -/
structure WalSubdirectory where
  name : FileName
  files : List (FileName × Bytes)
  sorted : files.Pairwise fun a b => a.1 < b.1

/-- The content of `config_.path`. -/
structure WalPath where
  dirs : List WalSubdirectory
  distinct : (dirs.map WalSubdirectory.name).Nodup

/-- The oid the manager reads off the name, `static_cast<oid_t>(std::stoul(...))`. -/
def WalSubdirectory.databaseOid (d : WalSubdirectory) : Option Nat :=
  (stoul d.name).map (· % uint32Size)

/-- The files the offline reader takes. -/
def WalSubdirectory.walFiles (d : WalSubdirectory) : List Bytes :=
  (d.files.filter fun f => walStart.isPrefixOf f.1).map Prod.snd

/-- `discover_segments` of the worker of an oid. -/
def discoverSegments (oid : Nat) (files : List (FileName × Bytes)) : List (FileName × Bytes) :=
  files.filter fun f => (segmentStart oid).isPrefixOf f.1

/-- The files in `database_dir_`. -/
def WalPath.filesOf (path : WalPath) (oid : Nat) : List (FileName × Bytes) :=
  ((path.dirs.find? fun d => d.name = databaseDirName oid).map WalSubdirectory.files).getD []

/-- The oids with a worker: a worker is shared by all names that parse as its oid. -/
def WalPath.oids (path : WalPath) : List Nat :=
  (path.dirs.filterMap WalSubdirectory.databaseOid).dedup

/-! ## The readers -/

/-- `a.id < b.id` as the order of `std::sort`. -/
def idKey (r : Record Chunk) : Nat := r.id.toNat

/-- The records of several files. -/
def readFiles (c : Codec Chunk) (after : UInt64) : List Bytes → Option (List (Record Chunk))
  | [] => some []
  | file :: files => (readSegment c after file).bind fun records =>
      (readFiles c after files).map (records ++ ·)

/-- The loop of `read_database_segments`. -/
def readFilesUntilBroken (c : Codec Chunk) (after : UInt64) :
    List Bytes → Option (List (Record Chunk))
  | [] => some []
  | file :: files => (readSegment c after file).bind fun records =>
      if verifyChain c file then (readFilesUntilBroken c after files).map (records ++ ·)
      else some records

/-- `read_committed_records`: the databases in the order of the directory iterator. -/
def ReadsOffline (c : Codec Chunk) (after : UInt64) (path : WalPath) (out : List (Record Chunk)) :
    Prop :=
  MergesBy idKey (fun d part =>
    (readFilesUntilBroken c after (WalSubdirectory.walFiles d)).map committedOnly = some part)
      path.dirs out

/-- The directory once a worker has opened its segment and flushed it. -/
def openWriter (c : Codec Chunk) (ok : Nat → Bool) (oid index : Nat)
    (files : List (FileName × Bytes)) : List (FileName × Bytes) :=
  let name := segmentFilename oid index
  let writer := PageWriter.openSegment ok ((files.lookup name).getD []) (UInt32.ofNat index)
    ((databaseDirName oid).map fun ch => UInt8.ofNat ch.toNat)
  files.filter (fun f => f.1 < name) ++ (name, (writer.flush c ok).2.file) ::
    files.filter fun f => name < f.1

/-- The worker of an oid: `recover_from_disk`, `ensure_writer`, and `load`. -/
def WorkerLoads (c : Codec Chunk) (ok : Nat → Bool) (after : UInt64) (path : WalPath) (oid : Nat)
    (out : List (Record Chunk)) : Prop :=
  let files := path.filesOf oid
  ∃ s, recoverFromDisk c {} ((discoverSegments oid files).map fun f =>
      ((parseSegmentIndex oid f.1).getD 0, f.2)) = some s ∧
    ∃ records, readFiles c after
        ((discoverSegments oid (openWriter c ok oid s.maxSegIndex files)).map Prod.snd) =
          some records ∧
      SortsBy idKey (committedOnly records) out

/-- The constructor of the manager comes to its end: it reads every file of every subdirectory with
    an oid. -/
def ManagerStarts (c : Codec Chunk) (path : WalPath) : Prop :=
  ∀ d ∈ path.dirs, d.databaseOid.isSome = true → ∀ f ∈ d.files,
    ∃ records, readSegment c 0 f.2 = some records

/-- `manager_wal_replicate_t::load`: the workers in the order of `wal_actors_`. -/
def ReadsOnline (c : Codec Chunk) (ok : Nat → Bool) (after : UInt64) (path : WalPath)
    (out : List (Record Chunk)) : Prop :=
  ManagerStarts c path ∧ MergesBy idKey (WorkerLoads c ok after path) path.oids out

/-- Both readers return, and whatever they return is the same list. -/
def ReadersAgree (c : Codec Chunk) (ok : Nat → Bool) (after : UInt64) (path : WalPath) : Prop :=
  (∃ out, ReadsOffline c after path out) ∧ (∃ out, ReadsOnline c ok after path out) ∧
    ∀ offline online, ReadsOffline c after path offline → ReadsOnline c ok after path online →
      offline = online

/-! ## One database -/

/-- The segments up to and including the first one with a bad page, and those behind it. -/
def splitBroken (c : Codec Chunk) : List Bytes → List Bytes × List Bytes
  | [] => ([], [])
  | file :: files =>
      if verifyChain c file then
        ((file :: (splitBroken c files).1), (splitBroken c files).2)
      else ([file], files)

theorem splitBroken_append (c : Codec Chunk) (files : List Bytes) :
    (splitBroken c files).1 ++ (splitBroken c files).2 = files := by
  induction files with
  | nil => rfl
  | cons file files ih =>
    unfold splitBroken
    split
    · show file :: ((splitBroken c files).1 ++ (splitBroken c files).2) = _
      rw [ih]
    · rfl

/-- The offline reader reads the first part only. -/
theorem readFilesUntilBroken_eq (c : Codec Chunk) (after : UInt64) (files : List Bytes) :
    readFilesUntilBroken c after files = readFiles c after (splitBroken c files).1 := by
  induction files with
  | nil => rfl
  | cons file files ih =>
    unfold readFilesUntilBroken splitBroken
    by_cases hok : verifyChain c file = true
    · simp only [if_pos hok, ih, readFiles]
    · simp only [if_neg hok, readFiles, Option.map_some, List.append_nil]

theorem readFiles_append (c : Codec Chunk) (after : UInt64) (files more : List Bytes) :
    readFiles c after (files ++ more) = (readFiles c after files).bind fun records =>
      (readFiles c after more).map (records ++ ·) := by
  induction files with
  | nil =>
    show _ = (readFiles c after more).map fun rest => [] ++ rest
    simp
  | cons file files ih =>
    rw [List.cons_append, readFiles, readFiles, ih]
    cases readSegment c after file with
    | none => rfl
    | some records =>
      cases readFiles c after files with
      | none => rfl
      | some first => cases readFiles c after more <;> simp

/-- **Files that can be read.**  It does not depend on the id to start from. -/
theorem readFiles_isSome_iff (c : Codec Chunk) (after : UInt64) (files : List Bytes) :
    (∃ records, readFiles c after files = some records) ↔ ∀ file ∈ files, SegmentSound c file := by
  induction files with
  | nil => simp [readFiles]
  | cons file files ih =>
    rw [List.forall_mem_cons, ← ih, ← readSegment_isSome_iff c after file, readFiles]
    cases readSegment c after file with
    | none => simp
    | some records => cases readFiles c after files <;> simp

/-! ## What the second part adds -/

/-- Some record of the second part would be returned. -/
def Adds (first later : List (Record Chunk)) : Prop :=
  ∃ r ∈ later, r.isValid = true ∧
    (r.transactionId = 0 ∨ r.transactionId ∈ committedTxns (first ++ later))

theorem committedTxns_append (first later : List (Record Chunk)) :
    committedTxns (first ++ later) = committedTxns first ++ committedTxns later := by
  unfold committedTxns
  rw [List.filter_append, List.map_append]

theorem committedOnly_append (first later : List (Record Chunk)) :
    committedOnly (first ++ later) =
      (first.filter fun r => r.isValid && (r.transactionId == 0 ||
        (committedTxns (first ++ later)).contains r.transactionId)) ++
      later.filter fun r => r.isValid && (r.transactionId == 0 ||
        (committedTxns (first ++ later)).contains r.transactionId) := by
  unfold committedOnly
  rw [List.filter_append]

/-- Nothing is added: a COMMIT marker in the second part would be returned itself. -/
theorem committedOnly_append_of_not_adds {first later : List (Record Chunk)}
    (hnone : ¬Adds first later) : committedOnly (first ++ later) = committedOnly first := by
  have hlater : later.filter (fun r => r.isValid && (r.transactionId == 0 ||
      (committedTxns (first ++ later)).contains r.transactionId)) = [] := by
    apply List.filter_eq_nil_iff.mpr
    intro r hr hkept
    simp only [Bool.and_eq_true, Bool.or_eq_true, beq_iff_eq, List.contains_iff_mem] at hkept
    exact hnone ⟨r, hr, hkept.1, hkept.2⟩
  have hmarkers : committedTxns later = [] := by
    rw [List.eq_nil_iff_forall_not_mem]
    intro txn htxn
    obtain ⟨m, hm, -, hvalid, rfl⟩ := mem_committedTxns.mp htxn
    refine hnone ⟨m, hm, hvalid, .inr ?_⟩
    rw [committedTxns_append]
    exact List.mem_append_right _ htxn
  rw [committedOnly_append, hlater, List.append_nil, committedTxns_append, hmarkers,
    List.append_nil]
  rfl

theorem committedOnly_sublist (first later : List (Record Chunk)) :
    (committedOnly first).Sublist (first.filter fun r => r.isValid && (r.transactionId == 0 ||
      (committedTxns (first ++ later)).contains r.transactionId)) := by
  apply List.monotone_filter_right
  intro r hr
  simp only [Bool.and_eq_true, Bool.or_eq_true, beq_iff_eq, List.contains_iff_mem,
    committedTxns_append, List.mem_append] at hr ⊢
  exact ⟨hr.1, hr.2.imp_right .inl⟩

/-- Something is added: the result grows. -/
theorem length_committedOnly_lt {first later : List (Record Chunk)} (hadds : Adds first later) :
    (committedOnly first).length < (committedOnly (first ++ later)).length := by
  obtain ⟨r, hr, hvalid, htxn⟩ := hadds
  have hfirst := (committedOnly_sublist first later).length_le
  have hmem : r ∈ later.filter fun r => r.isValid && (r.transactionId == 0 ||
      (committedTxns (first ++ later)).contains r.transactionId) := by
    rw [List.mem_filter]
    simp only [Bool.and_eq_true, Bool.or_eq_true, beq_iff_eq, List.contains_iff_mem]
    exact ⟨hr, hvalid, htxn⟩
  have hpos := List.length_pos_of_mem hmem
  rw [committedOnly_append, List.length_append]
  omega

theorem length_committedOnly_le (first later : List (Record Chunk)) :
    (committedOnly first).length ≤ (committedOnly (first ++ later)).length := by
  by_cases hadds : Adds first later
  · exact Nat.le_of_lt (length_committedOnly_lt hadds)
  · rw [committedOnly_append_of_not_adds hadds]

/-! ## A worker over the files of a database -/

theorem readAllRecords_of_readSegment {c : Codec Chunk} {after : UInt64} {file : Bytes}
    {records : List (Record Chunk)} (h : readSegment c after file = some records) :
    readAllRecords c after file = some records := by
  unfold readSegment pagesRead at h
  unfold readAllRecords
  generalize ({} : SpanState) = st at h ⊢
  generalize dataPages file = pages at h ⊢
  induction pages generalizing st records with
  | nil => exact h
  | cons page pages ih =>
    unfold readPages
    by_cases hcheck : verifyPageChecksum c page = true
    · rw [List.takeWhile_cons_of_pos hcheck] at h
      rw [if_pos hcheck]
      unfold readChecked at h
      dsimp only at h
      split at h
      · have hpage : readPage c after st (viewOf page).isCont (viewOf page).isEnd
            (viewOf page).data = readPage c after st (PageHeader.ofBytes page).isCont
              (PageHeader.ofBytes page).isEnd (pageData page) := rfl
        rw [hpage] at h
        dsimp only
        cases hread : readPage c after st (PageHeader.ofBytes page).isCont
            (PageHeader.ofBytes page).isEnd (pageData page) with
        | none =>
          rw [hread] at h
          cases h
        | some p =>
          rw [hread] at h
          obtain ⟨later, hlater, rfl⟩ := Option.map_eq_some_iff.mp h
          dsimp only
          rw [ih _ hlater]
          rfl
      · cases h
    · rw [List.takeWhile_cons_of_neg hcheck] at h
      rw [if_neg hcheck]
      exact h

/-- Opening a segment changes nothing a reader sees. -/
theorem readSegment_openSegment (c : Codec Chunk) (ok : Nat → Bool) (after : UInt64)
    (existing : Bytes) (segmentIndex : UInt32) (databaseName : Bytes) :
    readSegment c after (PageWriter.openSegment ok existing segmentIndex databaseName).file =
      readSegment c after existing := by
  have hnoPages : ∀ {file : Bytes}, file.length ≤ pageSize → dataPages file = [] := by
    intro file hle
    have hcount : pageCount file = 0 := by rw [pageCount, if_pos hle]
    rw [dataPages, hcount, List.range_zero, List.map_nil]
  by_cases hmore : pageSize < existing.length
  · rw [(openSegment_existing ok segmentIndex databaseName hmore).1]
  · have hshort : existing.length ≤ pageSize := Nat.le_of_not_lt hmore
    have hfile : (PageWriter.openSegment ok existing segmentIndex databaseName).file.length ≤
        pageSize := by
      unfold PageWriter.openSegment
      rw [if_neg hmore]
      dsimp only
      split
      · show (writeAt existing 0 (fileHeaderPage segmentIndex databaseName)).length ≤ pageSize
        rw [writeAt, List.take_zero, List.nil_append, List.length_append, List.length_drop,
          length_fileHeaderPage]
        omega
      · exact hshort
    unfold readSegment pagesRead
    rw [hnoPages hfile, hnoPages hshort]

/-- A directory that is read to the end is recovered. -/
theorem exists_recoverFromDisk {c : Codec Chunk} {dir : Directory}
    (hread : ∀ f ∈ dir, ∃ records, readAllRecords c 0 f.2 = some records) (s : Recovered) :
    ∃ s', recoverFromDisk c s dir = some s' := by
  induction dir generalizing s with
  | nil => exact ⟨s, rfl⟩
  | cons f dir ih =>
    obtain ⟨index, file⟩ := f
    obtain ⟨records, hrecords⟩ := hread _ List.mem_cons_self
    unfold recoverFromDisk
    rw [hrecords]
    dsimp only
    split
    · exact ih (fun f hf => hread f (List.mem_cons_of_mem _ hf)) _
    · exact ⟨_, rfl⟩

theorem flush_openSegment (c : Codec Chunk) (ok : Nat → Bool) (existing : Bytes)
    (segmentIndex : UInt32) (databaseName : Bytes) :
    ((PageWriter.openSegment ok existing segmentIndex databaseName).flush c ok).2 =
      PageWriter.openSegment ok existing segmentIndex databaseName := by
  have hdata : (PageWriter.openSegment ok existing segmentIndex databaseName).hasData = false := by
    unfold PageWriter.openSegment
    dsimp only
    split_ifs <;> rfl
  unfold PageWriter.flush
  rw [hdata]
  rfl

/-- A sorted directory around a name. -/
theorem split_sorted {files : List (FileName × Bytes)}
    (hsorted : files.Pairwise fun a b => a.1 < b.1) (name : FileName) :
    ∃ here, files = files.filter (fun f => f.1 < name) ++ here ++
        files.filter (fun f => name < f.1) ∧
      ((files.lookup name = none ∧ here = []) ∨
        ∃ file, files.lookup name = some file ∧ here = [(name, file)]) := by
  induction files with
  | nil => exact ⟨[], rfl, .inl ⟨rfl, rfl⟩⟩
  | cons f files ih =>
    obtain ⟨hfirst, hrest⟩ := List.pairwise_cons.mp hsorted
    obtain ⟨here, hsplit, hhere⟩ := ih hrest
    have hbehind : name ≤ f.1 → files.filter (fun g => g.1 < name) = [] := by
      intro hle
      apply List.filter_eq_nil_iff.mpr
      intro g hg
      simpa using (hle.trans (hfirst g hg).le)
    rcases lt_trichotomy f.1 name with hlt | rfl | hgt
    · refine ⟨here, ?_, ?_⟩
      · rw [List.filter_cons_of_pos (by simpa using hlt),
          List.filter_cons_of_neg (by simpa using hlt.le), List.cons_append, List.cons_append,
          ← hsplit]
      · have hskip : List.lookup name (f :: files) = files.lookup name := by
          rw [List.lookup_cons, beq_false_of_ne hlt.ne']
        rwa [hskip]
    · have hall : files.filter (fun g => f.1 < g.1) = files := by
        apply List.filter_eq_self.mpr
        intro g hg
        exact decide_eq_true (hfirst g hg)
      refine ⟨[f], ?_, .inr ⟨f.2, List.lookup_cons_self, rfl⟩⟩
      rw [List.filter_cons_of_neg (by simp), List.filter_cons_of_neg (by simp),
        hbehind (le_refl _), hall]
      rfl
    · have hnone : List.lookup name (f :: files) = none := by
        apply List.lookup_eq_none_iff.mpr
        intro g hg
        rcases List.mem_cons.mp hg with rfl | hg
        · exact bne_iff_ne.mpr hgt.ne
        · exact bne_iff_ne.mpr (hgt.trans (hfirst g hg)).ne
      have hall : files.filter (fun g => name < g.1) = files := by
        apply List.filter_eq_self.mpr
        intro g hg
        exact decide_eq_true (hgt.trans (hfirst g hg))
      refine ⟨[], ?_, .inl ⟨hnone, rfl⟩⟩
      rw [List.filter_cons_of_neg (by simpa using hgt.le),
        List.filter_cons_of_pos (by simpa using hgt), hbehind hgt.le, hall]
      rfl

theorem segmentStart_isPrefixOf (oid index : Nat) :
    (segmentStart oid).isPrefixOf (segmentFilename oid index) = true := by
  rw [List.isPrefixOf_iff_prefix, segmentFilename, List.append_assoc]
  exact List.prefix_append _ _

theorem readSegment_nil (c : Codec Chunk) (after : UInt64) : readSegment c after [] = some [] := rfl

/-- **A worker reads the files it was constructed over.**  What it opens is one of them, or a file
without records. -/
theorem readFiles_openWriter (c : Codec Chunk) (ok : Nat → Bool) (after : UInt64)
    {files : List (FileName × Bytes)} (hsorted : files.Pairwise fun a b => a.1 < b.1)
    (oid index : Nat) :
    readFiles c after ((discoverSegments oid (openWriter c ok oid index files)).map Prod.snd) =
      readFiles c after ((discoverSegments oid files).map Prod.snd) := by
  obtain ⟨here, hsplit, hhere⟩ := split_sorted hsorted (segmentFilename oid index)
  have hopened : ∀ file, (files.lookup (segmentFilename oid index)).getD [] = file →
      openWriter c ok oid index files =
        files.filter (fun f => f.1 < segmentFilename oid index) ++ (segmentFilename oid index,
          ((PageWriter.openSegment ok file (UInt32.ofNat index) ((databaseDirName oid).map
            fun ch => UInt8.ofNat ch.toNat)).flush c ok).2.file) ::
              files.filter fun f => segmentFilename oid index < f.1 := by
    rintro file rfl
    rfl
  have hkept := segmentStart_isPrefixOf oid index
  rcases hhere with ⟨hlookup, rfl⟩ | ⟨file, hlookup, rfl⟩
  · rw [hopened [] (by rw [hlookup]; rfl)]
    conv_rhs => rw [hsplit, List.append_nil]
    unfold discoverSegments
    rw [List.filter_append, List.filter_append, List.filter_cons_of_pos (by exact hkept),
      List.map_append, List.map_append, List.map_cons, readFiles_append, readFiles_append,
      readFiles, flush_openSegment, readSegment_openSegment, readSegment_nil]
    simp
  · rw [hopened file (by rw [hlookup]; rfl)]
    conv_rhs => rw [hsplit, List.append_assoc]
    unfold discoverSegments
    rw [List.filter_append, List.filter_append, List.filter_cons_of_pos (by exact hkept),
      List.singleton_append, List.filter_cons_of_pos (by exact hkept), List.map_append,
      List.map_append, List.map_cons, List.map_cons, readFiles_append, readFiles_append,
      readFiles, readFiles, flush_openSegment, readSegment_openSegment]

theorem WalPath.sorted_filesOf (path : WalPath) (oid : Nat) :
    (path.filesOf oid).Pairwise fun a b => a.1 < b.1 := by
  unfold WalPath.filesOf
  cases path.dirs.find? fun d => d.name = databaseDirName oid with
  | none => exact List.Pairwise.nil
  | some d => exact d.sorted

/-- What a worker can return: the recovery scan at its construction reads the same segments. -/
theorem workerLoads_iff (c : Codec Chunk) (ok : Nat → Bool) (after : UInt64) (path : WalPath)
    (oid : Nat) (out : List (Record Chunk)) :
    WorkerLoads c ok after path oid out ↔ ∃ records,
      readFiles c after ((discoverSegments oid (path.filesOf oid)).map Prod.snd) = some records ∧
        SortsBy idKey (committedOnly records) out := by
  have hopened := readFiles_openWriter c ok after (path.sorted_filesOf oid) oid
  unfold WorkerLoads
  dsimp only
  constructor
  · rintro ⟨s, -, records, hrecords, hsorts⟩
    exact ⟨records, by rwa [hopened] at hrecords, hsorts⟩
  · rintro ⟨records, hrecords, hsorts⟩
    have hsound := (readFiles_isSome_iff c after _).mp ⟨records, hrecords⟩
    have hscan : ∀ f ∈ (discoverSegments oid (path.filesOf oid)).map fun f =>
        ((parseSegmentIndex oid f.1).getD 0, f.2),
          ∃ found, readAllRecords c 0 f.2 = some found := by
      intro f hf
      obtain ⟨g, hg, rfl⟩ := List.mem_map.mp hf
      obtain ⟨found, hfound⟩ := (readSegment_isSome_iff c 0 g.2).mpr
        (hsound g.2 (List.mem_map_of_mem hg))
      exact ⟨found, readAllRecords_of_readSegment hfound⟩
    obtain ⟨s, hs⟩ := exists_recoverFromDisk hscan {}
    exact ⟨s, hs, records, by rwa [hopened], hsorts⟩

/-! ## The readers when every file can be read -/

/-- The records of files that can be read. -/
def recordsIn (c : Codec Chunk) (after : UInt64) (files : List Bytes) : List (Record Chunk) :=
  (readFiles c after files).getD []

/-- What the offline reader collects, before it sorts. -/
def offlineRecords (c : Codec Chunk) (after : UInt64) (path : WalPath) : List (Record Chunk) :=
  path.dirs.flatMap fun d => committedOnly (recordsIn c after (splitBroken c d.walFiles).1)

/-- What the workers collect. -/
def onlineRecords (c : Codec Chunk) (after : UInt64) (path : WalPath) : List (Record Chunk) :=
  path.oids.flatMap fun oid =>
    committedOnly (recordsIn c after ((discoverSegments oid (path.filesOf oid)).map Prod.snd))

/-- The files that are read: by the offline reader, by the constructor of the manager, and by the
    workers. -/
def WalPath.filesRead (c : Codec Chunk) (path : WalPath) : List Bytes :=
  path.dirs.flatMap (fun d => (splitBroken c d.walFiles).1) ++
    (path.dirs.filter fun d => d.databaseOid.isSome).flatMap (fun d => d.files.map Prod.snd) ++
      path.oids.flatMap fun oid => (discoverSegments oid (path.filesOf oid)).map Prod.snd

section EveryFile

variable {c : Codec Chunk} {ok : Nat → Bool} {after : UInt64} {path : WalPath}

theorem readFiles_eq (after : UInt64) {files : List Bytes}
    (h : ∀ file ∈ files, SegmentSound c file) :
    readFiles c after files = some (recordsIn c after files) := by
  obtain ⟨records, hrecords⟩ := (readFiles_isSome_iff c after files).mpr h
  rw [recordsIn, hrecords]
  rfl

/-- What the offline reader can return. -/
theorem readsOffline_iff (hsound : ∀ file ∈ path.filesRead c, SegmentSound c file)
    (out : List (Record Chunk)) :
    ReadsOffline c after path out ↔ SortsBy idKey (offlineRecords c after path) out := by
  refine MergesBy.iff_sortsBy fun d hd => ?_
  have hall : ∀ file ∈ (splitBroken c d.walFiles).1, SegmentSound c file := fun file hfile =>
    hsound file (List.mem_append_left _ (List.mem_append_left _
      (List.mem_flatMap.mpr ⟨d, hd, hfile⟩)))
  have hread := readFiles_eq after hall
  rw [readFilesUntilBroken_eq, hread]
  refine ⟨⟨_, rfl⟩, fun part hpart => ?_⟩
  rw [← Option.some.inj hpart]

/-- What the workers together can return. -/
theorem readsOnline_iff (hsound : ∀ file ∈ path.filesRead c, SegmentSound c file)
    (out : List (Record Chunk)) :
    ReadsOnline c ok after path out ↔ SortsBy idKey (onlineRecords c after path) out := by
  have hstarts : ManagerStarts c path := by
    intro d hd hoid f hf
    refine (readSegment_isSome_iff c 0 f.2).mpr (hsound _ (List.mem_append_left _
      (List.mem_append_right _ (List.mem_flatMap.mpr ⟨d, ?_, List.mem_map_of_mem hf⟩))))
    exact List.mem_filter.mpr ⟨hd, hoid⟩
  unfold ReadsOnline
  rw [and_iff_right hstarts]
  refine MergesBy.iff_sortsBy fun oid hoid => ?_
  have hall : ∀ file ∈ (discoverSegments oid (path.filesOf oid)).map Prod.snd,
      SegmentSound c file := fun file hfile =>
    hsound file (List.mem_append_right _ (List.mem_flatMap.mpr ⟨oid, hoid, hfile⟩))
  have hread := readFiles_eq after hall
  obtain ⟨sorted, hsorted⟩ := SortsBy.exists_result idKey (committedOnly (recordsIn c after
    ((discoverSegments oid (path.filesOf oid)).map Prod.snd)))
  refine ⟨⟨sorted, (workerLoads_iff c ok after path oid sorted).mpr ⟨_, hread, hsorted⟩⟩, ?_⟩
  intro part hpart
  obtain ⟨records, hrecords, hsorts⟩ := (workerLoads_iff c ok after path oid part).mp hpart
  rw [hread] at hrecords
  rw [← Option.some.inj hrecords] at hsorts
  exact hsorts.perm

/-- Readers that return have read every file. -/
theorem segmentSound_of_reads {offline online : List (Record Chunk)}
    (hoffline : ReadsOffline c after path offline) (honline : ReadsOnline c ok after path online) :
    ∀ file ∈ path.filesRead c, SegmentSound c file := by
  intro file hfile
  rcases List.mem_append.mp hfile with hfile | hworker
  · rcases List.mem_append.mp hfile with hbefore | hmanager
    · obtain ⟨d, hd, hfile⟩ := List.mem_flatMap.mp hbefore
      obtain ⟨part, hpart⟩ := MergesBy.exists_part hoffline d hd
      obtain ⟨records, hrecords, -⟩ := Option.map_eq_some_iff.mp hpart
      rw [readFilesUntilBroken_eq] at hrecords
      exact (readFiles_isSome_iff c after _).mp ⟨records, hrecords⟩ file hfile
    · obtain ⟨d, hd, hfile⟩ := List.mem_flatMap.mp hmanager
      obtain ⟨f, hf, rfl⟩ := List.mem_map.mp hfile
      obtain ⟨hd, hoid⟩ := List.mem_filter.mp hd
      exact (readSegment_isSome_iff c 0 f.2).mp (honline.1 d hd hoid f hf)
  · obtain ⟨oid, hoid, hfile⟩ := List.mem_flatMap.mp hworker
    obtain ⟨part, hpart⟩ := MergesBy.exists_part honline.2 oid hoid
    obtain ⟨records, hrecords, -⟩ := (workerLoads_iff c ok after path oid part).mp hpart
    exact (readFiles_isSome_iff c after _).mp ⟨records, hrecords⟩ file hfile

end EveryFile

/-! ## Directories as the workers lay them out -/

/-- The records in the segments of a database up to the first one with a bad page. -/
def recordsBefore (c : Codec Chunk) (after : UInt64) (d : WalSubdirectory) : List (Record Chunk) :=
  recordsIn c after (splitBroken c d.walFiles).1

/-- The records in the segments behind it. -/
def recordsBehind (c : Codec Chunk) (after : UInt64) (d : WalSubdirectory) : List (Record Chunk) :=
  recordsIn c after (splitBroken c d.walFiles).2

/-- The name is the one the worker of the oid uses, and so are the names of the segments. -/
structure WalSubdirectory.LaidOut (d : WalSubdirectory) (oid : Nat) : Prop where
  parses : d.databaseOid = some oid
  name : d.name = databaseDirName oid
  segments : ∀ f ∈ d.files, walStart.isPrefixOf f.1 = true →
    (segmentStart oid).isPrefixOf f.1 = true

def WalPath.LaidOut (path : WalPath) : Prop := ∀ d ∈ path.dirs, ∃ oid, d.LaidOut oid

theorem walFiles_eq {d : WalSubdirectory} {oid : Nat} (h : d.LaidOut oid) :
    d.walFiles = (discoverSegments oid d.files).map Prod.snd := by
  unfold WalSubdirectory.walFiles discoverSegments
  congr 1
  apply List.filter_congr
  intro f hf
  rw [Bool.eq_iff_iff]
  refine ⟨h.segments f hf, fun hstart => ?_⟩
  rw [List.isPrefixOf_iff_prefix] at hstart ⊢
  have hwal : walStart <+: segmentStart oid := by
    rw [segmentStart, List.append_assoc]
    exact List.prefix_append _ _
  exact hwal.trans hstart

/-- Each subdirectory has a worker of its own, and no worker reads anything else. -/
theorem onlineRecords_laidOut (c : Codec Chunk) (after : UInt64) {path : WalPath}
    (h : path.LaidOut) :
    onlineRecords c after path =
      path.dirs.flatMap fun d => committedOnly (recordsIn c after d.walFiles) := by
  have hfind : ∀ d ∈ path.dirs, path.dirs.find? (fun e => e.name = d.name) = some d := by
    intro d hd
    have hdistinct := path.distinct
    revert hd hdistinct
    generalize path.dirs = dirs
    intro hd hdistinct
    induction dirs with
    | nil => cases hd
    | cons e dirs ih =>
      rw [List.map_cons, List.nodup_cons] at hdistinct
      rcases List.mem_cons.mp hd with rfl | hd
      · rw [List.find?_cons_of_pos (by simp)]
      · have hne : e.name ≠ d.name := fun heq => hdistinct.1 (heq ▸ List.mem_map_of_mem hd)
        rw [List.find?_cons_of_neg (by simpa using hne)]
        exact ih hd hdistinct.2
  have hoids : path.oids = path.dirs.filterMap WalSubdirectory.databaseOid := by
    unfold WalPath.oids
    rw [List.dedup_eq_self, List.Nodup, List.pairwise_filterMap]
    refine (List.pairwise_map.mp path.distinct).imp_of_mem fun {d e} hd he hne => ?_
    intro oid hoid other hother heq
    obtain ⟨o, ho⟩ := h d hd
    obtain ⟨p, hp⟩ := h e he
    obtain rfl := Option.some.inj (hoid.symm.trans ho.parses)
    obtain rfl := Option.some.inj (hother.symm.trans hp.parses)
    exact hne (by rw [ho.name, hp.name, heq])
  have hfiles : ∀ d ∈ path.dirs, ∀ oid, d.LaidOut oid →
      (discoverSegments oid (path.filesOf oid)).map Prod.snd = d.walFiles := by
    intro d hd oid hoid
    rw [walFiles_eq hoid, WalPath.filesOf, ← hoid.name, hfind d hd]
    rfl
  -- by induction on a tail of the subdirectories, whose files are found by name in the whole path
  have htail : ∀ dirs : List WalSubdirectory, (∀ d ∈ dirs, d ∈ path.dirs) →
      ((dirs.filterMap WalSubdirectory.databaseOid).flatMap fun oid => committedOnly
        (recordsIn c after ((discoverSegments oid (path.filesOf oid)).map Prod.snd))) =
      dirs.flatMap fun d => committedOnly (recordsIn c after d.walFiles) := by
    intro dirs hsub
    induction dirs with
    | nil => rfl
    | cons d dirs ih =>
      obtain ⟨hd, hrest⟩ := List.forall_mem_cons.mp hsub
      obtain ⟨oid, hoid⟩ := h d hd
      rw [List.filterMap_cons, hoid.parses]
      dsimp only
      rw [List.flatMap_cons, List.flatMap_cons, hfiles d hd oid hoid, ih hrest]
  unfold onlineRecords
  rw [hoids]
  exact htail path.dirs fun _ hd => hd

/-- The workers return at least as many records, and more as soon as one database adds some. -/
theorem length_flatMap_committedOnly (c : Codec Chunk) (after : UInt64)
    (dirs : List WalSubdirectory) :
    (dirs.flatMap fun d => committedOnly (recordsBefore c after d)).length ≤
        (dirs.flatMap fun d =>
          committedOnly (recordsBefore c after d ++ recordsBehind c after d)).length ∧
      (∀ d ∈ dirs, Adds (recordsBefore c after d) (recordsBehind c after d) →
        (dirs.flatMap fun d => committedOnly (recordsBefore c after d)).length <
          (dirs.flatMap fun d =>
            committedOnly (recordsBefore c after d ++ recordsBehind c after d)).length) := by
  induction dirs with
  | nil => exact ⟨le_refl _, fun d hd => absurd hd List.not_mem_nil⟩
  | cons d dirs ih =>
    obtain ⟨hle, hlt⟩ := ih
    have hhere := length_committedOnly_le (recordsBefore c after d) (recordsBehind c after d)
    simp only [List.flatMap_cons, List.length_append]
    refine ⟨Nat.add_le_add hhere hle, fun other hother hadds => ?_⟩
    rcases List.mem_cons.mp hother with rfl | hother
    · exact Nat.add_lt_add_of_lt_of_le (length_committedOnly_lt hadds) hle
    · exact Nat.add_lt_add_of_le_of_lt hhere (hlt other hother hadds)

/-- In such a path the readers collect the same records iff no database has a committed record
behind its first segment with a bad page. -/
theorem perm_iff_not_adds {c : Codec Chunk} {after : UInt64} {path : WalPath}
    (hlaid : path.LaidOut) (hsound : ∀ file ∈ path.filesRead c, SegmentSound c file) :
    (offlineRecords c after path).Perm (onlineRecords c after path) ↔
      ∀ d ∈ path.dirs, ¬Adds (recordsBefore c after d) (recordsBehind c after d) := by
  have hwhole : onlineRecords c after path = path.dirs.flatMap fun d =>
      committedOnly (recordsBefore c after d ++ recordsBehind c after d) := by
    rw [onlineRecords_laidOut c after hlaid]
    apply List.flatMap_congr
    intro d hd
    congr 1
    obtain ⟨oid, hoid⟩ := hlaid d hd
    have hall : ∀ file ∈ d.walFiles, SegmentSound c file := by
      intro file hfile
      refine hsound file (List.mem_append_left _ (List.mem_append_right _
        (List.mem_flatMap.mpr ⟨d, List.mem_filter.mpr ⟨hd, by rw [hoid.parses]; rfl⟩, ?_⟩)))
      obtain ⟨f, hf, rfl⟩ := List.mem_map.mp hfile
      exact List.mem_map_of_mem (List.mem_filter.mp hf).1
    have hread := readFiles_eq after hall
    rw [← splitBroken_append c d.walFiles] at hall hread
    have hbefore := readFiles_eq after fun file hfile =>
      hall file (List.mem_append_left _ hfile)
    have hbehind := readFiles_eq after fun file hfile =>
      hall file (List.mem_append_right _ hfile)
    rw [readFiles_append, hbefore, hbehind] at hread
    rw [splitBroken_append] at hread
    exact (Option.some.inj hread).symm
  rw [hwhole]
  constructor
  · intro hperm d hd hadds
    have hlt := (length_flatMap_committedOnly c after path.dirs).2 d hd hadds
    exact absurd hperm.length_eq hlt.ne
  · intro hnone
    have hsame : offlineRecords c after path = path.dirs.flatMap fun d =>
        committedOnly (recordsBefore c after d ++ recordsBehind c after d) := by
      apply List.flatMap_congr
      intro d hd
      exact (committedOnly_append_of_not_adds (hnone d hd)).symm
    rw [hsame]

/-! ## Agreement -/

/-- When the readers agree: every file they read can be read, both collect the same records, and
    different records have different ids. -/
structure SameRecords (c : Codec Chunk) (after : UInt64) (path : WalPath) : Prop where
  sound : ∀ file ∈ path.filesRead c, SegmentSound c file
  same : (offlineRecords c after path).Perm (onlineRecords c after path)
  ids : ∀ a ∈ offlineRecords c after path, ∀ b ∈ offlineRecords c after path, a.id = b.id → a = b

/-- A first segment with a bad page, and a COMMIT marker in the second one. -/
def commitBehindTorn : WalPath where
  dirs := [{
    name := ['7']
    files := [(segmentFilename 7 0, tornOnes.file),
      (segmentFilename 7 1, onePage plainCodec commitRecord.bytes)]
    sorted := by decide }]
  distinct := by decide

theorem readSegment_commit :
    readSegment plainCodec 0 (onePage plainCodec commitRecord.bytes) =
      some [decodeRecord plainCodec commitRecord.bytes] := by
  have hrecords : recordsOf commitRecord.bytes = [commitRecord.bytes] := by
    rw [recordsOf, if_pos (by decide), recordsOf, if_neg (by decide)]
    rfl
  have hparse : parseRecords plainCodec 0 commitRecord.bytes =
      some ([decodeRecord plainCodec commitRecord.bytes], []) := by
    rw [parseRecords, if_neg (by decide), if_neg (by decide), if_neg (by decide),
      dif_neg (by decide), parseRecords, if_pos (by decide)]
    rfl
  rw [readSegment_onePage plainCodec (by decide), hrecords, hparse, if_pos (by decide)]
  rfl

end Wal
end Otterbrix
