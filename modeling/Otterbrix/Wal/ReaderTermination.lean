/-
  Otterbrix.Wal.ReaderTermination

  When `read_all_records` returns.

  The two record-parsing loops of the reader step over a record by the length it
  announces, `rec_size + 8` in `uint32_t`, whether or not the record decodes.  The
  step is positive unless the addition wraps to zero.

  The reader trusts two sizes of the file.  A page that announces more than its data
  area makes it read behind the page buffer, and `decode_record` copies the row ids of
  a DELETE or UPDATE into an array that has room for whole ids only; the bound of an
  UPDATE is checked in `uint32_t`.  A call that leaves its buffers has no result here.
-/
import Otterbrix.Wal.PageReader
import Otterbrix.Wal.RoundTrip

namespace Otterbrix
namespace Wal

variable {Chunk : Type}

/-! ## One loop -/

/-- The loop goes through another iteration at these bytes. -/
def Iterates (data : Bytes) : Prop :=
  4 ≤ data.length ∧ (Bytes.readLe32 data).toNat ≠ 0 ∧ recordBytes data ≤ data.length

/-- The bytes in front of which an iteration of the loop over `data` starts. -/
inductive Visits (data : Bytes) : Bytes → Prop where
  | start : Visits data data
  | next {rest : Bytes} (h : Visits data rest) (hmore : Iterates rest) :
      Visits data (rest.drop (recordBytes rest))

/-- Every iteration of the loop moves its offset forward. -/
def StrictlyAdvances (data : Bytes) : Prop :=
  ∀ rest, Visits data rest → Iterates rest → 0 < recordBytes rest

/-- The size field whose record length is zero in `uint32_t`. -/
def wrappingSize : Nat := uint32Size - 8

/-- The loop comes to a record that announces that size. -/
def MeetsWrappingSize (data : Bytes) : Prop :=
  ∃ rest, Visits data rest ∧ 4 ≤ rest.length ∧ (Bytes.readLe32 rest).toNat = wrappingSize

theorem recordBytes_eq_zero_iff (data : Bytes) :
    recordBytes data = 0 ↔ (Bytes.readLe32 data).toNat = wrappingSize := by
  have hlt : (Bytes.readLe32 data).toNat < uint32Size := (Bytes.readLe32 data).toNat_lt
  unfold recordBytes wrappingSize uint32Size at *
  omega

theorem strictlyAdvances_iff (data : Bytes) :
    StrictlyAdvances data ↔ ¬MeetsWrappingSize data := by
  constructor
  · rintro hadvances ⟨rest, hvisits, hlong, hsize⟩
    have hzero := (recordBytes_eq_zero_iff rest).mpr hsize
    have hpos : (Bytes.readLe32 rest).toNat ≠ 0 := by
      rw [hsize]
      decide
    have hstep := hadvances rest hvisits ⟨hlong, hpos, by omega⟩
    omega
  · intro hnone rest hvisits hmore
    by_contra hstuck
    have hzero : recordBytes rest = 0 := by omega
    exact hnone ⟨rest, hvisits, hmore.1, (recordBytes_eq_zero_iff rest).mp hzero⟩

/-- The loop goes on as the loop over what follows its first record. -/
theorem strictlyAdvances_next {data : Bytes} (hmore : Iterates data) :
    StrictlyAdvances data ↔
      0 < recordBytes data ∧ StrictlyAdvances (data.drop (recordBytes data)) := by
  have hvisits : ∀ rest, Visits data rest ↔
      rest = data ∨ Visits (data.drop (recordBytes data)) rest := by
    intro rest
    constructor
    · intro h
      induction h with
      | start => exact .inl rfl
      | next _ hiter ih =>
        rcases ih with rfl | hlater
        · exact .inr .start
        · exact .inr (.next hlater hiter)
    · rintro (rfl | h)
      · exact .start
      · induction h with
        | start => exact .next .start hmore
        | next _ hiter ih => exact .next ih hiter
  constructor
  · intro h
    exact ⟨h data .start hmore, fun rest hrest => h rest ((hvisits rest).mpr (.inr hrest))⟩
  · rintro ⟨hfirst, hlater⟩ rest hrest hiter
    rcases (hvisits rest).mp hrest with rfl | h
    · exact hfirst
    · exact hlater rest h hiter

theorem strictlyAdvances_of_not_iterates {data : Bytes} (hstop : ¬Iterates data) :
    StrictlyAdvances data := by
  intro rest hvisits hmore
  have hsame : rest = data := by
    clear hmore
    induction hvisits with
    | start => rfl
    | next _ hiter ih => exact absurd (ih ▸ hiter) hstop
  exact absurd (hsame ▸ hmore) hstop

/-- **One loop.**  It comes to its end iff every iteration moves forward. -/
theorem parseRecords_isSome_iff (c : Codec Chunk) (after : UInt64) (data : Bytes) :
    (∃ result, parseRecords c after data = some result) ↔ StrictlyAdvances data := by
  -- by the recursion of the loop: the bytes from its offset on
  induction hlen : data.length using Nat.strongRecOn generalizing data with
  | ind n ih =>
    subst hlen
    by_cases hmore : Iterates data
    · obtain ⟨hlong, hsize, hfits⟩ := hmore
      rw [strictlyAdvances_next ⟨hlong, hsize, hfits⟩, parseRecords, if_neg (by omega),
        if_neg hsize, if_neg (by omega)]
      by_cases hzero : recordBytes data = 0
      · rw [dif_pos hzero]
        constructor
        · rintro ⟨result, hresult⟩
          cases hresult
        · rintro ⟨hpos, -⟩
          omega
      · have hdrop : (data.drop (recordBytes data)).length < data.length := by
          rw [List.length_drop]
          omega
        rw [dif_neg hzero, ← ih _ hdrop _ rfl]
        cases parseRecords c after (data.drop (recordBytes data)) with
        | none => simp
        | some p => simpa using Nat.pos_of_ne_zero hzero
    · refine iff_of_true ?_ (strictlyAdvances_of_not_iterates hmore)
      rw [parseRecords]
      split_ifs with hshort hsize hfits hzero
      · exact ⟨_, rfl⟩
      · exact ⟨_, rfl⟩
      · exact ⟨_, rfl⟩
      · exact absurd ⟨by omega, hsize, by omega⟩ hmore
      · exact absurd ⟨by omega, hsize, by omega⟩ hmore

/-! ## Buffers -/

/-- The page announces no more than its data area. -/
def areaKept (page : Bytes) : Bool := (PageHeader.ofBytes page).dataSize.toNat ≤ pageDataSize

/-- The row ids of a payload are whole ones that lie in the payload. -/
def rowIdsFit : RecordType → Bytes → Bool
  | .physicalDelete, payload => payload.length % 8 = 0
  | .physicalUpdate, payload =>
      let rowIdsBytes := (Bytes.readLe32 payload).toNat
      -- a payload that is refused, or a sum that does not wrap
      payload.length < 4 ∨ payload.length < (4 + rowIdsBytes) % uint32Size ∨
        (4 + rowIdsBytes < uint32Size ∧ rowIdsBytes % 8 = 0)
  | _, _ => true

/-- `decode_record` stays inside its buffers: the record is refused before its payload is looked at,
    or its row ids fit. -/
def decodeFits (c : Codec Chunk) (data : Bytes) : Bool :=
  let bodySize := (Bytes.readLe32 data).toNat
  let body := data.drop 4
  let payloadSize := (Bytes.readLe32 (body.drop 41)).toNat
  data.length < 37 ∨ data.length < (4 + bodySize + 4) % uint32Size ∨
    Bytes.readLe32 (body.drop bodySize) ≠ c.crc32c (body.take bodySize) ∨
    bodySize < dmlFixedHeader ∨ dmlFixedHeader + payloadSize ≠ bodySize ∨
    rowIdsFit (.ofByte ((body.drop 20).headD 0)) ((body.drop dmlFixedHeader).take payloadSize)

/-- The records a loop hands to `decode_record`. -/
def recordsOf (data : Bytes) : List Bytes :=
  if 4 ≤ data.length ∧ (Bytes.readLe32 data).toNat ≠ 0 ∧ recordBytes data ≤ data.length ∧
      recordBytes data ≠ 0 then
    data.take (recordBytes data) :: recordsOf (data.drop (recordBytes data))
  else []
termination_by data.length
decreasing_by
  rw [List.length_drop]
  omega

/-! ## The call -/

/-- The pages up to the first one whose checksum fails. -/
def pagesRead (c : Codec Chunk) (file : Bytes) : List Bytes :=
  (dataPages file).takeWhile (verifyPageChecksum c)

/-- The loop of a page: the bytes from its first offset on. -/
def loopOf (st : SpanState) (v : PageView) : Option Bytes :=
  if st.inSpan && v.isCont && !v.isEnd then none
  else if st.inSpan && (v.isCont || v.isEnd) then
    let buffer := st.spanBuffer ++ v.data.take (toTake st.spanBuffer v.data)
    if buffer.length ≥ 4 ∧ buffer.length ≥ recordBytes buffer then
      some (v.data.drop (toTake st.spanBuffer v.data))
    else none
  else some v.data

/-- The records of a page that are decoded: the one that it completes, and those of its loop. -/
def decodedOf (st : SpanState) (v : PageView) : List Bytes :=
  let buffer := st.spanBuffer ++ v.data.take (toTake st.spanBuffer v.data)
  let completed :=
    if st.inSpan && (v.isCont || v.isEnd) then [buffer.take (recordBytes buffer)] else []
  ((loopOf st v).map fun data => completed ++ recordsOf data).getD []

/-- The page loop, page by page. -/
def readChecked (c : Codec Chunk) (after : UInt64) (st : SpanState) :
    List Bytes → Option (List (Record Chunk))
  | [] => some []
  | page :: pages =>
      let v := viewOf page
      if areaKept page && (decodedOf st v).all (decodeFits c) then
        match readPage c after st v.isCont v.isEnd v.data with
        | none => none
        | some (records, st') => (readChecked c after st' pages).map (records ++ ·)
      else none

/-- `read_all_records`, with a result if the call returns and stays inside its buffers. -/
def readSegment (c : Codec Chunk) (after : UInt64) (file : Bytes) :
    Option (List (Record Chunk)) :=
  readChecked c after {} (pagesRead c file)

/-- What a page leaves to the next one. -/
def carriedOver (c : Codec Chunk) (st : SpanState) (v : PageView) : Option SpanState :=
  (readPage c 0 st v.isCont v.isEnd v.data).map Prod.snd

/-- The turns of the page loop: what is carried to the page, and the page. -/
def turnsOf (c : Codec Chunk) (st : SpanState) : List Bytes → List (SpanState × PageView)
  | [] => []
  | page :: pages =>
      (st, viewOf page) ::
        match carriedOver c st (viewOf page) with
        | none => []
        | some st' => turnsOf c st' pages

/-- A segment that can be read: no page announces more than its data area, no loop comes to a record
    that announces 2³² - 8 bytes, and the row ids of every record decoded fit. -/
structure SegmentSound (c : Codec Chunk) (file : Bytes) : Prop where
  areas : ∀ page ∈ pagesRead c file, areaKept page = true
  sizes : ∀ turn ∈ turnsOf c {} (pagesRead c file), ∀ data, loopOf turn.1 turn.2 = some data →
    ¬MeetsWrappingSize data
  rowIds : ∀ turn ∈ turnsOf c {} (pagesRead c file), ∀ bytes ∈ decodedOf turn.1 turn.2,
    decodeFits c bytes = true

/-- The id to start from only selects among the records: a loop stops at the same place. -/
theorem parseRecords_rest (c : Codec Chunk) (after : UInt64) (data : Bytes) :
    (parseRecords c after data).map Prod.snd = (parseRecords c 0 data).map Prod.snd := by
  induction hlen : data.length using Nat.strongRecOn generalizing data with
  | ind n ih =>
    subst hlen
    rw [parseRecords.eq_def c after, parseRecords.eq_def c 0]
    split_ifs with hshort hsize hfits hzero
    · rfl
    · rfl
    · rfl
    · rfl
    · have hdrop : (data.drop (recordBytes data)).length < data.length := by
        rw [List.length_drop]
        omega
      have hrest := ih _ hdrop _ rfl
      cases hparse : parseRecords c after (data.drop (recordBytes data)) <;>
        cases hzeroth : parseRecords c 0 (data.drop (recordBytes data)) <;>
        rw [hparse, hzeroth] at hrest <;> simp_all

theorem readPage_carried (c : Codec Chunk) (after : UInt64) (st : SpanState) (v : PageView) :
    (readPage c after st v.isCont v.isEnd v.data).map Prod.snd = carriedOver c st v := by
  unfold carriedOver readPage
  split_ifs with hmiddle hlast
  · rfl
  · unfold finishSpan
    dsimp only
    split_ifs
    · have hrest := parseRecords_rest c after (v.data.drop (toTake st.spanBuffer v.data))
      cases hparse : parseRecords c after (v.data.drop (toTake st.spanBuffer v.data)) <;>
        cases hzeroth : parseRecords c 0 (v.data.drop (toTake st.spanBuffer v.data)) <;>
        rw [hparse, hzeroth] at hrest <;> simp_all
    · rfl
    · rfl
  · have hrest := parseRecords_rest c after v.data
    unfold startPage
    cases hparse : parseRecords c after v.data <;> cases hzeroth : parseRecords c 0 v.data <;>
      rw [hparse, hzeroth] at hrest <;> simp_all

/-- **One page.** -/
theorem readPage_isSome_iff (c : Codec Chunk) (after : UInt64) (st : SpanState) (v : PageView) :
    (∃ result, readPage c after st v.isCont v.isEnd v.data = some result) ↔
      ∀ data, loopOf st v = some data → StrictlyAdvances data := by
  unfold readPage loopOf
  by_cases hmiddle : (st.inSpan && v.isCont && !v.isEnd) = true
  · simp [hmiddle]
  rw [if_neg hmiddle, if_neg hmiddle]
  by_cases hlast : (st.inSpan && (v.isCont || v.isEnd)) = true
  · rw [if_pos hlast, if_pos hlast]
    unfold finishSpan
    dsimp only
    by_cases hfour : (st.spanBuffer ++ v.data.take (toTake st.spanBuffer v.data)).length ≥ 4
    · rw [if_pos hfour]
      by_cases hfull : (st.spanBuffer ++ v.data.take (toTake st.spanBuffer v.data)).length ≥
          recordBytes (st.spanBuffer ++ v.data.take (toTake st.spanBuffer v.data))
      · rw [if_pos hfull, if_pos ⟨hfour, hfull⟩]
        have hloop := parseRecords_isSome_iff c after
          (v.data.drop (toTake st.spanBuffer v.data))
        simp only [Option.some.injEq, forall_eq']
        rw [← hloop]
        cases parseRecords c after (v.data.drop (toTake st.spanBuffer v.data)) <;> simp
      · rw [if_neg hfull, if_neg fun h => hfull h.2]
        simp
    · rw [if_neg hfour, if_neg fun h => hfour h.1]
      simp
  · rw [if_neg hlast, if_neg hlast]
    have hloop := parseRecords_isSome_iff c after v.data
    unfold startPage
    simp only [Option.some.injEq, forall_eq']
    rw [← hloop]
    cases parseRecords c after v.data <;> simp

/-- **All pages.**  By induction on the pages. -/
theorem readChecked_isSome_iff (c : Codec Chunk) (after : UInt64) (st : SpanState)
    (pages : List Bytes) :
    (∃ records, readChecked c after st pages = some records) ↔
      (∀ page ∈ pages, areaKept page = true) ∧ ∀ turn ∈ turnsOf c st pages,
        (∀ data, loopOf turn.1 turn.2 = some data → StrictlyAdvances data) ∧
          ∀ bytes ∈ decodedOf turn.1 turn.2, decodeFits c bytes = true := by
  induction pages generalizing st with
  | nil => simp [readChecked, turnsOf]
  | cons page pages ih =>
    have hpage := readPage_isSome_iff c after st (viewOf page)
    have hcarried := readPage_carried c after st (viewOf page)
    unfold readChecked turnsOf
    simp only [List.forall_mem_cons]
    rw [← hpage, ← hcarried]
    by_cases hfits : (areaKept page && (decodedOf st (viewOf page)).all (decodeFits c)) = true
    · obtain ⟨harea, hdecoded⟩ := Bool.and_eq_true_iff.mp hfits
      have hrecords := List.all_eq_true.mp hdecoded
      rw [if_pos hfits]
      cases readPage c after st (viewOf page).isCont (viewOf page).isEnd (viewOf page).data with
      | none => simp
      | some p =>
        have hlater := ih p.2
        have hmap : (∃ records, (readChecked c after p.2 pages).map (p.1 ++ ·) = some records) ↔
            ∃ records, readChecked c after p.2 pages = some records := by
          cases readChecked c after p.2 pages <;> simp
        simp only [Option.some.injEq, exists_eq', true_and, harea, Option.map_some]
        rw [hmap, hlater]
        exact ⟨fun h => ⟨h.1, hrecords, h.2⟩, fun h => ⟨h.1, h.2.2⟩⟩
    · rw [if_neg hfits]
      refine iff_of_false (fun ⟨_, h⟩ => absurd h (by simp)) ?_
      rintro ⟨⟨harea, -⟩, ⟨-, hrecords⟩, -⟩
      exact hfits (Bool.and_eq_true_iff.mpr ⟨harea, List.all_eq_true.mpr hrecords⟩)

/-- The call returns inside its buffers for one id to start from iff it does for all. -/
theorem readSegment_isSome_iff (c : Codec Chunk) (after : UInt64) (file : Bytes) :
    (∃ records, readSegment c after file = some records) ↔ SegmentSound c file := by
  unfold readSegment
  rw [readChecked_isSome_iff]
  simp only [strictlyAdvances_iff]
  exact ⟨fun h => ⟨h.1, fun turn hturn => (h.2 turn hturn).1, fun turn hturn => (h.2 turn hturn).2⟩,
    fun h => ⟨h.areas, fun turn hturn => ⟨h.sizes turn hturn, h.rowIds turn hturn⟩⟩⟩

/-- A data page without flags. -/
def plainPage (c : Codec Chunk) (data : Bytes) : Bytes :=
  buildPage c ⟨1, 1, 1, UInt32.ofNat data.length, 0, 0, 0⟩ data

def onePage (c : Codec Chunk) (data : Bytes) : Bytes := fileHeaderPage 0 [] ++ plainPage c data

section OnePage

variable (c : Codec Chunk) {data : Bytes} (hfits : data.length ≤ pageDataSize)

include hfits

theorem dataPages_onePage : dataPages (onePage c data) = [plainPage c data] := by
  have hone : ∀ p ∈ [plainPage c data], p.length = pageSize := by
    intro p hp
    rw [List.mem_singleton.mp hp]
    exact length_buildPage c _ hfits
  have hempty : ([] : Bytes).length < pageSize := by decide
  have hpages := dataPages_append (length_fileHeaderPage 0 []) hone hempty
  rwa [List.flatten_singleton, List.append_nil] at hpages

theorem verifyChain_onePage : verifyChain c (onePage c data) = true := by
  unfold verifyChain
  rw [dataPages_onePage c hfits, List.all_cons, List.all_nil, Bool.and_true]
  exact verifyPageChecksum_buildPage c _ data

theorem viewOf_plainPage : viewOf (plainPage c data) = ⟨false, false, data⟩ := by
  have hsize : (UInt32.ofNat data.length).toNat = data.length := by
    have hsmall : pageDataSize < 2 ^ 32 := by decide
    exact UInt32.toNat_ofNat_of_lt' (by simp only [UInt32.size]; omega)
  have hnone : (0 : UInt16) &&& pagePartialCont = 0 ∧ (0 : UInt16) &&& pagePartialEnd = 0 := by
    decide
  unfold viewOf
  rw [plainPage, isCont_buildPage, isEnd_buildPage, pageData_buildPage c _ data hsize,
    PageHeader.isCont, PageHeader.isEnd, hnone.1, hnone.2]
  rfl

/-- Its records are read by one loop. -/
theorem readSegment_onePage (after : UInt64) :
    readSegment c after (onePage c data) =
      if (recordsOf data).all (decodeFits c) then (parseRecords c after data).map Prod.fst
      else none := by
  have harea : areaKept (plainPage c data) = true := by
    have hsmall : pageDataSize < 2 ^ 32 := by decide
    have hsize : (PageHeader.ofBytes (plainPage c data)).dataSize = UInt32.ofNat data.length := by
      unfold plainPage buildPage
      rw [PageHeader.ofBytes_toBytes_append]
    rw [areaKept, hsize, UInt32.toNat_ofNat_of_lt' (by simp only [UInt32.size]; omega)]
    exact decide_eq_true hfits
  have hview := viewOf_plainPage c hfits
  have hdecoded : decodedOf {} (viewOf (plainPage c data)) = recordsOf data := by
    rw [hview]
    rfl
  have hcheck : verifyPageChecksum c (plainPage c data) = true :=
    verifyPageChecksum_buildPage c _ data
  unfold readSegment pagesRead
  rw [dataPages_onePage c hfits, List.takeWhile_cons_of_pos hcheck, List.takeWhile_nil]
  unfold readChecked
  dsimp only
  rw [harea, hdecoded, Bool.true_and, hview]
  show (if _ then (match startPage c after false data with
    | none => none
    | some (records, _) => some (records ++ [])) else _) = _
  unfold startPage
  cases parseRecords c after data <;> simp

end OnePage

end Wal
end Otterbrix
