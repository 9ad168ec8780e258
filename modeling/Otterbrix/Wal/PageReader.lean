/-
  Otterbrix.Wal.PageReader

  `wal_page_reader_t::read_all_records`.  Pages are read in order up to the
  first one whose checksum fails; a buffer collects the pieces of a spanning
  record.  A record-parsing loop whose `uint32_t` record length wraps to zero
  never advances: `none` is the result of a call that does not return.
-/
import Otterbrix.Wal.Page

namespace Otterbrix
namespace Wal

variable {Chunk : Type}

/-- `push_back` behind `is_valid() && id > after_id`. -/
def keepRecord (after : UInt64) (r : Record Chunk) : List (Record Chunk) :=
  if r.isValid && decide (after < r.id) then [r] else []

/-- Bytes of the record that starts here, in `uint32_t`. -/
def recordBytes (data : Bytes) : Nat := ((Bytes.readLe32 data).toNat + 8) % uint32Size

/-- The loop that parses complete records: the records kept, and the bytes from
    the offset where the loop stopped. -/
def parseRecords (c : Codec Chunk) (after : UInt64) (data : Bytes) :
    Option (List (Record Chunk) × Bytes) :=
  if data.length < 4 then some ([], data)
  else if (Bytes.readLe32 data).toNat = 0 then some ([], data)
  else if data.length < recordBytes data then some ([], data)
  else if _ : recordBytes data = 0 then none
  else
    match parseRecords c after (data.drop (recordBytes data)) with
    | none => none
    | some (records, rest) =>
        some (keepRecord after (decodeRecord c (data.take (recordBytes data))) ++ records, rest)
termination_by data.length
decreasing_by
  rw [List.length_drop]
  omega

/-- What the reader carries from page to page. -/
structure SpanState where
  spanBuffer : Bytes := []
  inSpan : Bool := false
  deriving DecidableEq, Repr

/-- Bytes of the last page that belong to the buffered record. -/
def toTake (spanBuffer data : Bytes) : Nat :=
  let needed :=
    if spanBuffer.length ≥ 4 then
      if recordBytes spanBuffer > spanBuffer.length then
        recordBytes spanBuffer - spanBuffer.length
      else 0
    else data.length
  min needed data.length

/-- The branch for the last page of a spanning record. -/
def finishSpan (c : Codec Chunk) (after : UInt64) (st : SpanState) (data : Bytes) :
    Option (List (Record Chunk) × SpanState) :=
  let buffer := st.spanBuffer ++ data.take (toTake st.spanBuffer data)
  if buffer.length ≥ 4 then
    if buffer.length ≥ recordBytes buffer then
      match parseRecords c after (data.drop (toTake st.spanBuffer data)) with
      | none => none
      | some (records, _) =>
          some (keepRecord after (decodeRecord c (buffer.take (recordBytes buffer))) ++ records, {})
    else some ([], { st with spanBuffer := buffer })
  else some ([], { st with spanBuffer := buffer })

/-- The branch for a page that is not a continuation of the buffered record.
    The buffer is assigned only when bytes are left over. -/
def startPage (c : Codec Chunk) (after : UInt64) (isCont : Bool) (data : Bytes) :
    Option (List (Record Chunk) × SpanState) :=
  match parseRecords c after data with
  | none => none
  | some (records, rest) =>
      some (records, if isCont then { spanBuffer := rest, inSpan := true } else {})

/-- One turn of the page loop, after the checksum. -/
def readPage (c : Codec Chunk) (after : UInt64) (st : SpanState) (isCont isEnd : Bool)
    (data : Bytes) : Option (List (Record Chunk) × SpanState) :=
  if st.inSpan && isCont && !isEnd then
    some ([], { st with spanBuffer := st.spanBuffer ++ data })
  else if st.inSpan && (isCont || isEnd) then finishSpan c after st data
  else startPage c after isCont data

/-- The page loop. -/
def readPages (c : Codec Chunk) (after : UInt64) (st : SpanState) :
    List Bytes → Option (List (Record Chunk))
  | [] => some []
  | page :: pages =>
      if verifyPageChecksum c page then
        let hdr := PageHeader.ofBytes page
        match readPage c after st hdr.isCont hdr.isEnd (pageData page) with
        | none => none
        | some (records, st') => (readPages c after st' pages).map (records ++ ·)
      else some []

/-- `read_all_records`. -/
def readAllRecords (c : Codec Chunk) (after : UInt64) (file : Bytes) :
    Option (List (Record Chunk)) :=
  readPages c after {} (dataPages file)

/-- `verify_chain`. -/
def verifyChain (c : Codec Chunk) (file : Bytes) : Bool :=
  (dataPages file).all (verifyPageChecksum c)

/-! ## Conservation of bytes

However the pages look, no byte is decoded twice: the records the reader
returns claim at most as many bytes as it has read. -/

/-- Bytes claimed by a list of records. -/
def claimed (records : List (Record Chunk)) : Nat := (records.map Record.size).sum

@[simp] theorem claimed_nil : claimed ([] : List (Record Chunk)) = 0 := rfl

@[simp] theorem claimed_append (xs ys : List (Record Chunk)) :
    claimed (xs ++ ys) = claimed xs + claimed ys := by
  simp [claimed]

theorem claimed_keepRecord_le (after : UInt64) (c : Codec Chunk) (data : Bytes) :
    claimed (keepRecord after (decodeRecord c data)) ≤ data.length := by
  have hsize := decodeRecord_size_le c data
  unfold keepRecord
  split_ifs
  · simpa [claimed] using hsize
  · exact Nat.zero_le _

variable {c : Codec Chunk} {after : UInt64} {st st' : SpanState} {isCont isEnd : Bool}
  {data : Bytes} {records : List (Record Chunk)}

theorem claimed_parseRecords {rest : Bytes} (h : parseRecords c after data = some (records, rest)) :
    claimed records + rest.length ≤ data.length := by
  induction hlen : data.length using Nat.strongRecOn generalizing data records rest with
  | ind n ih =>
      subst hlen
      rw [parseRecords] at h
      split_ifs at h with hshort hsize hfits hzero
      · obtain ⟨rfl, rfl⟩ := Prod.mk.inj (Option.some.inj h)
        simp
      · obtain ⟨rfl, rfl⟩ := Prod.mk.inj (Option.some.inj h)
        simp
      · obtain ⟨rfl, rfl⟩ := Prod.mk.inj (Option.some.inj h)
        simp
      · cases hrest : parseRecords c after (data.drop (recordBytes data)) with
        | none => simp [hrest] at h
        | some p =>
            obtain ⟨more, rest'⟩ := p
            rw [hrest] at h
            obtain ⟨rfl, rfl⟩ := Prod.mk.inj (Option.some.inj h)
            have hdrop : (data.drop (recordBytes data)).length < data.length := by
              rw [List.length_drop]
              omega
            have hmore := ih _ hdrop hrest rfl
            have hfirst := claimed_keepRecord_le after c (data.take (recordBytes data))
            rw [List.length_take] at hfirst
            rw [List.length_drop] at hmore
            rw [claimed_append]
            omega

/-- The last page of a span: the buffered record, what follows it, and nothing
    that is left over. -/
theorem claimed_finishSpan (h : finishSpan c after st data = some (records, st')) :
    claimed records + st'.spanBuffer.length ≤ st.spanBuffer.length + data.length := by
  have htake : toTake st.spanBuffer data ≤ data.length := Nat.min_le_right _ _
  have hbuffer : (st.spanBuffer ++ data.take (toTake st.spanBuffer data)).length =
      st.spanBuffer.length + toTake st.spanBuffer data := by
    rw [List.length_append, List.length_take, Nat.min_eq_left htake]
  unfold finishSpan at h
  dsimp only at h
  split_ifs at h with hfour hfull
  · cases hparse : parseRecords c after (data.drop (toTake st.spanBuffer data)) with
    | none => simp [hparse] at h
    | some p =>
        obtain ⟨more, rest⟩ := p
        rw [hparse] at h
        obtain ⟨rfl, rfl⟩ := Prod.mk.inj (Option.some.inj h)
        have hmore := claimed_parseRecords hparse
        have hfirst := claimed_keepRecord_le after c
          ((st.spanBuffer ++ data.take (toTake st.spanBuffer data)).take
            (recordBytes (st.spanBuffer ++ data.take (toTake st.spanBuffer data))))
        rw [List.length_take, hbuffer] at hfirst
        rw [List.length_drop] at hmore
        rw [claimed_append, List.length_nil]
        omega
  · obtain ⟨rfl, rfl⟩ := Prod.mk.inj (Option.some.inj h)
    rw [claimed_nil, hbuffer]
    omega
  · obtain ⟨rfl, rfl⟩ := Prod.mk.inj (Option.some.inj h)
    rw [claimed_nil, hbuffer]
    omega

/-- One page: what is returned and what stays buffered was buffered or read. -/
theorem claimed_readPage (h : readPage c after st isCont isEnd data = some (records, st')) :
    claimed records + st'.spanBuffer.length ≤ st.spanBuffer.length + data.length := by
  unfold readPage at h
  split_ifs at h with hmiddle hlast
  · obtain ⟨rfl, rfl⟩ := Prod.mk.inj (Option.some.inj h)
    simp
  · exact claimed_finishSpan h
  · unfold startPage at h
    cases hparse : parseRecords c after data with
    | none => simp [hparse] at h
    | some p =>
        obtain ⟨more, rest⟩ := p
        rw [hparse] at h
        obtain ⟨rfl, rfl⟩ := Prod.mk.inj (Option.some.inj h)
        have hmore := claimed_parseRecords hparse
        cases isCont <;> simp <;> omega

/-! ## Pages by what the reader looks at -/

/-- The part of a page the reader's decisions depend on. -/
structure PageView where
  isCont : Bool
  isEnd : Bool
  data : Bytes
  deriving DecidableEq, Repr

/-- The view of a page image. -/
def viewOf (page : Bytes) : PageView where
  isCont := (PageHeader.ofBytes page).isCont
  isEnd := (PageHeader.ofBytes page).isEnd
  data := pageData page

/-- The page loop over views. -/
def readViews (c : Codec Chunk) (after : UInt64) (st : SpanState) :
    List PageView → Option (List (Record Chunk))
  | [] => some []
  | v :: vs =>
      match readPage c after st v.isCont v.isEnd v.data with
      | none => none
      | some (records, st') => (readViews c after st' vs).map (records ++ ·)

/-- The loop up to the first page that fails its check. -/
theorem readPages_append {good rest : List Bytes}
    (hgood : ∀ p ∈ good, verifyPageChecksum c p = true)
    (hrest : ∀ p ∈ rest.head?, verifyPageChecksum c p = false) :
    readPages c after st (good ++ rest) = readViews c after st (good.map viewOf) := by
  induction good generalizing st with
  | nil =>
      cases rest with
      | nil => rfl
      | cons p rest => simp [readPages, readViews, hrest p rfl]
  | cons p good ih =>
      have hp := hgood p List.mem_cons_self
      simp only [List.cons_append, readPages, hp, if_true, List.map_cons, readViews, viewOf]
      cases readPage c after st (PageHeader.ofBytes p).isCont (PageHeader.ofBytes p).isEnd
          (pageData p) with
      | none => rfl
      | some q =>
          dsimp only
          rw [ih fun q hq => hgood q (List.mem_cons_of_mem _ hq)]

/-- Data bytes of a list of pages. -/
def viewBytes (vs : List PageView) : Nat := (vs.map fun v => v.data.length).sum

@[simp] theorem viewBytes_nil : viewBytes [] = 0 := rfl

@[simp] theorem viewBytes_cons (v : PageView) (vs : List PageView) :
    viewBytes (v :: vs) = v.data.length + viewBytes vs := by
  simp [viewBytes]

/-- **Conservation.** The records returned claim at most the bytes that were
    buffered or read. -/
theorem claimed_readViews {vs : List PageView} (h : readViews c after st vs = some records) :
    claimed records ≤ st.spanBuffer.length + viewBytes vs := by
  induction vs generalizing st records with
  | nil =>
      obtain rfl := Option.some.inj h
      simp
  | cons v vs ih =>
      unfold readViews at h
      cases hpage : readPage c after st v.isCont v.isEnd v.data with
      | none => simp [hpage] at h
      | some p =>
          obtain ⟨now, st'⟩ := p
          rw [hpage] at h
          obtain ⟨later, hlater, rfl⟩ := Option.map_eq_some_iff.mp h
          have hnow := claimed_readPage hpage
          have hrest := ih hlater
          rw [claimed_append, viewBytes_cons]
          omega

end Wal
end Otterbrix
