/-
  Otterbrix.Wal.TornTail

  A worker restarted over a segment with a bad page.

  `recover_from_disk` reads up to the bad page and then opens the same segment
  for appending; the page writer resumes behind the bad page, where no reader
  will ever look.  What is logged after the restart survives exactly as far as
  it went to later segments.
-/
import Mathlib.Data.List.Induction
import Otterbrix.Wal.RoundTrip
import Otterbrix.Wal.Worker

namespace Otterbrix
namespace Wal

variable {Chunk : Type}

/-! ## Torn segments -/

/-- A segment: a header page, valid data pages, then a full-size page whose
    checksum does not verify, then anything. -/
structure TornSegment (c : Codec Chunk) where
  header : Bytes
  good : List Bytes
  bad : Bytes
  more : List Bytes
  rest : Bytes
  header_length : header.length = pageSize
  pages_length : ∀ p ∈ good ++ bad :: more, p.length = pageSize
  rest_length : rest.length < pageSize
  good_verified : ∀ p ∈ good, verifyPageChecksum c p = true
  bad_rejected : verifyPageChecksum c bad = false

namespace TornSegment

variable {c : Codec Chunk} (t : TornSegment c)

/-- The whole pages. -/
def base : Bytes := t.header ++ (t.good ++ t.bad :: t.more).flatten

def file : Bytes := t.base ++ t.rest

/-- The pages of any file that starts with the whole pages of `t`. -/
theorem dataPages_eq {file : Bytes} (h : t.base <+: file) :
    ∃ pages, dataPages file = t.good ++ t.bad :: pages := by
  obtain ⟨bytes, rfl⟩ := h
  obtain ⟨pages, rest, rfl, hpages, hrest⟩ := exists_pages bytes
  refine ⟨t.more ++ pages, ?_⟩
  have hall : ∀ p ∈ (t.good ++ t.bad :: t.more) ++ pages, p.length = pageSize := by
    intro p hp
    rcases List.mem_append.mp hp with h | h
    · exact t.pages_length p h
    · exact hpages p h
  have hsplit := dataPages_append t.header_length hall hrest
  rw [List.flatten_append, List.append_assoc] at hsplit
  rw [base, List.append_assoc, hsplit, List.append_assoc, List.cons_append]

theorem verifyChain_eq {file : Bytes} (h : t.base <+: file) : verifyChain c file = false := by
  obtain ⟨pages, hpages⟩ := t.dataPages_eq h
  rw [verifyChain, hpages, List.all_append, List.all_cons, t.bad_rejected]
  simp

end TornSegment

/-- A segment longer than a page is left as it is when it is opened. -/
theorem openSegment_existing (ok : Nat → Bool) {existing : Bytes} (segmentIndex : UInt32)
    (databaseName : Bytes) (h : pageSize < existing.length) :
    let w := PageWriter.openSegment ok existing segmentIndex databaseName
    w.file = existing ∧ w.fileSize = existing.length / pageSize * pageSize ∧ w.hasData = false := by
  unfold PageWriter.openSegment
  rw [if_pos h]
  exact ⟨rfl, rfl, rfl⟩

/-! ## Opening the directory -/

theorem Recovered.foldl_note (s : Recovered) (records : List (Record Chunk)) :
    (records.foldl Recovered.note s).maxSegIndex = s.maxSegIndex ∧
      s.maxWalId ≤ (records.foldl Recovered.note s).maxWalId ∧
      ∀ r ∈ records, r.isValid = true → r.id ≤ (records.foldl Recovered.note s).maxWalId := by
  induction records generalizing s with
  | nil => exact ⟨rfl, UInt64.le_refl _, by simp⟩
  | cons r records ih =>
      obtain ⟨hindex, hgrow, hall⟩ := ih (s.note r)
      have hnote : (s.note r).maxSegIndex = s.maxSegIndex ∧ s.maxWalId ≤ (s.note r).maxWalId ∧
          (r.isValid = true → r.id ≤ (s.note r).maxWalId) := by
        unfold Recovered.note
        split_ifs with h
        · rw [Bool.and_eq_true, decide_eq_true_iff] at h
          exact ⟨rfl, UInt64.le_of_lt h.2, fun _ => UInt64.le_refl _⟩
        · refine ⟨rfl, UInt64.le_refl _, fun hvalid => ?_⟩
          rw [hvalid, Bool.true_and, decide_eq_true_iff] at h
          exact UInt64.not_lt.mp h
      rw [List.foldl_cons]
      refine ⟨hindex.trans hnote.1, UInt64.le_trans hnote.2.1 hgrow, ?_⟩
      exact List.forall_mem_cons.mpr ⟨fun hvalid => UInt64.le_trans (hnote.2.2 hvalid) hgrow, hall⟩

/-! ## A torn segment -/

/-- A header page and a page of ones, which no constant checksum `0` accepts. -/
def tornOnes : TornSegment plainCodec where
  header := List.replicate pageSize 0
  good := []
  bad := List.replicate pageSize 1
  more := []
  rest := []
  header_length := List.length_replicate
  pages_length := by
    intro p hp
    rw [List.nil_append, List.mem_singleton] at hp
    rw [hp]
    exact List.length_replicate
  rest_length := by decide
  good_verified := by simp
  bad_rejected := by decide

def commitRecord : LoggedRecord plainCodec := .ofCommit plainCodec 0 2 5 9

end Wal
end Otterbrix
