/-
  Otterbrix.Table.SegmentFlush

  How a checkpoint writes a segment (`column_checkpoint_state_t::flush_segment`): the values
  of a fixed-size type as one value, as runs or through a dictionary where that is smaller,
  and as they are otherwise.  A segment that is encoded already is copied.

  Values are compared byte by byte, so equal values are equal bytes.  Whatever encoding is
  chosen, every row reads as before, but for lists: their segments hold offsets that lie closer
  together than the loops of the encodings step.
-/
import Mathlib.Data.List.Basic
import Otterbrix.Table.ColumnData

namespace Otterbrix
namespace Table
namespace ColumnSegment

variable {V : Type} [DecidableEq V]

/-! ## Encodings -/

/-- `is_constant_data`. -/
def isConstantData : List V → Bool
  | [] => true
  | x :: xs => xs.all (· == x)

/-- `build_rle_buffer`: the runs of equal values. -/
def runsOf : List V → List (V × Nat)
  | [] => []
  | x :: xs =>
      match runsOf xs with
      | [] => [(x, 1)]
      | (y, n) :: runs => if x = y then (y, n + 1) :: runs else (x, 1) :: (y, n) :: runs

/-- The values of a dictionary: each one where it comes first. -/
def dictionaryOf (data : List V) : List V := data.eraseDups

/-- `max_dict_entries`. -/
def maxDictEntries : Nat := 65535

/-- The size of a dictionary buffer. -/
def dictionarySize (typeSize unique count : Nat) : Nat :=
  2 + unique * typeSize + count * if unique ≤ 256 then 1 else 2

/-- The encoding of at least two values of `size` bytes. -/
def encode (size : Nat) (data : List V) : ColumnSegment V :=
  let values := dictionaryOf data
  match data with
  | x :: _ =>
      if isConstantData data then constant x data.length
      else if 4 + (runsOf data).length * (size + 4) < size * data.length then rle (runsOf data)
      else if values.length ≤ maxDictEntries ∧ 1 < values.length ∧
          dictionarySize size values.length data.length < size * data.length then
        dictionary values (data.map values.idxOf)
      else uncompressed data
  | [] => uncompressed []

/-- `flush_segment` where the values lie as far apart as the type says; the size is `none` for a
    type whose values vary in size. -/
def flush (typeSize : Option Nat) : ColumnSegment V → ColumnSegment V
  | uncompressed data =>
      match typeSize with
      | none => uncompressed data
      | some size => if 1 < data.length ∧ 0 < size then encode size data else uncompressed data
  | s => s

/-- What a segment holds: numbers of so many bytes, the offsets of lists, strings, validity bits. -/
inductive SegmentType where
  | fixed (bytes : Nat)
  | list
  | string
  | bit

namespace SegmentType

/-- `complex_logical_type::size`. -/
def typeSize : SegmentType → Nat
  | fixed bytes => bytes
  | list => 16
  | string => 16
  | bit => 1

/-- How far apart the values lie; `none` if they vary in size. -/
def storedSize : SegmentType → Option Nat
  | fixed bytes => some bytes
  | list => some 8
  | string | bit => none

end SegmentType

/-- `flush_segment`.  If values are compared and copied at the wrong size, what is written is
    nothing that can be said in terms of the values. -/
def flushSegment (type : SegmentType) (s : ColumnSegment V) : Option (ColumnSegment V) :=
  match type.storedSize with
  | none => some (s.flush none)
  | some size => if size = type.typeSize then some (s.flush (some size)) else none

/-! ## Reading back -/

theorem sum_runsOf (data : List V) : ((runsOf data).map Prod.snd).sum = data.length := by
  induction data with
  | nil => rfl
  | cons x xs ih =>
    rw [runsOf, List.length_cons, ← ih]
    split
    · next h => simp [h]
    · next y n runs h =>
      rw [h]
      split
      · simp only [List.map_cons, List.sum_cons]
        omega
      · simp only [List.map_cons, List.sum_cons]
        omega

theorem rleFetchRow_runsOf (data : List V) (row : Nat) : rleFetchRow (runsOf data) row = data[row]? := by
  induction data generalizing row with
  | nil => rfl
  | cons x xs ih =>
    have hrest : ∀ row, rleFetchRow (runsOf xs) row = xs[row]? := ih
    rw [runsOf]
    cases hruns : runsOf xs with
    | nil =>
      have hempty : xs = [] := by
        have hsum := sum_runsOf xs
        rw [hruns] at hsum
        exact List.eq_nil_of_length_eq_zero hsum.symm
      rw [hempty]
      cases row with
      | zero => rfl
      | succ row => simp [rleFetchRow]
    | cons run runs =>
      obtain ⟨y, n⟩ := run
      rw [hruns] at hrest
      dsimp only
      by_cases hsame : x = y
      · subst hsame
        rw [if_pos rfl]
        cases row with
        | zero => rfl
        | succ row =>
          show (if row + 1 < n + 1 then some x else rleFetchRow runs (row + 1 - (n + 1))) = xs[row]?
          rw [← hrest row, Nat.add_sub_add_right]
          exact if_congr Nat.succ_lt_succ_iff rfl rfl
      · rw [if_neg hsame]
        cases row with
        | zero => rfl
        | succ row => exact hrest row

theorem encode_spec (size : Nat) (data : List V) :
    (encode size data).count = data.length ∧
      ∀ row < data.length, (encode size data).fetchRow row = data[row]? := by
  cases data with
  | nil => exact ⟨rfl, fun _ _ => rfl⟩
  | cons x xs =>
    unfold encode
    dsimp only
    split_ifs with hconstant hrle hdictionary
    · refine ⟨rfl, fun row hrow => ?_⟩
      have hall : ∀ z ∈ x :: xs, z = x := fun z hz =>
        (List.mem_cons.mp hz).elim id fun hrest =>
          beq_iff_eq.mp (List.all_eq_true.mp hconstant z hrest)
      show some x = (x :: xs)[row]?
      rw [List.getElem?_eq_getElem hrow, hall _ (List.getElem_mem hrow)]
    · exact ⟨sum_runsOf _, fun row _ => rleFetchRow_runsOf _ row⟩
    · refine ⟨List.length_map .., fun row hrow => ?_⟩
      have hmem : (x :: xs)[row] ∈ dictionaryOf (x :: xs) :=
        List.mem_eraseDups.mpr (List.getElem_mem hrow)
      show (((x :: xs).map _)[row]?).bind _ = (x :: xs)[row]?
      rw [List.getElem?_map, List.getElem?_eq_getElem hrow]
      exact List.getElem?_idxOf hmem
    · exact ⟨rfl, fun _ _ => rfl⟩

theorem flush_spec (typeSize : Option Nat) (s : ColumnSegment V) :
    (s.flush typeSize).count = s.count ∧
      ∀ row < s.count, (s.flush typeSize).fetchRow row = s.fetchRow row := by
  cases s with
  | uncompressed data =>
    cases typeSize with
    | none => exact ⟨rfl, fun _ _ => rfl⟩
    | some size =>
      unfold flush
      dsimp only
      split
      · exact encode_spec size data
      · exact ⟨rfl, fun _ _ => rfl⟩
  | constant value count => exact ⟨rfl, fun _ _ => rfl⟩
  | rle runs => exact ⟨rfl, fun _ _ => rfl⟩
  | dictionary values indices => exact ⟨rfl, fun _ _ => rfl⟩

/-- **What is flushed reads as before**, of any type but lists. -/
theorem flushSegment_reads_as_before {type : SegmentType} (h : type ≠ .list) (s : ColumnSegment V) :
    ∃ s', s.flushSegment type = some s' ∧ s'.count = s.count ∧
      ∀ row < s.count, s'.fetchRow row = s.fetchRow row := by
  cases type with
  | fixed bytes => exact ⟨s.flush (some bytes), if_pos rfl, flush_spec _ s⟩
  | list => exact absurd rfl h
  | string => exact ⟨s.flush none, rfl, flush_spec _ s⟩
  | bit => exact ⟨s.flush none, rfl, flush_spec _ s⟩

/-- Twelve numbers of four bytes, written as two runs. -/
theorem flushSegment_runs :
    (uncompressed (List.replicate 6 7 ++ List.replicate 6 8)).flushSegment (.fixed 4) =
        some (rle [(7, 6), (8, 6)]) ∧
      ∃ s', (uncompressed (List.replicate 6 7 ++ List.replicate 6 8)).flushSegment (.fixed 4) =
          some s' ∧ s'.count = 12 ∧ ∀ row < 12, s'.fetchRow row =
            (List.replicate 6 7 ++ List.replicate 6 8)[row]? :=
  ⟨rfl, flushSegment_reads_as_before (by simp) _⟩

end ColumnSegment
end Table
end Otterbrix
