/-
  Otterbrix.Table.ValidityScan

  `validity_scan_partial` of column_segment.cpp: the validity bits of a range of rows of a segment
  are laid on those of a range of a result vector.  The two ranges need not start at the same bit
  of a word, so each round moves one word of the segment onto one word of the result and goes on
  to the next word of whichever side is used up.

  The rows the loop touches form an interval, and the interval is not the range of the call: the
  first round also takes the bits below both starts, and a last round that ends inside a word of
  the segment takes bits behind the end.  `validityScanLoop_row` says which.
-/
import Mathlib.Tactic.Common
import Otterbrix.Lib.BitWords

namespace Otterbrix
namespace Table

open BitWords

/-! ## Masks -/

/-- `validity_mask_t`: its number of rows and, once a row is invalid, its words. -/
structure ValidityMask where
  count : Nat
  data : Option (List (BitVec 64))
deriving DecidableEq

namespace ValidityMask

/-- `validity_data_t::MAX_ENTRY`. -/
def maxEntry : BitVec 64 := BitVec.allOnes 64

/-- The words of the mask; those a mask without data is given are all `MAX_ENTRY`. -/
def words (m : ValidityMask) : List (BitVec 64) :=
  m.data.getD (List.replicate m.count maxEntry)

/-- `row_is_valid`. -/
def rowIsValid (m : ValidityMask) (index : Nat) : Bool :=
  match m.data with
  | none => true
  | some words => bit words index

/-- `result_data[entry] &= input_mask`, which first gives the mask data if it has none.
    `none` is an access outside of the words. -/
def andEntry (m : ValidityMask) (entry : Nat) (inputMask : BitVec 64) : Option ValidityMask :=
  if inputMask = maxEntry then some m
  else if entry < m.words.length then
    some { m with data := some (m.words.modify entry (· &&& inputMask)) }
  else none

theorem rowIsValid_eq_bit (m : ValidityMask) (n : Nat) : m.rowIsValid n = bit m.words n := by
  obtain ⟨count, _ | words⟩ := m
  · exact (bit_replicate count n).symm
  · rfl

/-- A word of the mask is anded: what becomes of its rows. -/
theorem andEntry_spec {m : ValidityMask} {entry : Nat} (hentry : entry < m.words.length)
    (inputMask : BitVec 64) : ∃ m', m.andEntry entry inputMask = some m' ∧
      m'.words.length = m.words.length ∧
      ∀ n, m'.rowIsValid n =
        (m.rowIsValid n && (decide (n / 64 ≠ entry) || inputMask.getLsbD (n % 64))) := by
  by_cases hmax : inputMask = maxEntry
  · refine ⟨m, if_pos hmax, rfl, fun n => ?_⟩
    rw [hmax, maxEntry, BitVec.getLsbD_allOnes, decide_eq_true (Nat.mod_lt n (by omega)),
      Bool.or_true, Bool.and_true]
  · refine ⟨_, (if_neg hmax).trans (if_pos hentry), List.length_modify .., fun n => ?_⟩
    rw [rowIsValid_eq_bit m]
    exact bit_modify hentry inputMask n

end ValidityMask

/-! ## The loop -/

/-- The variables of the loop. -/
structure ScanCursor where
  resultEntry : Nat
  resultIdx : Nat
  inputEntry : Nat
  inputIdx : Nat
  pos : Nat

/-- One word of the segment as it lies on the word of the result, and where the loop goes on. -/
def ScanCursor.alignEntry (c : ScanCursor) (word : BitVec 64) : BitVec 64 × ScanCursor :=
  if c.resultIdx < c.inputIdx then
    let shiftAmount := c.inputIdx - c.resultIdx
    let offset := 64 - c.inputIdx
    (word >>> shiftAmount ||| upperMask shiftAmount,
      { c with
        inputEntry := c.inputEntry + 1
        inputIdx := 0
        resultIdx := c.resultIdx + offset
        pos := c.pos + offset })
  else if c.inputIdx < c.resultIdx then
    let shiftAmount := c.resultIdx - c.inputIdx
    let offset := 64 - c.resultIdx
    ((word &&& ~~~upperMask shiftAmount) <<< shiftAmount ||| lowerMask shiftAmount,
      { c with
        resultEntry := c.resultEntry + 1
        resultIdx := 0
        inputIdx := c.inputIdx + offset
        pos := c.pos + offset })
  else
    let offset := 64 - c.resultIdx
    (word, ⟨c.resultEntry + 1, 0, c.inputEntry + 1, 0, c.pos + offset⟩)

/-- The mask of a round: what lies behind the end of the scan is to be left alone. -/
def endMask (scanCount pos : Nat) (inputMask : BitVec 64) : BitVec 64 :=
  if scanCount < pos then inputMask ||| upperMask (pos - scanCount) else inputMask

/-- The loop of `validity_scan_partial`; `none` is an access outside of the words of either side,
    or more rounds than were allowed for. -/
def validityScanLoop (input : List (BitVec 64)) (scanCount : Nat) :
    Nat → ScanCursor → ValidityMask → Option ValidityMask
  | 0, c, m => if c.pos < scanCount then none else some m
  | rounds + 1, c, m =>
    if c.pos < scanCount then do
      let word ← input[c.inputEntry]?
      let m' ← m.andEntry c.resultEntry
        (endMask scanCount (c.alignEntry word).2.pos (c.alignEntry word).1)
      validityScanLoop input scanCount rounds (c.alignEntry word).2 m'
    else some m

/-- `validity_scan_partial`.  Every round takes a bit at least. -/
def validityScanPartial (input : List (BitVec 64)) (start scanCount : Nat) (result : ValidityMask)
    (resultOffset : Nat) : Option ValidityMask :=
  validityScanLoop input scanCount scanCount
    ⟨resultOffset / 64, resultOffset % 64, start / 64, start % 64, 0⟩ result

/-! ## One round -/

/-- The cursor at result row `p` and segment row `q`. -/
def cursorAt (p q pos : Nat) : ScanCursor := ⟨p / 64, p % 64, q / 64, q % 64, pos⟩

/-- How many rows there are from `p` and `q` on to the nearer end of a word. -/
def roundLength (p q : Nat) : Nat := 64 - max (p % 64) (q % 64)

theorem roundLength_pos (p q : Nat) : 0 < roundLength p q := by
  unfold roundLength
  omega

theorem alignEntry_cursor (p q pos : Nat) (word : BitVec 64) :
    ((cursorAt p q pos).alignEntry word).2 =
      cursorAt (p + roundLength p q) (q + roundLength p q) (pos + roundLength p q) := by
  unfold ScanCursor.alignEntry cursorAt roundLength
  dsimp only
  split
  · next h =>
    rw [ScanCursor.mk.injEq]
    omega
  · split
    · next h =>
      rw [ScanCursor.mk.injEq]
      omega
    · next h h' =>
      rw [ScanCursor.mk.injEq]
      omega

/-- The word of a round, bit by bit: the bits that no bit of the segment's word comes to lie on
    are set. -/
theorem alignEntry_mask (p q pos : Nat) (word : BitVec 64) {b : Nat} (hb : b < 64) :
    ((cursorAt p q pos).alignEntry word).1.getLsbD b = true ↔
      b + q % 64 < p % 64 ∨ 64 + p % 64 ≤ b + q % 64 ∨
        word.getLsbD (b + q % 64 - p % 64) = true := by
  unfold ScanCursor.alignEntry cursorAt
  dsimp only
  split
  · next h =>
    rw [BitVec.getLsbD_or, BitVec.getLsbD_ushiftRight, getLsbD_upperMask hb, Bool.or_eq_true,
      decide_eq_true_iff, show q % 64 - p % 64 + b = b + q % 64 - p % 64 by omega]
    constructor
    · rintro (hword | hout)
      · exact .inr (.inr hword)
      · exact .inr (.inl (by omega))
    · rintro (hlow | hout | hword)
      · omega
      · exact .inr (by omega)
      · exact .inl hword
  · split
    · next h =>
      rw [BitVec.getLsbD_or, BitVec.getLsbD_shiftLeft, getLsbD_lowerMask hb, Bool.or_eq_true,
        decide_eq_true_iff, decide_eq_true hb, Bool.true_and, Bool.and_eq_true]
      by_cases hlow : b < p % 64 - q % 64
      · exact iff_of_true (.inr hlow) (.inl (by omega))
      · have hmoved : b - (p % 64 - q % 64) < 64 := by omega
        rw [BitVec.getLsbD_and, BitVec.getLsbD_not, getLsbD_upperMask hmoved,
          decide_eq_true hmoved, show b - (p % 64 - q % 64) = b + q % 64 - p % 64 by omega]
        have hkept : ¬64 - (p % 64 - q % 64) ≤ b + q % 64 - p % 64 := by omega
        rw [decide_eq_false hkept, decide_eq_false hlow]
        simp only [Bool.not_false, Bool.and_true, true_and, hlow, or_false]
        constructor
        · exact fun hword => .inr (.inr hword)
        · rintro (hbelow | hout | hword)
          · omega
          · omega
          · exact hword
    · next h h' =>
      rw [show b + q % 64 - p % 64 = b by omega]
      constructor
      · exact fun hword => .inr (.inr hword)
      · rintro (hbelow | hout | hword)
        · omega
        · omega
        · exact hword

/-- The first row a round at `p` and `q` touches. -/
def roundStart (p q : Nat) : Nat := p - min (p % 64) (q % 64)

/-- Where the rows end that a round at `p` and `q` touches, if the scan ends at row `e` of the
    result. -/
def roundEnd (p q e : Nat) : Nat :=
  if p + roundLength p q ≤ e then p + roundLength p q
  else e + min (p + roundLength p q - e) (q % 64 - p % 64)

/-- **One round**: of the rows of the result an interval is anded with the rows of the segment
    that lie on them. -/
theorem round_row {input : List (BitVec 64)} {p q pos scanCount : Nat} {word : BitVec 64}
    (hword : input[q / 64]? = some word) (hpos : pos < scanCount) (n : Nat) :
    (decide (n / 64 ≠ p / 64) || (endMask scanCount ((cursorAt p q pos).alignEntry word).2.pos
        ((cursorAt p q pos).alignEntry word).1).getLsbD (n % 64)) = true ↔
      (roundStart p q ≤ n → n < roundEnd p q (p + (scanCount - pos)) →
        bit input (n + q - p) = true) := by
  have hb : n % 64 < 64 := Nat.mod_lt n (by omega)
  rw [alignEntry_cursor]
  unfold roundStart roundEnd
  by_cases hentry : n / 64 = p / 64
  · -- the row lies in the word of the round
    have hsource : p % 64 ≤ n % 64 + q % 64 → n % 64 + q % 64 < 64 + p % 64 →
        bit input (n + q - p) = word.getLsbD (n % 64 + q % 64 - p % 64) := by
      intro hlow hhigh
      have hsame : (n + q - p) / 64 = q / 64 := by omega
      rw [bit_of_getElem? (hsame ▸ hword),
        show (n + q - p) % 64 = n % 64 + q % 64 - p % 64 by omega]
    have hmask : (endMask scanCount (pos + roundLength p q)
          ((cursorAt p q pos).alignEntry word).1).getLsbD (n % 64) = true ↔
        (n % 64 + q % 64 < p % 64 ∨ 64 + p % 64 ≤ n % 64 + q % 64 ∨
          word.getLsbD (n % 64 + q % 64 - p % 64) = true) ∨
        64 ≤ n % 64 + (pos + roundLength p q - scanCount) := by
      rw [← alignEntry_mask p q pos word hb]
      unfold endMask
      split
      · rw [BitVec.getLsbD_or, getLsbD_upperMask hb, Bool.or_eq_true, decide_eq_true_iff]
        exact or_congr_right (by omega)
      · next hend => exact (or_iff_left (by omega)).symm
    rw [decide_eq_false (not_not.mpr hentry), Bool.false_or]
    show (endMask scanCount (pos + roundLength p q) _).getLsbD (n % 64) = true ↔ _
    rw [hmask]
    unfold roundLength at *
    by_cases hin : p % 64 ≤ n % 64 + q % 64 ∧ n % 64 + q % 64 < 64 + p % 64
    · rw [hsource hin.1 hin.2]
      by_cases hcut : 64 ≤ n % 64 + (pos + (64 - max (p % 64) (q % 64)) - scanCount)
      · refine iff_of_true (.inr hcut) fun _ hlt => ?_
        split at hlt <;> omega
      · constructor
        · rintro ((hlow | hout | hset) | hlate) _ _
          · omega
          · omega
          · exact hset
          · omega
        · intro h
          refine .inl (.inr (.inr (h (by omega) ?_)))
          split <;> omega
    · refine iff_of_true (.inl (by omega)) fun hge hlt => ?_
      split at hlt <;> omega
  · refine iff_of_true (by rw [decide_eq_true hentry, Bool.true_or]) fun hge hlt => ?_
    unfold roundLength at hlt
    split at hlt <;> omega

/-! ## The whole loop -/

/-- How many rows behind its end a scan touches that ends at row `e` of the result and row `s` of
    the segment. -/
def overrun (e s : Nat) : Nat :=
  if 0 < e % 64 ∧ e % 64 < s % 64 then min (64 - s % 64) (s % 64 - e % 64) else 0

/-- A round that is not the last ends where the next starts. -/
theorem roundEnd_of_le {p q e : Nat} (h : p + roundLength p q ≤ e) :
    roundEnd p q e = roundStart (p + roundLength p q) (q + roundLength p q) := by
  rw [roundEnd, if_pos h]
  unfold roundStart roundLength
  omega

/-- The last round ends behind the scan by its overrun. -/
theorem roundEnd_of_ge {p q k : Nat} (hk : 0 < k) (h : k ≤ roundLength p q) :
    roundEnd p q (p + k) = p + k + overrun (p + k) (q + k) := by
  unfold roundEnd overrun roundLength at *
  split
  · split <;> omega
  · split <;> omega

/-- **The loop** from result row `p` and segment row `q` on: the rows of the result from where
    its first round starts up to the overrun of its last are anded with those of the segment. -/
theorem validityScanLoop_row {input : List (BitVec 64)} {scanCount rounds : Nat} :
    ∀ {p q pos : Nat} {m : ValidityMask}, scanCount ≤ pos + rounds →
      (pos < scanCount → q + (scanCount - pos) ≤ 64 * input.length ∧
        p + (scanCount - pos) ≤ 64 * m.words.length) →
      ∃ m', validityScanLoop input scanCount rounds (cursorAt p q pos) m = some m' ∧
        ∀ n, m'.rowIsValid n = true ↔ m.rowIsValid n = true ∧ (pos < scanCount →
          roundStart p q ≤ n →
          n < p + (scanCount - pos) + overrun (p + (scanCount - pos)) (q + (scanCount - pos)) →
          bit input (n + q - p) = true) := by
  induction rounds with
  | zero =>
    intro p q pos m hrounds _
    refine ⟨m, if_neg (by show ¬pos < scanCount; omega), fun n => ?_⟩
    exact (and_iff_left fun hpos => by omega).symm
  | succ rounds ih =>
    intro p q pos m hrounds hcovers
    by_cases hpos : pos < scanCount
    · -- one round, and the rest of the loop by the induction hypothesis
      obtain ⟨hinput, hresult⟩ := hcovers hpos
      have hentry : p / 64 < m.words.length := by omega
      obtain ⟨word, hword⟩ : ∃ word, input[q / 64]? = some word :=
        ⟨_, List.getElem?_eq_getElem (by omega)⟩
      obtain ⟨m₁, hm₁, hlength, hrow₁⟩ := ValidityMask.andEntry_spec hentry
        (endMask scanCount ((cursorAt p q pos).alignEntry word).2.pos
          ((cursorAt p q pos).alignEntry word).1)
      have hlong := roundLength_pos p q
      obtain ⟨m₂, hm₂, hrow₂⟩ := @ih (p + roundLength p q) (q + roundLength p q)
        (pos + roundLength p q) m₁ (by omega) fun hmore => ⟨by omega, by rw [hlength]; omega⟩
      refine ⟨m₂, ?_, fun n => ?_⟩
      · refine (if_pos (show (cursorAt p q pos).pos < scanCount from hpos)).trans ?_
        show (input[q / 64]?).bind _ = _
        rw [hword, Option.bind_some]
        show (m.andEntry (p / 64) _).bind _ = _
        rw [hm₁, Option.bind_some, alignEntry_cursor]
        exact hm₂
      · rw [hrow₂, hrow₁, Bool.and_eq_true, and_assoc, and_congr_right_iff]
        intro _
        have hshift : n + (q + roundLength p q) - (p + roundLength p q) = n + q - p := by omega
        rw [round_row hword hpos, hshift]
        by_cases hlast : pos + roundLength p q < scanCount
        · have hend : p + roundLength p q + (scanCount - (pos + roundLength p q)) =
              p + (scanCount - pos) := by omega
          have hend' : q + roundLength p q + (scanCount - (pos + roundLength p q)) =
              q + (scanCount - pos) := by omega
          have hnext := @roundEnd_of_le p q (p + (scanCount - pos)) (by omega)
          rw [hend, hend', ← hnext]
          have hstart : roundStart p q ≤ roundEnd p q (p + (scanCount - pos)) := by
            rw [roundEnd, if_pos (by omega)]
            exact Nat.le_trans (Nat.sub_le ..) (Nat.le_add_right ..)
          have hwithin : roundEnd p q (p + (scanCount - pos)) ≤ p + (scanCount - pos) := by
            rw [roundEnd, if_pos (by omega)]
            omega
          constructor
          · rintro ⟨hfirst, hrest⟩ - hge hlt
            rcases Nat.lt_or_ge n (roundEnd p q (p + (scanCount - pos))) with hn | hn
            · exact hfirst hge hn
            · exact hrest hlast hn hlt
          · intro h
            exact ⟨fun hge hlt => h hpos hge (by omega), fun _ hge hlt => h hpos (by omega) hlt⟩
        · rw [roundEnd_of_ge (by omega) (by omega)]
          constructor
          · rintro ⟨hfirst, -⟩ -
            exact hfirst
          · exact fun h => ⟨h hpos, fun hmore => absurd hmore hlast⟩
    · refine ⟨m, if_neg (show ¬(cursorAt p q pos).pos < scanCount from hpos), fun n => ?_⟩
      exact (and_iff_left fun h => absurd h hpos).symm

/-! ## The scan -/

/-- A call of `validity_scan_partial`: the rows it is about lie within the words of both sides. -/
structure ValidityScan where
  input : List (BitVec 64)
  start : Nat
  scanCount : Nat
  result : ValidityMask
  resultOffset : Nat
  input_covers : start + scanCount ≤ 64 * input.length
  result_covers : resultOffset + scanCount ≤ 64 * result.words.length

namespace ValidityScan

/-- What the call makes of the mask of the result. -/
def run (scan : ValidityScan) : Option ValidityMask :=
  validityScanPartial scan.input scan.start scan.scanCount scan.result scan.resultOffset

/-- What a blit makes of it: the rows of the range are anded with those of the segment and every
    other row is left as it is. -/
def IsBlit (scan : ValidityScan) (after : ValidityMask) : Prop :=
  (∀ i < scan.scanCount, after.rowIsValid (scan.resultOffset + i) =
    (scan.result.rowIsValid (scan.resultOffset + i) && bit scan.input (scan.start + i))) ∧
  ∀ n, n < scan.resultOffset ∨ scan.resultOffset + scan.scanCount ≤ n →
    after.rowIsValid n = scan.result.rowIsValid n

/-- The rows outside of its range that the call touches: in front of it those that are in the
    words of both its first rows, and behind it those of the overrun. -/
def Outside (scan : ValidityScan) (n : Nat) : Prop :=
  (scan.resultOffset - min (scan.resultOffset % 64) (scan.start % 64) ≤ n ∧
    n < scan.resultOffset) ∨
  (scan.resultOffset + scan.scanCount ≤ n ∧ n < scan.resultOffset + scan.scanCount +
    overrun (scan.resultOffset + scan.scanCount) (scan.start + scan.scanCount))

/-- **A scan returns, and is a blit just if** it has no rows or every valid row of the result that
    it touches outside of its range lies on a valid row of the segment. -/
theorem isBlit_iff (scan : ValidityScan) : ∃ after, scan.run = some after ∧
    (scan.IsBlit after ↔ scan.scanCount = 0 ∨ ∀ n, scan.Outside n →
      scan.result.rowIsValid n = true →
      bit scan.input (n + scan.start - scan.resultOffset) = true) := by
  obtain ⟨after, hrun, hrow⟩ := @validityScanLoop_row scan.input scan.scanCount scan.scanCount
    scan.resultOffset scan.start 0 scan.result (by omega) fun _ =>
      ⟨scan.input_covers, scan.result_covers⟩
  rw [Nat.sub_zero] at hrow
  refine ⟨after, hrun, ?_⟩
  have hstart : roundStart scan.resultOffset scan.start ≤ scan.resultOffset := Nat.sub_le ..
  constructor
  · intro hblit
    refine or_iff_not_imp_left.mpr fun hsome n hout hvalid => ?_
    have hkept : after.rowIsValid n = true := by
      rw [hblit.2 n (by unfold Outside at hout; omega)]
      exact hvalid
    refine ((hrow n).mp hkept).2 (Nat.pos_of_ne_zero hsome) ?_ ?_
    · rcases hout with ⟨hge, -⟩ | ⟨hge, -⟩
      · exact hge
      · omega
    · rcases hout with ⟨-, hlt⟩ | ⟨-, hlt⟩
      · omega
      · exact hlt
  · intro h
    refine ⟨fun i hi => ?_, fun n hn => ?_⟩
    · rw [Bool.eq_iff_iff, hrow, Bool.and_eq_true,
        show scan.resultOffset + i + scan.start - scan.resultOffset = scan.start + i by omega]
      refine and_congr_right fun _ => ⟨fun hbit => hbit (by omega) (by omega) (by omega), ?_⟩
      exact fun hbit _ _ _ => hbit
    · rw [Bool.eq_iff_iff, hrow]
      refine and_iff_left_of_imp fun hvalid hpos hge hlt => ?_
      rcases h with hzero | h
      · omega
      · refine h n ?_ hvalid
        rcases hn with hn | hn
        · exact .inl ⟨hge, hn⟩
        · exact .inr ⟨hn, hlt⟩

/-- Row 1 of a segment laid on row 1 of a result takes row 0 with it, and row 2 laid on row 0
    takes row 3 with it, onto row 1. -/
theorem scan_clears_rows_outside :
    (validityScanPartial [~~~1#64] 1 1 ⟨1, none⟩ 1).map (·.rowIsValid 0) = some false ∧
      (validityScanPartial [~~~8#64] 2 1 ⟨1, none⟩ 0).map (·.rowIsValid 1) = some false := by
  decide

end ValidityScan
end Table
end Otterbrix
