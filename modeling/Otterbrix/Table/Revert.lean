/-
  Otterbrix.Table.Revert

  `revert_append` on the list of rows: where the reverted range is the end of
  the table, and nothing that the revert leaves behind is in use, the rows
  before the range stay and the rest is gone (`revertRows`).

  `Collection.rowAt` reads one row with its stamps, the way the row groups file
  them.
-/
import Otterbrix.Table.Scan

namespace Otterbrix
namespace Table

variable {α : Type}

/-! ## One row group -/

namespace RowGroup

variable {rg : RowGroup α} {rows : List (Row α)} {j rowStart : Nat}

theorem getOrCreateVersionInfo_revertAppend (rg : RowGroup α) (start : Nat) :
    (rg.revertAppend start).getOrCreateVersionInfo =
      rg.getOrCreateVersionInfo.revertAppend start := by
  unfold getOrCreateVersionInfo RowGroup.revertAppend
  cases rg.versionInfo <;> rfl

/-- What lies behind row `rowStart` in the row group can be reverted: no update
    and no delete stamp is in the way, and no constant info is cut. -/
structure Cuttable (rg : RowGroup α) (rows : List (Row α)) (j rowStart : Nat) : Prop where
  overlaid : ∀ p ∈ rg.updates, vectorCapacity * j + p.1 < rowStart
  undeleted : ∀ i row, i < vectorCapacity → rowStart ≤ vectorCapacity * j + i →
    rows[vectorCapacity * j + i]? = some row → row.deleteId = notDeletedId
  uncut : vectorCapacity * j < rowStart → rowStart < vectorCapacity * j + vectorCapacity →
    ¬rg.Constant

/-- Row group `j` after the revert: the rows that stay, by position. -/
theorem getElem?_revertRows {rows : List (Row α)} {i : Nat} (hi : i < vectorCapacity)
    (j rowStart : Nat) :
    (revertRows rowStart rows)[vectorCapacity * j + i]? =
      if vectorCapacity * j + i < rowStart then
        rows[vectorCapacity * j + i]?.map fun row =>
          if 0 < j ∧ rowStart < vectorCapacity * j + vectorCapacity then row.undelete else row
      else none := by
  unfold revertRows
  rw [List.getElem?_mapIdx, List.getElem?_take]
  by_cases hlt : vectorCapacity * j + i < rowStart
  · rw [if_pos hlt, if_pos hlt]
    congr 1
    funext row
    refine if_congr ?_ rfl rfl
    unfold vectorCapacity at *
    omega
  · rw [if_neg hlt, if_neg hlt]
    rfl

/-- A row group the range does not reach. -/
theorem Holds.revert_outside (h : rg.Holds rows j) (hrange : rowStart < rows.length)
    (hout : rg.start + rg.count ≤ rowStart ∨ rows.length ≤ vectorCapacity * j) :
    rg.Holds (revertRows rowStart rows) j := by
  have hstart := h.start_eq
  have hcount := h.count_eq
  refine h.congr ?_ fun i hi => ?_
  · rw [length_revertRows]
    omega
  · rw [getElem?_revertRows hi]
    have hlt := h.lt_count_iff hi
    split
    · cases hrow : rows[vectorCapacity * j + i]? with
      | none => rfl
      | some row =>
        -- a full row group before the one that is cut
        have := (List.getElem?_eq_some_iff.mp hrow).1
        rw [Option.map_some, if_neg (by omega)]
    · exact (List.getElem?_eq_none (by omega)).symm

/-- A row group that the range reaches. -/
theorem Holds.revertAppend (h : rg.Holds rows j) (hin : rowStart < rg.start + rg.count)
    (hcut : rg.Cuttable rows j rowStart) :
    (rg.revertAppend (rowStart - rg.start)).Holds (revertRows rowStart rows) j := by
  have hstart := h.start_eq
  have hcount := h.count_eq
  have hle := h.count_le
  have hcount' : (rg.revertAppend (rowStart - rg.start)).count = rowStart - rg.start := by
    unfold RowGroup.revertAppend
    show (if _ then _ else _) = _
    split <;> omega
  refine ⟨hstart, ?_, ?_, ?_, ?_, ?_⟩
  · rw [hcount', length_revertRows, hstart]
    omega
  · rw [hcount']
    exact Nat.le_trans (by omega) h.stored
  · intro p hp
    have := hcut.overlaid p hp
    rw [hcount', hstart]
    omega
  · intro i row hi hrow
    rw [getElem?_revertRows hi] at hrow
    split at hrow
    · rw [Option.map_eq_some_iff] at hrow
      obtain ⟨old, hold, rfl⟩ := hrow
      have hread := h.reads i old hi hold
      split <;> exact hread
    · cases hrow
  · rw [getOrCreateVersionInfo_revertAppend]
    refine (h.files.revert (by omega) ?_ ?_).congr fun i hi => ?_
    · exact fun i row hi hge hrow => hcut.undeleted i row hi (by omega) hrow
    · by_cases hzero : rowStart - rg.start = 0
      · exact Or.inl hzero
      · exact Or.inr fun a d hslot => hcut.uncut (by omega) (by omega) ⟨a, d, hslot⟩
    · have hreach : rowStart < vectorCapacity * j + vectorCapacity := by omega
      rw [getElem?_revertRows hi, hstart]
      simp only [hreach, and_true]
      exact if_congr (by omega) rfl rfl

/-- A revert makes no info constant. -/
theorem Constant.of_revertAppend {start : Nat} (h : (rg.revertAppend start).Constant) :
    rg.Constant := by
  obtain ⟨a, d, hslot⟩ := h
  rw [getOrCreateVersionInfo_revertAppend, RowVersionManager.getChunkInfo_revertAppend] at hslot
  split at hslot
  · cases hslot
  · exact ⟨a, d, hslot⟩

/-- Nor does a commit. -/
theorem Constant.of_commitAppend {rg' : RowGroup α} {commitId start count : Nat}
    (hm : rg.commitAppend commitId start count = some rg')
    (hle : start + count ≤ vectorCapacity) (h : rg'.Constant) : rg.Constant := by
  obtain ⟨a, d, hslot⟩ := h
  unfold Constant getOrCreateVersionInfo at *
  unfold RowGroup.commitAppend at hm
  split at hm
  · next hinfo =>
    cases hm
    exact ⟨a, d, hslot⟩
  · next m hinfo =>
    rw [Option.map_eq_some_iff] at hm
    obtain ⟨m', hm', rfl⟩ := hm
    rw [Option.getD_some] at hslot
    rw [hinfo, Option.getD_some]
    rcases Nat.eq_zero_or_pos count with rfl | hpos
    · obtain rfl : m = m' := by simpa [RowVersionManager.commitAppend] using hm'
      exact ⟨a, d, hslot⟩
    · obtain ⟨info, info', hinfo, hinfo', rfl⟩ :=
        RowVersionManager.commitAppend_cases hpos hle hm'
      rw [RowVersionManager.getChunkInfo_setChunkInfo, if_pos rfl, Option.some.injEq] at hslot
      obtain ⟨b, rfl⟩ := (RowVersionManager.ChunkInfo.commitAppend_spec hinfo'
        vectorCapacity_pos).2.2 a d hslot
      exact ⟨b, d, hinfo⟩

end RowGroup

/-! ## The collection -/

namespace Collection

variable {t : Collection α} {rows : List (Row α)} {rowStart count : Nat}

theorem length_revertLoop (rowStart count : Nat) (rgs : List (RowGroup α)) :
    (revertLoop rowStart count rgs).length = rgs.length := by
  induction rgs with
  | nil => rfl
  | cons rg rgs ih =>
    unfold revertLoop
    split_ifs <;> simp [ih]

/-- What the loop of `revert_append` makes of each row group. -/
theorem getElem?_revertLoop {rgs : List (RowGroup α)} {i : Nat} {rg' : RowGroup α}
    (h : (revertLoop rowStart count rgs)[i]? = some rg') :
    ∃ rg, rgs[i]? = some rg ∧
      (rg' = rg ∨ rowStart < rg.start + rg.count ∧ rg' = rg.revertAppend (rowStart - rg.start)) := by
  induction rgs generalizing i with
  | nil => simp [revertLoop] at h
  | cons rg rgs ih =>
    unfold revertLoop at h
    split_ifs at h with hbefore hbehind
    · cases i with
      | zero => exact ⟨rg, rfl, Or.inl (Option.some.inj h).symm⟩
      | succ i => exact ih h
    · exact ⟨rg', h, Or.inl rfl⟩
    · cases i with
      | zero => exact ⟨rg, rfl, Or.inr ⟨by omega, (Option.some.inj h).symm⟩⟩
      | succ i => exact ih h

/-- The loop of `revert_append` for a range at the end of the table. -/
theorem revertLoop_holds {rgs : List (RowGroup α)} (k : Nat)
    (h : ∀ (i : Nat) (rg : RowGroup α), rgs[i]? = some rg → rg.Holds rows (k + i))
    (hcut : ∀ (i : Nat) (rg : RowGroup α), rgs[i]? = some rg → rg.Cuttable rows (k + i) rowStart)
    (htail : rowStart + count = rows.length) (hpos : 0 < count) (i : Nat) (rg' : RowGroup α)
    (hrg' : (revertLoop rowStart count rgs)[i]? = some rg') :
    rg'.Holds (revertRows rowStart rows) (k + i) := by
  induction rgs generalizing k i with
  | nil => simp [revertLoop] at hrg'
  | cons rg rgs ih =>
    have hrg := h 0 rg rfl
    have hrest : ∀ n, (revertLoop rowStart count rgs)[n]? = some rg' →
        rg'.Holds (revertRows rowStart rows) (k + (n + 1)) := by
      intro n hn
      have hshift : ∀ i, k + 1 + i = k + (i + 1) := fun i => by omega
      rw [← hshift]
      refine ih (k + 1) (fun i other hother => ?_) (fun i other hother => ?_) n hn
      · rw [hshift]
        exact h (i + 1) other hother
      · rw [hshift]
        exact hcut (i + 1) other hother
    unfold revertLoop at hrg'
    split_ifs at hrg' with hbefore hbehind
    · cases i with
      | zero =>
        cases hrg'
        exact hrg.revert_outside (by omega) (Or.inl hbefore)
      | succ i => exact hrest i hrg'
    · -- the loop stops behind the last row
      have hstart : rg.start = vectorCapacity * k := hrg.start_eq
      have hle : vectorCapacity * k ≤ vectorCapacity * (k + i) :=
        Nat.mul_le_mul_left _ (by omega)
      exact (h i rg' hrg').revert_outside (by omega) (Or.inr (by omega))
    · cases i with
      | zero =>
        cases hrg'
        exact hrg.revertAppend (by omega) (hcut 0 rg rfl)
      | succ i => exact hrest i hrg'

/-- **Revert.** A range at the end of the table is gone. -/
theorem Represents.revertAppend (h : t.Represents rows) (htail : rowStart + count = rows.length)
    (hpos : 0 < count)
    (hcut : ∀ (j : Nat) (rg : RowGroup α), t.rowGroups[j]? = some rg →
      rg.Cuttable rows j rowStart) :
    (t.revertAppend rowStart count).Represents (revertRows rowStart rows) := by
  refine ⟨?_, ?_, fun j rg' hrg' => ?_⟩
  · show t.totalRows - count = _
    rw [h.total, length_revertRows]
    omega
  · show _ ≤ vectorCapacity * (revertLoop rowStart count t.rowGroups).length
    rw [length_revertLoop, length_revertRows]
    exact Nat.le_trans (Nat.min_le_right _ _) h.fits
  · have := revertLoop_holds (k := 0) (by simpa using h.holds) (by simpa using hcut) htail hpos j
      rg' hrg'
    rwa [Nat.zero_add] at this

/-! ## Reading one row -/

/-- Row `r` with its stamps: the insert stamp is filed in the row group's first
    slot, the delete stamp in the slot with the row group's own number. -/
def rowAt (t : Collection α) (r : Nat) : Option (Row α) :=
  match t.rowGroups[r / vectorCapacity]? with
  | none => none
  | some rg =>
      if r % vectorCapacity < rg.count then
        match rg.getOrCreateVersionInfo.getChunkInfo 0, rg.read (r % vectorCapacity) with
        | some info, some value =>
            some { value := value
                   insertId := info.insertedAt (r % vectorCapacity)
                   deleteId := deletedIn (rg.getOrCreateVersionInfo.getChunkInfo
                     (r / vectorCapacity)) (r % vectorCapacity) }
        | _, _ => none
      else none

theorem Represents.rowAt_eq (h : t.Represents rows) (r : Nat) : t.rowAt r = rows[r]? := by
  have hcap := vectorCapacity_pos
  have hr : vectorCapacity * (r / vectorCapacity) + r % vectorCapacity = r := Nat.div_add_mod _ _
  have hmod : r % vectorCapacity < vectorCapacity := Nat.mod_lt _ hcap
  unfold rowAt
  split
  · next hnone =>
    -- no such row group: the row is behind the end
    have hge : t.rowGroups.length ≤ r / vectorCapacity := List.getElem?_eq_none_iff.mp hnone
    have hfits := h.fits
    have := Nat.mul_le_mul_left vectorCapacity hge
    exact (List.getElem?_eq_none (by omega)).symm
  · next rg hrg =>
    have hhold := h.holds _ rg hrg
    have hiff := hhold.lt_count_iff hmod
    rw [hr] at hiff
    split
    · next hlt =>
      have hrow : rows[vectorCapacity * (r / vectorCapacity) + r % vectorCapacity]? =
          some (rows.get ⟨r, hiff.mp hlt⟩) := by
        rw [hr]
        exact List.getElem?_eq_getElem (hiff.mp hlt)
      obtain ⟨info, hinfo, hstamp⟩ := hhold.files.inserts _ _ hmod hrow
      have hdelete := hhold.files.deletes _ hmod
      rw [hrow] at hdelete
      rw [hinfo, hhold.reads _ _ hmod hrow]
      simp only [hdelete, hstamp]
      rw [hr] at hrow
      exact hrow.symm
    · next hge =>
      exact (List.getElem?_eq_none (by omega)).symm

/-- A scan returns row `r` with value `x`. -/
theorem Represents.mem_scan_iff {txn : TransactionData} (h : t.Represents rows)
    (htxn : txn.Proper) {r : Nat} {x : Option α} :
    (r, x) ∈ t.scan txn ↔
      ∃ row, rows[r]? = some row ∧ t.shows txn r row = true ∧ x = some row.value := by
  rw [h.scan_eq htxn]
  simp only [List.mem_map, List.mem_filter, Prod.mk.injEq, Prod.exists,
    List.mk_mem_zipIdx_iff_getElem?]
  constructor
  · rintro ⟨row, k, ⟨hrow, hshows⟩, rfl, rfl⟩
    exact ⟨row, hrow, hshows, rfl⟩
  · rintro ⟨row, hrow, hshows, rfl⟩
    exact ⟨row, r, ⟨hrow, hshows⟩, rfl, rfl⟩

/-- The first row group keeps its single-inserter claim as long as it keeps a row. -/
theorem sharedInsertId_revertAppend (h : t.Represents rows) (hpos : 0 < rowStart)
    (count : Nat) : (t.revertAppend rowStart count).sharedInsertId = t.sharedInsertId := by
  unfold sharedInsertId Collection.revertAppend
  cases hrgs : t.rowGroups with
  | nil => rfl
  | cons rg rgs =>
    have hstart := (h.holds 0 rg (by rw [hrgs]; rfl)).start_eq
    unfold revertLoop
    split_ifs
    · rfl
    · rfl
    · have hkept : ¬(rowStart - rg.start + (vectorCapacity - 1)) / vectorCapacity ≤ 0 := by
        unfold vectorCapacity at *
        omega
      simp only [List.head?_cons, RowGroup.getOrCreateVersionInfo_revertAppend,
        RowVersionManager.getChunkInfo_revertAppend, if_neg hkept]

end Collection
end Table
end Otterbrix
