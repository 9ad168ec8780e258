/-
  Otterbrix.Table.Append

  Appends on the list of rows: the last row group is filled up, further row
  groups are opened, and the new rows are filed under the transaction's id.

  A row is read at the position it is counted at, not at the position its data
  went to.  The two differ after a reverted append, which takes back the count
  and leaves the column data: `RowGroup.landed` says what the new rows read as.
-/
import Otterbrix.Table.Represents

namespace Otterbrix
namespace Table

variable {α : Type}

/-! ## One row group -/

/-- What the rows of an append starting in `rg` read as: first what the column
    data holds behind the row count, then the rows appended. -/
def RowGroup.landed (rg : RowGroup α) (data : List α) : List α :=
  (rg.columns.drop rg.count ++ data.take (vectorCapacity - rg.count)).take
      (data.take (vectorCapacity - rg.count)).length ++
    data.drop (vectorCapacity - rg.count)

/-- The row group's insert stamps are one constant info. -/
def RowGroup.Constant (rg : RowGroup α) : Prop :=
  ∃ a d, rg.getOrCreateVersionInfo.getChunkInfo 0 = some (.constant a d)

namespace RowGroup

variable {rg rg' : RowGroup α} {rows : List (Row α)} {j : Nat}

/-- A constant info is filed for a full row group. -/
theorem Holds.count_of_constant (h : rg.Holds rows j) (hconst : rg.Constant) :
    rg.count = vectorCapacity := by
  obtain ⟨a, d, hslot⟩ := hconst
  have hcap := vectorCapacity_pos
  have hlast := (h.files.constants 0 a d hslot).2 (vectorCapacity - 1) (by omega)
  rw [Option.isSome_iff_exists] at hlast
  obtain ⟨row, hrow⟩ := hlast
  have hlt := (h.lt_count_iff (i := vectorCapacity - 1) (by omega)).mpr
    (List.getElem?_eq_some_iff.mp hrow).1
  have hle := h.count_le
  omega

theorem length_landed (rg : RowGroup α) (data : List α) :
    (rg.landed data).length = data.length := by
  unfold landed
  simp only [List.length_append, List.length_take, List.length_drop]
  omega

/-- A row group whose column data ends with its last row takes the rows as given. -/
theorem landed_eq (hclean : rg.columns.length = rg.count) (data : List α) :
    rg.landed data = data := by
  unfold landed
  rw [List.drop_of_length_le (Nat.le_of_eq hclean), List.nil_append, List.take_length,
    List.take_append_drop]

/-- The row group an append opens. -/
theorem holds_fresh (hrows : rows.length = vectorCapacity * j) :
    ({ start := vectorCapacity * j } : RowGroup α).Holds rows j where
  start_eq := rfl
  count_eq := by rw [hrows, Nat.sub_self, Nat.min_zero]
  stored := Nat.zero_le _
  overlaid p hp := by simp at hp
  reads i row hi hrow := by
    rw [List.getElem?_eq_none (by omega)] at hrow
    cases hrow
  files := RowVersionManager.files_empty.congr fun i _ => List.getElem?_eq_none (by omega)

/-- The last row group takes `ys.length` more rows.  `zs` are the rows that go to
    the row groups behind it, if this one is filled up. -/
theorem Holds.append (xs ys zs : List α) (h : rg.Holds rows j)
    (hlast : rows.length = vectorCapacity * j + rg.count) (hpos : 0 < ys.length)
    (hroom : rg.count + ys.length ≤ vectorCapacity)
    (hrest : zs = [] ∨ rg.count + ys.length = vectorCapacity)
    (hread : ((rg.columns ++ xs).drop rg.count).take ys.length = ys) (transactionId : Nat) :
    ∃ rg', ({ rg with columns := rg.columns ++ xs } : RowGroup α).appendVersionInfo
        transactionId ys.length = some rg' ∧
      rg'.columns = rg.columns ++ xs ∧ rg'.count = rg.count + ys.length ∧
      (rg.count ≠ 0 → ¬rg'.Constant) ∧
      rg'.Holds (rows ++ (ys ++ zs).map (Row.pending transactionId)) j := by
  have hstop : min (rg.count + ys.length) vectorCapacity = rg.count + ys.length :=
    Nat.min_eq_left hroom
  obtain ⟨m', hm'⟩ := h.files.exists_appendVersionInfo
    (show rg.count < rg.count + ys.length by omega) hroom
    (List.getElem?_eq_none (by omega)) transactionId
  refine ⟨{ rg with
    columns := rg.columns ++ xs
    count := rg.count + ys.length
    versionInfo := some m' }, ?_, rfl, rfl, ?_, ?_⟩
  · unfold RowGroup.appendVersionInfo
    rw [hstop]
    show (rg.getOrCreateVersionInfo.appendVersionInfo transactionId rg.count
      (rg.count + ys.length)).bind _ = _
    rw [hm']
    rfl
  · rintro hcount ⟨a, d, hslot⟩
    rcases RowVersionManager.appendVersionInfo_cases (by omega) hroom hm' with
      ⟨hzero, -, -⟩ | ⟨v, -, rfl⟩
    · exact hcount hzero
    · simp [getOrCreateVersionInfo, RowVersionManager.getChunkInfo_setChunkInfo] at hslot
  -- the rows of this row group: the old ones, then `ys`
  have hold : ∀ i, i < rg.count →
      (rows ++ (ys ++ zs).map (Row.pending transactionId))[vectorCapacity * j + i]? =
        rows[vectorCapacity * j + i]? :=
    fun i hi => List.getElem?_append_left (by omega)
  have hnew : ∀ i, rg.count ≤ i → i < rg.count + ys.length →
      (rows ++ (ys ++ zs).map (Row.pending transactionId))[vectorCapacity * j + i]? =
        ys[i - rg.count]?.map (Row.pending transactionId) := by
    intro i hlo hhi
    have hidx : vectorCapacity * j + i - rows.length = i - rg.count := by omega
    rw [List.getElem?_append_right (by omega), hidx, List.getElem?_map,
      List.getElem?_append_left (by omega)]
  have hnone : ∀ i, rg.count + ys.length ≤ i → i < vectorCapacity →
      (rows ++ (ys ++ zs).map (Row.pending transactionId))[vectorCapacity * j + i]? = none := by
    intro i hlo hhi
    obtain rfl : zs = [] := hrest.resolve_right (by omega)
    refine List.getElem?_eq_none ?_
    simp only [List.append_nil, List.length_append, List.length_map]
    omega
  have hlen : ys.length ≤ (rg.columns ++ xs).length - rg.count := by
    have hcut := congrArg List.length hread
    rw [List.length_take, List.length_drop] at hcut
    omega
  refine ⟨h.start_eq, ?_, ?_, ?_, ?_, ?_⟩
  · simp only [List.length_append, List.length_map]
    rcases hrest with rfl | hfull
    · simp only [List.length_nil]
      omega
    · omega
  · show rg.count + ys.length ≤ (rg.columns ++ xs).length
    have hstored := h.stored
    rw [List.length_append] at hlen ⊢
    omega
  · intro p hp
    exact Nat.lt_of_lt_of_le (h.overlaid p hp) (Nat.le_add_right _ _)
  · intro i row hi hrow
    by_cases hcount : i < rg.count
    · rw [hold i hcount] at hrow
      have hstored := h.stored
      have hsame : (rg.columns ++ xs)[i]? = rg.columns[i]? :=
        List.getElem?_append_left (by omega)
      have hread' := h.reads i row hi hrow
      unfold RowGroup.read at hread' ⊢
      simp only [hsame]
      exact hread'
    · have hin : i < rg.count + ys.length := by
        by_contra hout
        rw [hnone i (by omega) hi] at hrow
        cases hrow
      rw [hnew i (by omega) hin, Option.map_eq_some_iff] at hrow
      obtain ⟨x, hx, rfl⟩ := hrow
      -- nothing is laid over a position beyond the old rows
      have hbare : rg.updates.lookup i = none := by
        rw [List.lookup_eq_none_iff]
        intro p hp
        have := h.overlaid p hp
        simp only [bne_iff_ne, ne_eq]
        omega
      unfold RowGroup.read
      simp only [hbare]
      rw [← hread, List.getElem?_take_of_lt (by omega), List.getElem?_drop] at hx
      rwa [Nat.add_sub_cancel' (by omega)] at hx
  · refine h.files.append (by omega) hroom hm' hold ?_ ?_ hnone
    · exact fun i hlo hhi => List.getElem?_eq_none (by omega)
    · intro i hlo hhi
      rw [hnew i hlo hhi, List.getElem?_eq_getElem (by omega)]
      exact ⟨_, rfl⟩

/-- A full row group is passed over. -/
theorem Holds.append_full (h : rg.Holds rows j) (hfull : rg.count = vectorCapacity)
    (extra : List (Row α)) (transactionId : Nat) :
    ∃ rg', rg.appendVersionInfo transactionId 0 = some rg' ∧ rg'.columns = rg.columns ∧
      rg'.count = rg.count ∧ (rg'.Constant → rg.Constant) ∧ rg'.Holds (rows ++ extra) j := by
  have hlen : vectorCapacity * j + vectorCapacity ≤ rows.length := by
    have hcount := h.count_eq
    have hcap := vectorCapacity_pos
    omega
  have hholds : rg.Holds (rows ++ extra) j := by
    refine h.congr ?_ fun i hi => List.getElem?_append_left (by omega)
    rw [List.length_append]
    omega
  refine ⟨{ rg with
    count := vectorCapacity
    versionInfo := some rg.getOrCreateVersionInfo }, ?_, rfl, hfull.symm, id, ?_⟩
  · simp only [RowGroup.appendVersionInfo, RowVersionManager.appendVersionInfo, Nat.add_zero,
      hfull, Nat.min_self, RowVersionManager.vectorRanges_full, List.foldlM_nil]
    rfl
  · exact ⟨hholds.start_eq, hfull ▸ hholds.count_eq, hfull ▸ hholds.stored,
      hfull ▸ hholds.overlaid, hholds.reads, hholds.files⟩

end RowGroup
/-! ## The row groups an append opens -/

namespace Collection

variable {t t' : Collection α} {rows : List (Row α)}

@[simp] theorem newRowGroups_nil (start : Nat) : newRowGroups start ([] : List α) = [] := by
  simp [newRowGroups, vectorCapacity]

theorem newRowGroups_cons (start : Nat) {data : List α} (hne : data ≠ []) :
    newRowGroups start data = { start, columns := data.take vectorCapacity } ::
      newRowGroups (start + vectorCapacity) (data.drop vectorCapacity) := by
  have hpos := List.length_pos_of_ne_nil hne
  have hgroups : (data.length + (vectorCapacity - 1)) / vectorCapacity =
      ((data.drop vectorCapacity).length + (vectorCapacity - 1)) / vectorCapacity + 1 := by
    rw [List.length_drop]
    unfold vectorCapacity
    omega
  unfold newRowGroups
  rw [hgroups, List.range_succ_eq_map, List.map_cons, List.map_map]
  congr 1
  refine List.map_congr_left fun k _ => ?_
  simp only [Function.comp_apply, List.drop_drop, Nat.succ_eq_add_one]
  congr 1
  · rw [Nat.mul_succ]
    omega
  · rw [Nat.mul_succ, Nat.add_comm]

theorem finalizeLoop_cons (transactionId : Nat) {remaining : Nat} (hpos : 0 < remaining)
    (rg : RowGroup α) (rgs : List (RowGroup α)) :
    finalizeLoop transactionId remaining (rg :: rgs) =
      (rg.appendVersionInfo transactionId (min remaining (vectorCapacity - rg.count))).bind
        fun rg' => (finalizeLoop transactionId
          (remaining - min remaining (vectorCapacity - rg.count)) rgs).map (rg' :: ·) := by
  cases remaining with
  | zero => exact absurd hpos (Nat.lt_irrefl 0)
  | succ n =>
    simp only [finalizeLoop, Option.bind_eq_bind, Option.map_eq_bind, Option.pure_def]
    rfl

/-- The row groups behind the one the append starts in: filled one after the
    other, the last as far as the rows go. -/
theorem exists_finalize_new (transactionId : Nat) (data : List α) (rows : List (Row α)) (j : Nat)
    (hrows : rows.length = vectorCapacity * j) :
    ∃ rgs, finalizeLoop transactionId data.length (newRowGroups (vectorCapacity * j) data) =
        some rgs ∧
      rgs.length = (data.length + (vectorCapacity - 1)) / vectorCapacity ∧
      (∀ rg ∈ rgs, rg.columns.length = rg.count) ∧
      ∀ (i : Nat) (rg : RowGroup α), rgs[i]? = some rg →
        rg.Holds (rows ++ data.map (Row.pending transactionId)) (j + i) := by
  induction hn : data.length using Nat.strong_induction_on generalizing data rows j with
  | _ n ih =>
    subst hn
    by_cases hne : data = []
    · subst hne
      refine ⟨[], ?_, by simp [vectorCapacity], by simp, by simp⟩
      rw [newRowGroups_nil, List.length_nil, finalizeLoop]
    · have hpos := List.length_pos_of_ne_nil hne
      have hcap := vectorCapacity_pos
      have htake : (data.take vectorCapacity).length = min data.length vectorCapacity := by
        rw [List.length_take, Nat.min_comm]
      have hfresh : ({ start := vectorCapacity * j } : RowGroup α).Holds rows j :=
        RowGroup.holds_fresh hrows
      have hrest : data.drop vectorCapacity = [] ∨
          0 + (data.take vectorCapacity).length = vectorCapacity := by
        by_cases hlong : vectorCapacity ≤ data.length
        · right
          omega
        · left
          exact List.drop_of_length_le (by omega)
      obtain ⟨rg, hrg, hcolumns, hcount, -, hhold⟩ :=
        hfresh.append (data.take vectorCapacity) (data.take vectorCapacity)
          (data.drop vectorCapacity) hrows (by omega) (by show 0 + _ ≤ _; omega) hrest
          (by rw [List.nil_append, List.drop_zero, List.take_length]) transactionId
      rw [List.take_append_drop] at hhold
      -- the rows of the row groups behind this one
      obtain ⟨rgs, hrgs, hlen, hclean, hholds⟩ : ∃ rgs,
          finalizeLoop transactionId (data.drop vectorCapacity).length
            (newRowGroups (vectorCapacity * (j + 1)) (data.drop vectorCapacity)) = some rgs ∧
          rgs.length =
            ((data.drop vectorCapacity).length + (vectorCapacity - 1)) / vectorCapacity ∧
          (∀ rg ∈ rgs, rg.columns.length = rg.count) ∧
          ∀ (i : Nat) (rg : RowGroup α), rgs[i]? = some rg →
            rg.Holds (rows ++ data.map (Row.pending transactionId)) (j + 1 + i) := by
        rcases hrest with hnil | hfull
        · rw [hnil]
          refine ⟨[], ?_, by simp [vectorCapacity], by simp, by simp⟩
          rw [newRowGroups_nil, List.length_nil, finalizeLoop]
        · have hrows' : (rows ++ (data.take vectorCapacity).map
              (Row.pending transactionId)).length = vectorCapacity * (j + 1) := by
            rw [List.length_append, List.length_map, hrows, Nat.mul_succ]
            omega
          have hih := ih (data.drop vectorCapacity).length
            (by rw [List.length_drop]; omega) _ _ _ hrows' rfl
          simpa only [List.append_assoc, ← List.map_append, List.take_append_drop] using hih
      refine ⟨rg :: rgs, ?_, ?_, ?_, ?_⟩
      · rw [newRowGroups_cons _ hne]
        have hcount' : min data.length (vectorCapacity - 0) =
            (data.take vectorCapacity).length := by omega
        have hleft : data.length - (data.take vectorCapacity).length =
            (data.drop vectorCapacity).length := by
          rw [List.length_drop]
          omega
        have hnext : vectorCapacity * j + vectorCapacity = vectorCapacity * (j + 1) :=
          (Nat.mul_succ ..).symm
        rw [finalizeLoop_cons _ hpos, hcount', hleft, hnext, hrgs]
        rw [List.nil_append] at hrg
        rw [hrg]
        rfl
      · rw [List.length_cons, hlen, List.length_drop]
        unfold vectorCapacity
        omega
      · intro other hother
        rcases List.mem_cons.mp hother with rfl | hother
        · rw [hcolumns, hcount]
          simp
        · exact hclean other hother
      · intro i other hother
        cases i with
        | zero =>
          cases hother
          exact hhold
        | succ i =>
          have := hholds i other (by simpa using hother)
          rwa [Nat.add_assoc, Nat.add_comm 1 i] at this

/-! ## Append -/

/-- What the rows of the next append read as. -/
def landed (t : Collection α) (data : List α) : List α := t.initializeAppend.2.landed data

/-- Every row group's column data ends with its last row. -/
def Clean (t : Collection α) : Prop := ∀ rg ∈ t.rowGroups, rg.columns.length = rg.count

theorem Clean.congr (h : t.Clean) (hbody : t'.body = t.body) : t'.Clean := by
  intro rg hrg
  have hmem : rg.body ∈ t.body.2 := hbody ▸ List.mem_map_of_mem hrg
  obtain ⟨old, hold, heq⟩ := List.mem_map.mp hmem
  simp only [RowGroup.body, Prod.mk.injEq] at heq
  rw [← heq.2.1, ← heq.2.2.1]
  exact h old hold

/-- The row group an append starts in holds the end of the rows; a table without
    row groups opens its first one. -/
theorem Represents.initializeAppend (h : t.Represents rows) (hends : t.EndsInLast) :
    ∃ before last, t.initializeAppend = (before, last) ∧
      last.Holds rows before.length ∧
      rows.length = vectorCapacity * before.length + last.count ∧
      (t.Clean → last.columns.length = last.count) ∧
      (last.count ≠ 0 → t.rowGroups[before.length]? = some last) ∧
      ∀ (j : Nat) (rg : RowGroup α), before[j]? = some rg → t.rowGroups[j]? = some rg := by
  unfold Collection.initializeAppend
  cases hlast : t.rowGroups.getLast? with
  | none =>
    rw [List.getLast?_eq_none_iff] at hlast
    have hnil : rows = [] := by
      have hfits := h.fits
      rw [hlast, List.length_nil, Nat.mul_zero] at hfits
      exact List.length_eq_zero_iff.mp (by omega)
    subst hnil
    have hfresh : ({ start := vectorCapacity * 0 } : RowGroup α).Holds [] 0 :=
      RowGroup.holds_fresh rfl
    exact ⟨[], { start := 0 }, rfl, hfresh, rfl, fun _ => rfl, fun hne => absurd rfl hne, by simp⟩
  | some last =>
    have hne : t.rowGroups ≠ [] := by
      rintro hnil
      simp [hnil] at hlast
    have hpos := List.length_pos_of_ne_nil hne
    have hidx : t.rowGroups[t.rowGroups.length - 1]? = some last := by
      rw [← hlast, List.getLast?_eq_getElem?]
    have hlen : t.rowGroups.dropLast.length = t.rowGroups.length - 1 := List.length_dropLast
    have hhold := h.holds _ last hidx
    refine ⟨t.rowGroups.dropLast, last, rfl, by rw [hlen]; exact hhold, ?_, ?_, ?_, ?_⟩
    · rw [← h.total, hends last hlast, hlen, hhold.start_eq]
    · exact fun hclean => hclean last (List.mem_of_getElem? hidx)
    · intro _
      rw [hlen]
      exact hidx
    · intro j rg hrg
      rw [List.getElem?_dropLast] at hrg
      split at hrg
      · exact hrg
      · cases hrg

/-- The row group a nonempty append starts in. -/
theorem exists_append_first {last : RowGroup α} {k : Nat} (hhold : last.Holds rows k)
    (hrows : rows.length = vectorCapacity * k + last.count) {data : List α} (hne : data ≠ [])
    (transactionId : Nat) :
    ∃ rg, ({ last with
        columns := last.columns ++ data.take (vectorCapacity - last.count) } :
          RowGroup α).appendVersionInfo transactionId
        (min data.length (vectorCapacity - last.count)) = some rg ∧
      (last.columns.length = last.count → rg.columns.length = rg.count) ∧
      (last.count ≠ 0 → rg.Constant → last.Constant) ∧
      rg.Holds (rows ++ (last.landed data).map (Row.pending transactionId)) k := by
  have hpos := List.length_pos_of_ne_nil hne
  have hcap := hhold.count_le
  rcases Nat.eq_zero_or_pos (vectorCapacity - last.count) with hfull | hroom
  · rw [hfull, List.take_zero, List.append_nil, Nat.min_zero]
    obtain ⟨rg, hrg, hcolumns, hcount, hconst, hholds⟩ := hhold.append_full (by omega)
      ((last.landed data).map (Row.pending transactionId)) transactionId
    exact ⟨rg, hrg, fun hclean => by rw [hcolumns, hcount, hclean], fun _ => hconst, hholds⟩
  · have htake : (data.take (vectorCapacity - last.count)).length =
        min data.length (vectorCapacity - last.count) := by
      rw [List.length_take, Nat.min_comm]
    have hys : ((last.columns.drop last.count ++ data.take (vectorCapacity - last.count)).take
        (data.take (vectorCapacity - last.count)).length).length =
        min data.length (vectorCapacity - last.count) := by
      rw [List.length_take, List.length_append, List.length_drop]
      omega
    have hrest : data.drop (vectorCapacity - last.count) = [] ∨
        last.count + min data.length (vectorCapacity - last.count) = vectorCapacity := by
      by_cases hlong : vectorCapacity - last.count ≤ data.length
      · right
        omega
      · left
        exact List.drop_of_length_le (by omega)
    obtain ⟨rg, hrg, hcolumns, hcount, hconst, hholds⟩ := hhold.append
      (data.take (vectorCapacity - last.count))
      ((last.columns.drop last.count ++ data.take (vectorCapacity - last.count)).take
        (data.take (vectorCapacity - last.count)).length)
      (data.drop (vectorCapacity - last.count)) hrows (by omega) (by omega) (by rw [hys]; exact hrest)
      (by rw [List.drop_append_of_le_length hhold.stored, hys, htake]) transactionId
    rw [hys] at hrg hcount
    refine ⟨rg, hrg, fun hclean => ?_, fun hne hc => absurd hc (hconst hne), hholds⟩
    rw [hcolumns, hcount, List.length_append, hclean, htake]

/-- The row group an append starts in, and the ones it opens. -/
theorem exists_finalize_append {last : RowGroup α} {k : Nat} (hhold : last.Holds rows k)
    (hrows : rows.length = vectorCapacity * k + last.count) (data : List α)
    (transactionId : Nat) :
    ∃ rgs, finalizeLoop transactionId data.length (appendChunk last data) = some rgs ∧
      rgs.length = 1 +
        ((data.drop (vectorCapacity - last.count)).length + (vectorCapacity - 1)) /
          vectorCapacity ∧
      (last.columns.length = last.count → ∀ rg ∈ rgs, rg.columns.length = rg.count) ∧
      (∀ rg, rgs[0]? = some rg → last.count ≠ 0 → rg.Constant → last.Constant) ∧
      ∀ (i : Nat) (rg : RowGroup α), rgs[i]? = some rg →
        rg.Holds (rows ++ (last.landed data).map (Row.pending transactionId)) (k + i) := by
  have hcap := hhold.count_le
  have hstart : last.start + (last.count + (vectorCapacity - last.count)) =
      vectorCapacity * (k + 1) := by
    rw [hhold.start_eq, Nat.mul_succ]
    omega
  simp only [appendChunk, hstart]
  by_cases hne : data = []
  · subst hne
    have hlanded : last.landed [] = [] :=
      List.length_eq_zero_iff.mp (last.length_landed [])
    refine ⟨[last], ?_, by simp [vectorCapacity], by simp, by simp, ?_⟩
    · simp only [List.length_nil, finalizeLoop, List.take_nil, List.append_nil, List.drop_nil,
        newRowGroups_nil]
    · intro i rg hrg
      cases i with
      | zero =>
        cases hrg
        simpa [hlanded] using hhold
      | succ i => simp at hrg
  · have hpos := List.length_pos_of_ne_nil hne
    obtain ⟨rg, hrg, hclean, hconst, hfirst⟩ :=
      exists_append_first hhold hrows hne transactionId
    -- the row groups behind the first one, if it is filled up
    obtain ⟨rgs, hrgs, hlen, hcleans, hholds⟩ : ∃ rgs,
        finalizeLoop transactionId (data.drop (vectorCapacity - last.count)).length
          (newRowGroups (vectorCapacity * (k + 1))
            (data.drop (vectorCapacity - last.count))) = some rgs ∧
        rgs.length = ((data.drop (vectorCapacity - last.count)).length +
          (vectorCapacity - 1)) / vectorCapacity ∧
        (∀ rg ∈ rgs, rg.columns.length = rg.count) ∧
        ∀ (i : Nat) (rg : RowGroup α), rgs[i]? = some rg →
          rg.Holds (rows ++ (last.landed data).map (Row.pending transactionId)) (k + 1 + i) := by
      by_cases hlong : vectorCapacity - last.count ≤ data.length
      · have hrows' : (rows ++ ((last.columns.drop last.count ++
            data.take (vectorCapacity - last.count)).take
              (data.take (vectorCapacity - last.count)).length).map
                (Row.pending transactionId)).length = vectorCapacity * (k + 1) := by
          simp only [List.length_append, List.length_map, List.length_take, List.length_drop,
            Nat.mul_succ]
          omega
        have hnew := exists_finalize_new transactionId
          (data.drop (vectorCapacity - last.count)) _ (k + 1) hrows'
        simp only [List.append_assoc, ← List.map_append] at hnew
        exact hnew
      · rw [List.drop_of_length_le (by omega)]
        refine ⟨[], ?_, by simp [vectorCapacity], by simp, by simp⟩
        rw [newRowGroups_nil, List.length_nil, finalizeLoop]
    refine ⟨rg :: rgs, ?_, ?_, ?_, by simpa using hconst, ?_⟩
    · have hleft : data.length - min data.length (vectorCapacity - last.count) =
          (data.drop (vectorCapacity - last.count)).length := by
        rw [List.length_drop]
        omega
      rw [finalizeLoop_cons _ hpos, hrg, hleft, hrgs]
      rfl
    · rw [List.length_cons, hlen, Nat.add_comm]
    · intro hlast other hother
      rcases List.mem_cons.mp hother with rfl | hother
      · exact hclean hlast
      · exact hcleans other hother
    · intro i other hother
      cases i with
      | zero =>
        cases hother
        exact hfirst
      | succ i =>
        have := hholds i other (by simpa using hother)
        rwa [Nat.add_assoc, Nat.add_comm 1 i] at this

/-- What an append leaves. -/
structure Appended (t : Collection α) (rows : List (Row α)) (data : List α)
    (transactionId : Nat) (t' : Collection α) : Prop where
  returns : t.append data transactionId = some t'
  represents : t'.Represents (rows ++ (t.landed data).map (Row.pending transactionId))
  endsInLast : t'.EndsInLast
  clean : t.Clean → t'.Clean
  constant : ∀ r rg', r ≤ rows.length → r % vectorCapacity ≠ 0 →
    t'.rowGroups[r / vectorCapacity]? = some rg' → rg'.Constant →
      ∃ rg, t.rowGroups[r / vectorCapacity]? = some rg ∧ rg.Constant

/-- **Append.** The append succeeds and adds its rows, pending, at the end; where
    rows stand before it no info becomes constant. -/
theorem Represents.append (h : t.Represents rows) (hends : t.EndsInLast) (data : List α)
    (transactionId : Nat) : ∃ t', t.Appended rows data transactionId t' := by
  obtain ⟨before, last, hinit, hhold, hrows, hlastClean, hlast, hbefore⟩ :=
    h.initializeAppend hends
  obtain ⟨rgs, hrgs, hlen, hclean, hconst, hholds⟩ :=
    exists_finalize_append hhold hrows data transactionId
  have hlanded : t.landed data = last.landed data := by
    unfold landed
    rw [hinit]
  have hlength : (last.landed data).length = data.length := last.length_landed data
  have hcap := hhold.count_le
  have hrep : ({ totalRows := t.totalRows + data.length, rowGroups := before ++ rgs } :
      Collection α).Represents
        (rows ++ (last.landed data).map (Row.pending transactionId)) := by
    refine ⟨?_, ?_, ?_⟩
    · simp only [List.length_append, List.length_map, hlength, h.total]
    · simp only [List.length_append, List.length_map, hlength, hlen, List.length_drop]
      unfold vectorCapacity at *
      omega
    · intro j rg hrg
      by_cases hj : j < before.length
      · -- a row group before the start is full and keeps its rows
        rw [List.getElem?_append_left hj] at hrg
        have hfull : vectorCapacity * j + vectorCapacity ≤ rows.length := by
          have hmul := Nat.mul_le_mul_left vectorCapacity (Nat.succ_le_of_lt hj)
          rw [Nat.mul_succ] at hmul
          omega
        refine (h.holds j rg (hbefore j rg hrg)).congr ?_
          fun i hi => List.getElem?_append_left (by omega)
        rw [List.length_append]
        omega
      · rw [List.getElem?_append_right (by omega)] at hrg
        have := hholds _ rg hrg
        rwa [Nat.add_sub_cancel' (by omega)] at this
  refine ⟨{ totalRows := t.totalRows + data.length, rowGroups := before ++ rgs }, ?_,
    by rw [hlanded]; exact hrep, hrep.endsInLast ?_, ?_, ?_⟩
  · unfold Collection.append
    rw [hinit]
    simp only [hrgs]
    rfl
  · simp only [List.length_append, List.length_map, hlength, hlen, List.length_drop]
    unfold vectorCapacity at *
    omega
  · intro ht rg hrg
    rcases List.mem_append.mp hrg with hrg | hrg
    · obtain ⟨j, hj⟩ := List.getElem?_of_mem hrg
      exact ht rg (List.mem_of_getElem? (hbefore j rg hj))
    · exact hclean (hlastClean ht) rg hrg
  · intro r rg' hr hmod hrg' hc
    by_cases hj : r / vectorCapacity < before.length
    · rw [List.getElem?_append_left hj] at hrg'
      exact ⟨rg', hbefore _ rg' hrg', hc⟩
    · -- rows stand before `r` in the row group the append starts in
      have hidx : r / vectorCapacity = before.length ∧ last.count ≠ 0 := by
        unfold vectorCapacity at *
        omega
      rw [hidx.1, List.getElem?_append_right (Nat.le_refl _), Nat.sub_self] at hrg'
      rw [hidx.1]
      exact ⟨last, hlast hidx.2, hconst rg' hrg' hidx.2 hc⟩

/-! ## Tables no append was reverted on -/

/-- The collection holds `rows`, with nothing behind the last one: neither row
    groups nor column data. -/
structure Tidy (t : Collection α) (rows : List (Row α)) : Prop where
  represents : t.Represents rows
  endsInLast : t.EndsInLast
  clean : t.Clean

theorem tidy_empty : ({} : Collection α).Tidy [] where
  represents := represents_empty
  endsInLast := by simp [EndsInLast]
  clean := by simp [Clean]

/-- A call that only touches stamps. -/
theorem Tidy.congr {rows' : List (Row α)} (h : t.Tidy rows) (hrep : t'.Represents rows')
    (hbody : t'.body = t.body) : t'.Tidy rows' where
  represents := hrep
  endsInLast := h.endsInLast.congr hbody
  clean := h.clean.congr hbody

/-- **Append.** The rows appended are the rows read. -/
theorem Tidy.append (h : t.Tidy rows) (data : List α) (transactionId : Nat) :
    ∃ t', t.append data transactionId = some t' ∧
      t'.Tidy (rows ++ data.map (Row.pending transactionId)) := by
  obtain ⟨t', happ⟩ := h.represents.append h.endsInLast data transactionId
  have hlanded : t.landed data = data := by
    obtain ⟨before, last, hinit, -, -, hlast, -⟩ := h.represents.initializeAppend h.endsInLast
    unfold landed
    rw [hinit]
    exact RowGroup.landed_eq (hlast h.clean) data
  have hrep := happ.represents
  rw [hlanded] at hrep
  exact ⟨t', happ.returns, hrep, happ.endsInLast, happ.clean h.clean⟩

end Collection
end Table
end Otterbrix
