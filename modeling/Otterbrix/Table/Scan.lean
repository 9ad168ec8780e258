/-
  Otterbrix.Table.Scan

  A REGULAR scan (`initialize_scan`, then `collection_scan_state::scan`): every
  row group is read vector by vector and each vector is filtered through the
  version info filed under the scan's vector index.  That index and the row
  bound count on from one row group to the next, so they are absolute, while
  insert stamps are filed relative to the row group.

  `Represents.scan_eq` says what comes out: in the first row group the rows the
  version info shows, in every other one all rows that are not deleted.
-/
import Otterbrix.Table.Append

namespace Otterbrix
namespace Table

variable {α : Type}

/-! ## The scan -/

/-- Number of vectors that start below `row`. -/
def vectorsBelow (row : Nat) : Nat := (row + (vectorCapacity - 1)) / vectorCapacity

namespace RowGroup

/-- What `initialize_scan` adds to `max_row_group_row`. -/
def rowsBelow (rg : RowGroup α) (maxRow : Nat) : Nat :=
  if rg.start > maxRow then 0 else min rg.count (maxRow - rg.start)

/-- `templated_scan`, called until the row group is exhausted: the vectors from
    `vectorIndex` on, each with the positions its version info selects.  The
    column cursor starts at the row group's first row; a row group has rows for
    one vector. -/
def scan (rg : RowGroup α) (txn : TransactionData) (vectorIndex maxRowGroupRow : Nat) :
    List (Nat × Option α) :=
  (List.range' vectorIndex (vectorsBelow maxRowGroupRow - vectorIndex)).flatMap fun v =>
    let maxCount := min vectorCapacity (maxRowGroupRow - v * vectorCapacity)
    (rg.indexingVector txn v maxCount).map fun i => (v * vectorCapacity + i, rg.read i)

/-- The same while memory may run out: `fails v` says that the columns of vector
    `v` cannot be pinned.  A vector none of whose rows is selected is skipped
    unread; the error ends the scan, with the vectors before it in the chunk. -/
def scanUntil (rg : RowGroup α) (fails : Nat → Bool) (txn : TransactionData)
    (vectorIndex maxRowGroupRow : Nat) : List (Nat × Option α) × Bool :=
  let vectors :=
    (List.range' vectorIndex (vectorsBelow maxRowGroupRow - vectorIndex)).map fun v =>
      let maxCount := min vectorCapacity (maxRowGroupRow - v * vectorCapacity)
      (v, (rg.indexingVector txn v maxCount).map fun i => (v * vectorCapacity + i, rg.read i))
  let done := vectors.takeWhile fun p => p.2.isEmpty || !fails p.1
  (done.flatMap Prod.snd, decide (done.length < vectors.length))

/-- The buffers of a scan of the row group's vector are large enough.  The columns write all the
    values they have, one vector of them at most; into a vector with room for the rows that the row
    group counts, if some of these are selected and some are not. -/
def ScanFits (rg : RowGroup α) (txn : TransactionData) (vectorIndex : Nat) : Prop :=
  (rg.indexingVector txn vectorIndex rg.count).length ∈ [0, rg.count] ∨
    min vectorCapacity rg.columns.length ≤ rg.count

instance (rg : RowGroup α) (txn : TransactionData) (vectorIndex : Nat) :
    Decidable (rg.ScanFits txn vectorIndex) := inferInstanceAs (Decidable (_ ∨ _))

end RowGroup

namespace Collection

/-- `collection_scan_state::scan` over the row groups left.  `first` marks the
    search of `initialize_scan` for a row group with rows, which does not look
    at `max_row`. -/
def scanFrom (txn : TransactionData) (maxRow : Nat) :
    Bool → Nat → Nat → List (RowGroup α) → List (Nat × Option α)
  | _, _, _, [] => []
  | first, vectorIndex, maxRowGroupRow, rg :: rgs =>
      if !first && rg.start ≥ maxRow then []
      else
        let maxRowGroupRow := maxRowGroupRow + rg.rowsBelow maxRow
        if maxRowGroupRow = 0 then scanFrom txn maxRow first vectorIndex maxRowGroupRow rgs
        else
          rg.scan txn vectorIndex maxRowGroupRow ++
            if maxRow ≤ rg.start + rg.count then []
            else scanFrom txn maxRow false (max vectorIndex (vectorsBelow maxRowGroupRow))
              maxRowGroupRow rgs

/-- The same while memory may run out. -/
def scanUntil (fails : Nat → Bool) (txn : TransactionData) (maxRow : Nat) :
    Bool → Nat → Nat → List (RowGroup α) → List (Nat × Option α)
  | _, _, _, [] => []
  | first, vectorIndex, maxRowGroupRow, rg :: rgs =>
      if !first && rg.start ≥ maxRow then []
      else
        let maxRowGroupRow := maxRowGroupRow + rg.rowsBelow maxRow
        if maxRowGroupRow = 0 then scanUntil fails txn maxRow first vectorIndex maxRowGroupRow rgs
        else
          let (rows, error) := rg.scanUntil fails txn vectorIndex maxRowGroupRow
          rows ++
            if error || maxRow ≤ rg.start + rg.count then []
            else scanUntil fails txn maxRow false (max vectorIndex (vectorsBelow maxRowGroupRow))
              maxRowGroupRow rgs

/-- The rows a REGULAR scan returns, with their row ids. -/
def scan (t : Collection α) (txn : TransactionData) : List (Nat × Option α) :=
  scanFrom txn t.totalRows true 0 0 t.rowGroups

def ScanFits (t : Collection α) (txn : TransactionData) : Prop :=
  ∀ p ∈ t.rowGroups.zipIdx, p.1.ScanFits txn p.2

instance (t : Collection α) (txn : TransactionData) : Decidable (t.ScanFits txn) :=
  inferInstanceAs (Decidable (∀ p ∈ t.rowGroups.zipIdx, p.1.ScanFits txn p.2))

/-- `scan_batched`, with a chunk for every vector; `none` if a buffer is overrun. -/
def scanBatched (t : Collection α) (txn : TransactionData) : Option (List (Nat × Option α)) :=
  if t.ScanFits txn then some (t.scan txn) else none

end Collection

/-! ## Lists by position -/

/-- Positions filtered by what stands there are the elements filtered. -/
theorem map_filter_range {β γ : Type} (l : List β) (base : Nat) (p : Nat → Bool)
    (f : Nat → γ) (q : β × Nat → Bool) (g : β × Nat → γ)
    (h : ∀ i x, l[i]? = some x → p i = q (x, base + i) ∧ f i = g (x, base + i)) :
    ((List.range l.length).filter p).map f = ((l.zipIdx base).filter q).map g := by
  induction l using List.reverseRecOn with
  | nil => rfl
  | append_singleton l x ih =>
    obtain ⟨hp, hf⟩ := h l.length x (by simp)
    have hinit := ih fun i y hy => h i y (by
      rw [List.getElem?_append_left (List.getElem?_eq_some_iff.mp hy).1]
      exact hy)
    rw [List.length_append, List.length_singleton, List.range_succ, List.filter_append,
      List.map_append, hinit, List.zipIdx_append, List.filter_append, List.map_append]
    congr 1
    simp only [List.zipIdx_singleton, List.filter_cons, List.filter_nil, hp]
    split
    · simp [hf]
    · rfl

/-! ## Tables in shape -/

/-- The positions the version info of row group `k` selects, with what is read there. -/
def RowGroup.select (rg : RowGroup α) (txn : TransactionData) (k : Nat) :
    List (Nat × Option α) :=
  (rg.indexingVector txn k rg.count).map fun i => (vectorCapacity * k + i, rg.read i)

/-- A row group without version info reads as one whose info is empty. -/
theorem RowGroup.indexingVector_eq (rg : RowGroup α) (txn : TransactionData) (k n : Nat) :
    rg.indexingVector txn k n = rg.getOrCreateVersionInfo.indexingVector txn k n := by
  unfold RowGroup.indexingVector RowGroup.getOrCreateVersionInfo
  cases rg.versionInfo <;> rfl

theorem RowGroup.select_empty {rg : RowGroup α} (hcount : rg.count = 0) (txn : TransactionData)
    (k : Nat) : rg.select txn k = [] := by
  have hnone : ∀ info : ChunkInfo, info.indexingVector txn 0 = [] := by
    intro info
    cases info with
    | constant a d => simp only [ChunkInfo.indexingVector, List.range_zero, ite_self]
    | vector v =>
      simp only [ChunkInfo.indexingVector, VectorInfo.indexingVector, List.range_zero,
        List.filter_nil, ite_self]
  unfold RowGroup.select RowGroup.indexingVector RowVersionManager.indexingVector
  rw [hcount]
  cases rg.versionInfo with
  | none => rfl
  | some versions =>
    dsimp only
    cases versions.getChunkInfo k with
    | none => rfl
    | some info =>
      dsimp only
      rw [hnone]
      rfl

/-- One row group in shape: its own vector, or the error. -/
theorem RowGroup.scanUntil_eq (rg : RowGroup α) (fails : Nat → Bool) (txn : TransactionData)
    {k : Nat} (hpos : 0 < rg.count) (hcap : rg.count ≤ vectorCapacity) :
    rg.scanUntil fails txn k (vectorCapacity * k + rg.count) =
      if (rg.select txn k).isEmpty || !fails k then (rg.select txn k, false) else ([], true) := by
  have hvectors : vectorsBelow (vectorCapacity * k + rg.count) = k + 1 := by
    unfold vectorsBelow
    unfold vectorCapacity at *
    omega
  have hmax : min vectorCapacity
      (vectorCapacity * k + rg.count - k * vectorCapacity) = rg.count := by
    rw [Nat.mul_comm k, Nat.add_sub_cancel_left]
    omega
  unfold RowGroup.scanUntil
  rw [hvectors, Nat.add_sub_cancel_left, List.range'_one, List.map_singleton]
  simp only [hmax]
  simp only [Nat.mul_comm k vectorCapacity]
  rw [← RowGroup.select]
  cases hread : (rg.select txn k).isEmpty || !fails k <;> simp [List.takeWhile, hread]

namespace Collection

variable {t : Collection α} {rows : List (Row α)}

/-- Row group `j` starts at row `1024 * j`, and all rows fill the row groups from
    the first on. -/
structure Shaped (t : Collection α) : Prop where
  start_eq : ∀ (j : Nat) (rg : RowGroup α), t.rowGroups[j]? = some rg →
    rg.start = vectorCapacity * j
  count_eq : ∀ (j : Nat) (rg : RowGroup α), t.rowGroups[j]? = some rg →
    rg.count = min vectorCapacity (t.totalRows - vectorCapacity * j)
  fits : t.totalRows ≤ vectorCapacity * t.rowGroups.length

theorem Shaped.count_le (h : t.Shaped) {j : Nat} {rg : RowGroup α}
    (hrg : t.rowGroups[j]? = some rg) : rg.count ≤ vectorCapacity := by
  rw [h.count_eq j rg hrg]
  exact Nat.min_le_left _ _

theorem Represents.shaped (h : t.Represents rows) : t.Shaped where
  start_eq j rg hrg := (h.holds j rg hrg).start_eq
  count_eq j rg hrg := by rw [h.total]; exact (h.holds j rg hrg).count_eq
  fits := by rw [h.total]; exact h.fits

/-- The row groups a scan gets through: it stops at the first one that has rows to
    read and cannot be read. -/
def readable (fails : Nat → Bool) (txn : TransactionData) (rgs : List (RowGroup α × Nat)) :
    List (RowGroup α × Nat) :=
  rgs.takeWhile fun p => (p.1.select txn p.2).isEmpty || !fails p.2

theorem readable_never (txn : TransactionData) (rgs : List (RowGroup α × Nat)) :
    readable (fun _ => false) txn rgs = rgs := by
  unfold readable
  rw [List.takeWhile_eq_self_iff]
  simp

/-- Row groups without rows yield nothing, read or not. -/
theorem flatMap_readable_empty {fails : Nat → Bool} {txn : TransactionData}
    {rgs : List (RowGroup α × Nat)} (hempty : ∀ p ∈ rgs, p.1.count = 0) :
    ((readable fails txn rgs).flatMap fun p => p.1.select txn p.2) = [] := by
  rw [List.flatMap_eq_nil_iff]
  intro p hp
  exact RowGroup.select_empty (hempty p ((List.takeWhile_sublist _).mem hp)) txn p.2

/-- The row groups from `k` on, with the vector index and the row bound that the
    row groups before them leave: each yields its own vector. -/
theorem Shaped.scanUntil_eq (h : t.Shaped) (fails : Nat → Bool) (txn : TransactionData)
    {rgs : List (RowGroup α)} (k : Nat)
    (hrgs : ∀ (i : Nat) (rg : RowGroup α), rgs[i]? = some rg → t.rowGroups[k + i]? = some rg)
    (hfits : t.totalRows ≤ vectorCapacity * (k + rgs.length)) :
    scanUntil fails txn t.totalRows false k (vectorCapacity * k) rgs =
      (readable fails txn (rgs.zipIdx k)).flatMap fun p => p.1.select txn p.2 := by
  induction rgs generalizing k with
  | nil => rfl
  | cons rg rgs ih =>
    have hrg : t.rowGroups[k]? = some rg := hrgs 0 rg rfl
    have hstart := h.start_eq k rg hrg
    have hcount := h.count_eq k rg hrg
    have hcap := vectorCapacity_pos
    have hnext : vectorCapacity * (k + 1) = vectorCapacity * k + vectorCapacity :=
      Nat.mul_succ _ _
    have hlater : ∀ (i : Nat) (other : RowGroup α), rgs[i]? = some other →
        t.rowGroups[k + 1 + i]? = some other := by
      intro i other hother
      have hgroup := hrgs (i + 1) other (by simpa using hother)
      rwa [Nat.add_assoc, Nat.add_comm 1 i]
    -- row groups behind the last row are empty
    have hbehind : t.totalRows ≤ vectorCapacity * (k + 1) →
        ∀ p ∈ rgs.zipIdx (k + 1), p.1.count = 0 := by
      rintro hend ⟨other, l⟩ hmem
      obtain ⟨hle, hother⟩ := List.mk_mem_zipIdx_iff_le_and_getElem?_sub.mp hmem
      have hlast := h.count_eq _ other (hlater (l - (k + 1)) other hother)
      have hmono : vectorCapacity * (k + 1) ≤ vectorCapacity * (k + 1 + (l - (k + 1))) :=
        Nat.mul_le_mul_left _ (Nat.le_add_right _ _)
      show other.count = 0
      omega
    unfold scanUntil
    by_cases hdone : t.totalRows ≤ vectorCapacity * k
    · -- no rows are left for this row group or for any behind it
      rw [if_pos (by simpa [hstart] using hdone), eq_comm]
      refine flatMap_readable_empty fun p hp => ?_
      rw [List.zipIdx_cons, List.mem_cons] at hp
      rcases hp with rfl | hp
      · show rg.count = 0
        omega
      · exact hbehind (by omega) p hp
    · have hbelow : rg.rowsBelow t.totalRows = rg.count := by
        unfold RowGroup.rowsBelow
        rw [if_neg (by omega), hstart]
        omega
      have hvectors : vectorsBelow (vectorCapacity * k + rg.count) = k + 1 := by
        unfold vectorsBelow
        unfold vectorCapacity at *
        omega
      have hone := rg.scanUntil_eq fails txn (k := k) (by omega) (by omega)
      simp only [hbelow, hvectors, hone, Bool.not_false, Bool.true_and, decide_eq_true_eq]
      rw [if_neg (by omega), if_neg (by omega), List.zipIdx_cons]
      unfold readable
      rw [List.takeWhile_cons]
      by_cases hread : ((rg.select txn k).isEmpty || !fails k) = true
      · simp only [hread, if_true, List.flatMap_cons, Bool.false_or, decide_eq_true_eq]
        congr 1
        by_cases hend : t.totalRows ≤ rg.start + rg.count
        · rw [if_pos hend]
          exact (flatMap_readable_empty (hbehind (by omega))).symm
        · have hfull : rg.count = vectorCapacity := by omega
          rw [if_neg hend, Nat.max_eq_right (by omega), hfull, ← hnext]
          refine ih (k + 1) hlater ?_
          rw [List.length_cons] at hfits
          rwa [Nat.add_assoc, Nat.add_comm 1]
      · simp [hread]

/-- An empty table opens no row group for the scan. -/
theorem scanUntil_empty (fails : Nat → Bool) (txn : TransactionData)
    (rgs : List (RowGroup α)) : scanUntil fails txn 0 true 0 0 rgs = [] := by
  induction rgs with
  | nil => rfl
  | cons rg rgs ih =>
    have hbelow : rg.rowsBelow 0 = 0 := by
      unfold RowGroup.rowsBelow
      split <;> simp
    unfold scanUntil
    simp [hbelow, ih]

/-- **The scan, vector by vector**, as far as it gets. -/
theorem Shaped.scanUntil_all (h : t.Shaped) (fails : Nat → Bool) (txn : TransactionData) :
    scanUntil fails txn t.totalRows true 0 0 t.rowGroups =
      (readable fails txn t.rowGroups.zipIdx).flatMap fun p => p.1.select txn p.2 := by
  have hall : ∀ (i : Nat) (rg : RowGroup α),
      t.rowGroups[i]? = some rg → t.rowGroups[0 + i]? = some rg := by
    intro i rg hrg
    rwa [Nat.zero_add]
  have hrest := h.scanUntil_eq fails txn 0 hall (by rw [Nat.zero_add]; exact h.fits)
  rw [Nat.mul_zero] at hrest
  rw [← hrest]
  cases hrgs : t.rowGroups with
  | nil => rfl
  | cons rg rgs =>
    have hrg : t.rowGroups[0]? = some rg := by rw [hrgs]; rfl
    have hstart := h.start_eq 0 rg hrg
    have hcount := h.count_eq 0 rg hrg
    rw [Nat.mul_zero] at hstart
    by_cases hempty : t.totalRows = 0
    · rw [hempty, scanUntil_empty]
      unfold scanUntil
      rw [if_pos (by simp [hstart])]
    · unfold scanUntil
      simp only [hstart, Bool.not_true, Bool.false_and, Bool.false_eq_true, if_false,
        Bool.not_false, Bool.true_and, decide_eq_true_eq]
      rw [if_neg (show ¬0 ≥ t.totalRows by omega)]
      have hpos : 0 + rg.rowsBelow t.totalRows ≠ 0 := by
        have hcap := vectorCapacity_pos
        unfold RowGroup.rowsBelow
        rw [if_neg (by omega), hstart]
        omega
      rw [if_neg hpos, if_neg hpos]

/-- With memory enough it is the scan. -/
theorem scanUntil_never (txn : TransactionData) (maxRow : Nat) (first : Bool)
    (vectorIndex maxRowGroupRow : Nat) (rgs : List (RowGroup α)) :
    scanUntil (fun _ => false) txn maxRow first vectorIndex maxRowGroupRow rgs =
      scanFrom txn maxRow first vectorIndex maxRowGroupRow rgs := by
  have hgroup : ∀ (rg : RowGroup α) (v m : Nat),
      rg.scanUntil (fun _ => false) txn v m = (rg.scan txn v m, false) := by
    intro rg v m
    unfold RowGroup.scanUntil RowGroup.scan
    simp only [Bool.not_false, Bool.or_true, List.takeWhile_eq_self_iff.mpr (fun _ _ => rfl),
      Nat.lt_irrefl, decide_false, List.flatMap_map]
  induction rgs generalizing first vectorIndex maxRowGroupRow with
  | nil => rfl
  | cons rg rgs ih =>
    unfold scanUntil scanFrom
    simp only [hgroup, ih, Bool.false_or, decide_eq_true_eq]

/-- **The scan, vector by vector.** -/
theorem Shaped.scan_eq (h : t.Shaped) (txn : TransactionData) :
    t.scan txn = t.rowGroups.zipIdx.flatMap fun p => p.1.select txn p.2 := by
  unfold scan
  rw [← scanUntil_never, h.scanUntil_all, readable_never]

end Collection

/-! ## What a scan sees -/

/-- A snapshot as the engine takes them: its id is no stamp of an absent delete,
    and commit id 0, which stamps replayed and compacted rows, is visible to it. -/
structure TransactionData.Proper (txn : TransactionData) : Prop where
  transactionId_ne : txn.transactionId ≠ notDeletedId
  zero_visible : useInsertedVersion txn 0 = true

/-- The see-all view. -/
theorem proper_seeAll : ({} : TransactionData).Proper := ⟨by decide, by decide⟩

namespace Collection

variable {t : Collection α} {rg : RowGroup α} {rows : List (Row α)} {j : Nat}

/-- The insert stamp that stands for the whole first row group, as long as its
    version info claims a single inserter. -/
def sharedInsertId (t : Collection α) : Option Nat :=
  match t.rowGroups.head? with
  | none => none
  | some rg =>
      match rg.getOrCreateVersionInfo.getChunkInfo 0 with
      | some (.vector v) => if v.sameInsertedId then some v.insertId else none
      | _ => none

/-- Row `r` is returned to the snapshot: past the first row group the insert
    stamp does not matter. -/
def shows (t : Collection α) (txn : TransactionData) (r : Nat) (row : Row α) : Bool :=
  (if r < vectorCapacity then useInsertedVersion txn (t.sharedInsertId.getD row.insertId)
    else true) &&
  useDeletedVersion txn row.deleteId

/-- The version info of row group `j` selects exactly the rows `shows` names. -/
theorem selects_iff {txn : TransactionData} (htxn : txn.Proper) (h : t.Represents rows)
    (hrg : t.rowGroups[j]? = some rg) :
    ∃ p : Nat → Bool, rg.indexingVector txn j rg.count = (List.range rg.count).filter p ∧
      ∀ i row, i < vectorCapacity → rows[vectorCapacity * j + i]? = some row →
        p i = t.shows txn (vectorCapacity * j + i) row := by
  have hhold := h.holds j rg hrg
  have hfiles := hhold.files
  have hlater : ∀ {i}, 0 < j → ¬vectorCapacity * j + i < vectorCapacity := by
    intro i hj
    have := Nat.mul_le_mul_left vectorCapacity hj
    omega
  rw [rg.indexingVector_eq]
  unfold RowVersionManager.indexingVector
  cases hslot : rg.getOrCreateVersionInfo.getChunkInfo j with
  | none =>
    refine ⟨fun _ => true, by simp, fun i row hi hrow => ?_⟩
    -- only a later row group can hold rows here; its rows carry no delete stamp
    have hj : 0 < j := by
      rcases Nat.eq_zero_or_pos j with rfl | hj
      · obtain ⟨info, hinfo, -⟩ := hfiles.inserts i row hi hrow
        rw [hslot] at hinfo
        cases hinfo
      · exact hj
    have hdelete := hfiles.deletes i hi
    rw [hslot, hrow] at hdelete
    have hdelete' : row.deleteId = notDeletedId := hdelete.symm
    unfold shows
    rw [if_neg (hlater hj), hdelete', useDeletedVersion_notDeletedId htxn.transactionId_ne]
    rfl
  | some info =>
    refine ⟨_, info.indexingVector_eq rg.count htxn.transactionId_ne, fun i row hi hrow => ?_⟩
    have hdelete := hfiles.deletes i hi
    rw [hslot, hrow] at hdelete
    have hdelete' : info.deletedAt i = row.deleteId := hdelete
    unfold shows
    rw [hdelete']
    congr 1
    rcases Nat.eq_zero_or_pos j with rfl | hj
    · obtain ⟨info', hinfo', hstamp⟩ := hfiles.inserts i row hi hrow
      rw [hslot, Option.some.injEq] at hinfo'
      subst hinfo'
      have hhead : t.rowGroups.head? = some rg := by
        rw [List.head?_eq_getElem?]
        exact hrg
      rw [if_pos (by omega)]
      unfold sharedInsertId
      simp only [hhead, hslot]
      cases info with
      | constant a d => exact congrArg _ hstamp
      | vector v =>
        simp only [ChunkInfo.consulted, VectorInfo.consulted]
        split
        · rfl
        · exact congrArg _ hstamp
    · rw [if_neg (hlater hj), hfiles.foreign hj info i hslot]
      exact htxn.zero_visible

/-- One vector of the scan. -/
theorem Represents.select_eq {txn : TransactionData} (htxn : txn.Proper) (h : t.Represents rows)
    (hrg : t.rowGroups[j]? = some rg) :
    rg.select txn j =
      ((((rows.drop (vectorCapacity * j)).take vectorCapacity).zipIdx
        (vectorCapacity * j)).filter fun p => t.shows txn p.2 p.1).map
          fun p => (p.2, some p.1.value) := by
  obtain ⟨p, hp, hshows⟩ := selects_iff htxn h hrg
  have hhold := h.holds j rg hrg
  have hpiece : ((rows.drop (vectorCapacity * j)).take vectorCapacity).length = rg.count := by
    rw [List.length_take, List.length_drop, hhold.count_eq]
  unfold RowGroup.select
  rw [hp, ← hpiece]
  refine map_filter_range _ _ _ _ _ _ fun i row hrow => ?_
  have hi : i < vectorCapacity := by
    have := (List.getElem?_eq_some_iff.mp hrow).1
    rw [List.length_take] at this
    omega
  rw [List.getElem?_take_of_lt hi, List.getElem?_drop] at hrow
  exact ⟨hshows i row hi hrow, by rw [hhold.reads i row hi hrow]⟩

/-- The vectors of the row groups from `k` on make up the rows from there on. -/
theorem Represents.flatMap_select {txn : TransactionData} (htxn : txn.Proper)
    (h : t.Represents rows) {rgs : List (RowGroup α)} (k : Nat)
    (hrgs : ∀ (i : Nat) (rg : RowGroup α), rgs[i]? = some rg → t.rowGroups[k + i]? = some rg)
    (hfits : rows.length ≤ vectorCapacity * (k + rgs.length)) :
    (rgs.zipIdx k).flatMap (fun p => p.1.select txn p.2) =
      (((rows.drop (vectorCapacity * k)).zipIdx (vectorCapacity * k)).filter fun p =>
        t.shows txn p.2 p.1).map fun p => (p.2, some p.1.value) := by
  induction rgs generalizing k with
  | nil =>
    rw [List.length_nil, Nat.add_zero] at hfits
    rw [List.drop_of_length_le hfits]
    rfl
  | cons rg rgs ih =>
    have hrest := ih (k + 1) (fun i other hother => by
      have := hrgs (i + 1) other (by simpa using hother)
      rwa [Nat.add_assoc, Nat.add_comm 1 i]) (by
      rw [List.length_cons] at hfits
      rwa [Nat.add_assoc, Nat.add_comm 1])
    have hfirst := h.select_eq htxn (show t.rowGroups[k]? = some rg from hrgs 0 rg rfl)
    rw [List.zipIdx_cons, List.flatMap_cons, hfirst, hrest]
    conv_rhs => rw [← List.take_append_drop vectorCapacity (rows.drop (vectorCapacity * k))]
    rw [List.zipIdx_append, List.filter_append, List.map_append, List.drop_drop,
      ← Nat.mul_succ]
    congr 1
    by_cases hfull : vectorCapacity * (k + 1) ≤ rows.length
    · have hpiece : vectorCapacity * k +
          ((rows.drop (vectorCapacity * k)).take vectorCapacity).length =
          vectorCapacity * (k + 1) := by
        rw [List.length_take, List.length_drop, Nat.mul_succ]
        rw [Nat.mul_succ] at hfull
        omega
      rw [hpiece]
    · -- nothing is left behind this row group
      rw [List.drop_of_length_le (by omega)]
      rfl

/-- **The scan.** In row order, every row the table shows to the snapshot. -/
theorem Represents.scan_eq {txn : TransactionData} (h : t.Represents rows) (htxn : txn.Proper) :
    t.scan txn = (rows.zipIdx.filter fun p => t.shows txn p.2 p.1).map
      fun p => (p.2, some p.1.value) := by
  have hall : ∀ (i : Nat) (rg : RowGroup α),
      t.rowGroups[i]? = some rg → t.rowGroups[0 + i]? = some rg := by
    intro i rg hrg
    rwa [Nat.zero_add]
  have hvectors := h.flatMap_select htxn 0 hall (by rw [Nat.zero_add]; exact h.fits)
  rw [Nat.mul_zero, List.drop_zero] at hvectors
  rw [h.shaped.scan_eq, ← hvectors]

end Collection
end Table
end Otterbrix
