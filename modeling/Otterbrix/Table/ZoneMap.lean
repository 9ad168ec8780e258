/-
  Otterbrix.Table.ZoneMap

  Zone maps over the life of a table.  `column_data_t::append` keeps the smallest and the
  largest value it has appended; a scan with a top-level comparison leaves a row group out
  if these bounds rule the comparison out.

  A checkpoint does not write the bounds, so after a load they start anew with the next
  append and say nothing of the rows before it.  And they pass NULLs over, while the
  comparison of a row looks at the value that is stored for one.
-/
import Mathlib.Data.List.ReduceOption
import Otterbrix.Table.FilteredScan
import Otterbrix.Table.SegmentFlush

namespace Otterbrix
namespace Table

variable {V : Type} [LinearOrder V]

/-! ## Appending to a column -/

namespace ColumnData

/-- The smallest and the largest value of a batch. -/
def batchBounds : List V → Option (V × V)
  | [] => none
  | x :: xs => some (xs.foldl (fun b v => (if v < b.1 then v else b.1, if b.2 < v then v else b.2)) (x, x))

/-- `base_statistics_t::update`: NULLs are passed over. -/
def updateStatistics (statistics : Option (V × V)) (cells : List (Option V)) : Option (V × V) :=
  match batchBounds cells.reduceOption, statistics with
  | none, _ => statistics
  | some batch, none => some batch
  | some batch, some (min, max) =>
      some (if batch.1 < min then batch.1 else min, if max < batch.2 then batch.2 else max)

/-- What a segment holds after an append.  For NULL that is 0, or for strings the empty string or
    the string before it. -/
def fill (nullValue : Option V → V) (data : List V) (cells : List (Option V)) : List V :=
  cells.foldl (fun data cell => data ++ [cell.getD (nullValue data.getLast?)]) data

/-- `append`: to the last segment if that can take rows, to a new one otherwise. -/
def append (nullValue : Option V → V) (c : ColumnData V) (cells : List (Option V)) : ColumnData V :=
  { c with
    segments :=
      match c.segments.getLast? with
      | some (.uncompressed data) => c.segments.dropLast ++ [.uncompressed (fill nullValue data cells)]
      | _ => c.segments ++ [.uncompressed (fill nullValue [] cells)]
    validity := c.validity ++ cells.map Option.isSome
    statistics := updateStatistics c.statistics cells }

/-- The overlay of a column after an update: the first one is stored, a later one merged. -/
def mergeInto {α : Type} (overlay values : List (Nat × α)) : Option (List (Nat × α)) :=
  if overlay.isEmpty then some values else RowGroup.mergeUpdate values overlay

/-- `update` of some rows, by their place in the row group. -/
def update (c : ColumnData V) (rows : List (Nat × Option V)) (nullValue : V) : Option (ColumnData V) := do
  let sorted := RowGroup.sortUpdates rows
  let updates ← mergeInto c.updates (sorted.map fun p => (p.1, p.2.getD nullValue))
  let validityUpdates ← mergeInto c.validityUpdates (sorted.map fun p => (p.1, p.2.isSome))
  return { c with updates, validityUpdates }

/-- What `initialize_column` and `initialize_column_validity` make of the pointers a checkpoint
    wrote: the segments, all rows valid, no updates and no statistics. -/
def load (typeSize : Option Nat) (c : ColumnData V) : ColumnData V where
  segments := c.segments.map (·.flush typeSize)
  validity := List.replicate (c.segments.map ColumnSegment.count).sum true

end ColumnData

/-! ## Tables over time -/

/-- A table, with the layout of its schema and what the last checkpoint wrote. -/
structure TableState (V : Type) where
  /-- the sizes of the columns' types -/
  types : List (Option Nat)
  versions : Collection Unit := {}
  columns : List (List (ColumnData V)) := []
  saved : Option (Collection Unit × List (List (ColumnData V))) := none

/-- The calls of the history of a table. -/
inductive ZoneOp (V : Type) where
  | append (rows : List (List (Option V))) (transactionId : Nat)
  | delete (ids : List Nat) (transactionId : Nat)
  | update (rowGroup column : Nat) (rows : List (Nat × Option V)) (nullValue : V)
  | checkpoint
  | load

namespace TableState

/-- The row groups with their columns. -/
def stored (s : TableState V) : StoredTable V where
  totalRows := s.versions.totalRows
  rowGroups := List.zipWith StoredRowGroup.mk s.versions.rowGroups s.columns

/-- The columns of a new row group. -/
def emptyColumns (s : TableState V) : List (ColumnData V) := s.types.map fun _ => {}

/-- Rows appended to the columns of a row group. -/
def appendRows (nullValue : Option V → V) (columns : List (ColumnData V))
    (rows : List (List (Option V))) : List (ColumnData V) :=
  if rows.isEmpty then columns
  else columns.mapIdx fun k c => c.append nullValue (rows.map (cell · k))

/-- The columns after an append: the last row group is filled up, the rest goes to new ones. -/
def appendColumns (nullValue : Option V → V) (s : TableState V) (rows : List (List (Option V))) :
    List (List (ColumnData V)) :=
  let room := vectorCapacity - s.versions.initializeAppend.2.count
  let rest := rows.drop room
  s.columns.dropLast ++
    appendRows nullValue (s.columns.getLast?.getD s.emptyColumns) (rows.take room) ::
      (List.range ((rest.length + (vectorCapacity - 1)) / vectorCapacity)).map fun k =>
        appendRows nullValue s.emptyColumns ((rest.drop (vectorCapacity * k)).take vectorCapacity)

/-- One call. -/
def step (nullValue : Option V → V) (s : TableState V) : ZoneOp V → Option (TableState V)
  | .append rows transactionId => do
      let versions ← s.versions.append (rows.map fun _ => ()) transactionId
      return { s with versions, columns := s.appendColumns nullValue rows }
  | .delete ids transactionId => do
      let (versions, _) ← s.versions.deleteRows ids transactionId
      return { s with versions }
  | .update rowGroup column rows value => do
      let columns ← s.columns[rowGroup]?
      let c ← columns[column]?
      let updated ← c.update rows value
      return { s with columns := s.columns.set rowGroup (columns.set column updated) }
  | .checkpoint => some { s with saved := some (s.versions, s.columns) }
  | .load => do
      let (versions, columns) ← s.saved
      return { s with
        versions := { versions with
          rowGroups := versions.rowGroups.map fun rg => { start := rg.start, count := rg.count } }
        columns := columns.map fun columns => List.zipWith ColumnData.load s.types columns }

def run (nullValue : Option V → V) (s : TableState V) (ops : List (ZoneOp V)) :
    Option (TableState V) := ops.foldlM (step nullValue) s

end TableState

/-! ## Pruned and unpruned scans -/

/-- The value a comparison of the row looks at. -/
def ColumnData.checked (c : ColumnData V) (row : Nat) : Option V :=
  if c.checksValidity row && !c.checkValidity row then none else c.value row

theorem ColumnData.checkPredicate_iff {c : ColumnData V} {type : CompareType} {constant : V}
    {row : Nat} : c.checkPredicate type constant row = true ↔
      ∃ x, c.checked row = some x ∧ type.Says x constant := by
  unfold ColumnData.checked
  cases hx : c.value row with
  | none =>
    have hfalse : c.checkPredicate type constant row = false := by
      unfold ColumnData.value at hx
      unfold ColumnData.checkPredicate
      cases hupdate : c.updates.lookup row with
      | some y => simp [hupdate] at hx
      | none =>
        simp only [hupdate] at hx
        cases hsegment : ColumnData.getSegment c.segments row with
        | none => rfl
        | some p =>
          rw [hsegment, Option.bind_some] at hx
          simp [hx]
    simp [hfalse]
  | some x =>
    rw [c.checkPredicate_eq hx, CompareType.compare_eq]
    cases c.checksValidity row <;> cases c.checkValidity row <;> simp

namespace StoredTable

/-- The same scan without zone maps. -/
def scanUnpruned (t : StoredTable V) (filter : TableFilter V) (txn : TransactionData) :
    List (Nat × List (Option V)) :=
  scanFrom (fun rg rowId => rg.checkPredicate rowId filter) txn t.totalRows true 0 0 t.rowGroups

/-- The statistics hold for the values that comparisons look at in the visible rows. -/
def Covered (t : StoredTable V) : Prop :=
  ∀ txn r rg i, (r, some (rg, i)) ∈ t.places.scan txn →
    ∀ c ∈ rg.columns, ∀ x, c.checked (r - rg.group.start) = some x → c.Covers x

omit [LinearOrder V] in
/-- Two selections of which one keeps less are equal only if they keep the same. -/
theorem eq_of_filterMap_eq {α β : Type} {f g : α → Option β} {l : List α}
    (hless : ∀ a ∈ l, f a = none ∨ f a = g a) (h : l.filterMap f = l.filterMap g) :
    ∀ a ∈ l, f a = g a := by
  have hcons : ∀ (f : α → Option β) a l, (a :: l).filterMap f = (f a).toList ++ l.filterMap f := by
    intro f a l
    rw [List.filterMap_cons]
    cases f a <;> rfl
  have hone : ∀ a, f a = none ∨ f a = g a → (f a).toList.length ≤ (g a).toList.length := by
    rintro a (hnone | hsame)
    · rw [hnone]
      exact Nat.zero_le _
    · rw [hsame]
  have hlength : ∀ l : List α, (∀ a ∈ l, f a = none ∨ f a = g a) →
      (l.filterMap f).length ≤ (l.filterMap g).length := by
    intro l hless
    induction l with
    | nil => exact Nat.le_refl _
    | cons a l ih =>
      rw [hcons, hcons, List.length_append, List.length_append]
      exact Nat.add_le_add (hone a (hless a List.mem_cons_self))
        (ih fun b hb => hless b (List.mem_cons_of_mem _ hb))
  induction l with
  | nil => exact fun a ha => absurd ha List.not_mem_nil
  | cons a l ih =>
    have hrest : ∀ b ∈ l, f b = none ∨ f b = g b := fun b hb => hless b (List.mem_cons_of_mem _ hb)
    rw [hcons, hcons] at h
    -- both parts are as long as they can be
    have hsum := congrArg List.length h
    rw [List.length_append, List.length_append] at hsum
    have hfirst := hone a (hless a List.mem_cons_self)
    have hshort := hlength l hrest
    obtain ⟨hhead, htail⟩ := List.append_inj h (by omega)
    intro b hb
    rcases List.mem_cons.mp hb with rfl | hb
    · rw [← Option.head?_toList (o := f b), hhead, Option.head?_toList]
    · exact ih hrest htail b hb

/-- **Pruning, exactly.**  The zone maps change no answer to a comparison exactly if the statistics
    hold for the values that comparisons look at. -/
theorem scan_eq_unpruned_iff (t : StoredTable V) :
    (∀ type constant column txn, t.scan (some (.leaf (.constant type constant column))) txn =
      t.scanUnpruned (.leaf (.constant type constant column)) txn) ↔ t.Covered := by
  have hunpruned : ∀ filter txn, t.scanUnpruned filter txn = (t.places.scan txn).filterMap
      (emit fun rg rowId => rg.checkPredicate rowId filter) := fun filter txn =>
    scanFrom_eq _ txn t.totalRows true 0 0 t.rowGroups
  -- a zone map only takes rows away
  have hless : ∀ filter (p : Nat × Option (StoredRowGroup V × Nat)),
      emit (·.passes (some filter)) p = none ∨ emit (·.passes (some filter)) p =
        emit (fun rg rowId => rg.checkPredicate rowId filter) p := by
    rintro filter ⟨r, _ | ⟨rg, i⟩⟩
    · exact .inl rfl
    · have hpasses : rg.passes (some filter) r =
          (rg.checkZonemapSegments filter && rg.checkPredicate r filter) := rfl
      simp only [emit, hpasses]
      by_cases hzone : rg.checkZonemapSegments filter = true
      · exact .inr (by rw [hzone, Bool.true_and])
      · exact .inl (by rw [Bool.eq_false_iff.mpr hzone, Bool.false_and, if_neg Bool.false_ne_true])
  constructor
  · intro h txn r rg i hplace c hc x hx
    by_contra hout
    obtain ⟨column, hcolumn⟩ := List.mem_iff_getElem?.mp hc
    have heq := h .eq x column txn
    rw [t.scan_eq, hunpruned] at heq
    have hsame := eq_of_filterMap_eq (fun p _ => hless _ p) heq _ hplace
    have hcheck : rg.checkPredicate r (.leaf (.constant .eq x column)) = true := by
      simp only [StoredRowGroup.checkPredicate, Formula.eval, StoredRowGroup.checkLeaf, hcolumn]
      exact ColumnData.checkPredicate_iff.mpr ⟨x, hx, rfl⟩
    simp only [emit, StoredRowGroup.passes, StoredRowGroup.checkZonemapSegments, hcolumn,
      ColumnData.checkZonemap_of_not_covers hout, hcheck] at hsame
    exact absurd hsame (by simp)
  · intro h type constant column txn
    rw [t.scan_eq, hunpruned]
    refine List.filterMap_congr ?_
    rintro ⟨r, place⟩ hplace
    cases place with
    | none => rfl
    | some place =>
      obtain ⟨rg, i⟩ := place
      simp only [emit]
      refine if_congr ?_ rfl rfl
      show (rg.checkZonemapSegments _ && rg.checkPredicate r _) = true ↔ _
      rw [Bool.and_eq_true]
      refine and_iff_right_of_imp fun hcheck => ?_
      simp only [StoredRowGroup.checkPredicate, Formula.eval, StoredRowGroup.checkLeaf] at hcheck
      unfold StoredRowGroup.checkZonemapSegments
      cases hcolumn : rg.columns[column]? with
      | none => simp [hcolumn] at hcheck
      | some c =>
        simp only [hcolumn] at hcheck
        obtain ⟨x, hx, hsays⟩ := ColumnData.checkPredicate_iff.mp hcheck
        have hcovers := h txn r rg i hplace c (List.mem_of_getElem? hcolumn) x hx
        simp only [hcolumn, decide_eq_true_eq]
        exact fun hpruned => ColumnData.not_says_of_checkZonemap hpruned hcovers hsays

theorem eq_of_mem_scan_places {V : Type} {txn : TransactionData} {vectorIndex maxRowGroupRow : Nat}
    {group rg : StoredRowGroup V} {r i : Nat}
    (h : (r, some (rg, i)) ∈ group.places.scan txn vectorIndex maxRowGroupRow) : rg = group := by
  obtain ⟨v, -, hv⟩ := List.mem_flatMap.mp h
  obtain ⟨j, -, hj⟩ := List.mem_map.mp hv
  rw [Prod.mk.injEq] at hj
  have hread := hj.2
  unfold RowGroup.read StoredRowGroup.places at hread
  rw [List.lookup_nil] at hread
  dsimp only at hread
  rw [List.getElem?_map] at hread
  obtain ⟨k, -, hk⟩ := Option.map_eq_some_iff.mp hread
  exact (Prod.mk.inj hk).1.symm

/-- A scan comes to rows of the row groups only. -/
theorem mem_of_mem_scanFrom {V : Type} {txn : TransactionData} {maxRow : Nat} {first : Bool}
    {vectorIndex maxRowGroupRow : Nat} {rgs : List (StoredRowGroup V)} {r i : Nat}
    {rg : StoredRowGroup V}
    (h : (r, some (rg, i)) ∈ Collection.scanFrom txn maxRow first vectorIndex maxRowGroupRow
      (rgs.map StoredRowGroup.places)) : rg ∈ rgs := by
  induction rgs generalizing first vectorIndex maxRowGroupRow with
  | nil => exact absurd h List.not_mem_nil
  | cons group rgs ih =>
    rw [List.map_cons, Collection.scanFrom] at h
    dsimp only at h
    split at h
    · exact absurd h List.not_mem_nil
    split at h
    · exact List.mem_cons_of_mem _ (ih h)
    rcases List.mem_append.mp h with hgroup | hrest
    · exact List.mem_cons.mpr (.inl (eq_of_mem_scan_places hgroup))
    split at hrest
    · exact absurd hrest List.not_mem_nil
    · exact List.mem_cons_of_mem _ (ih hrest)

end StoredTable

/-! ## Bounds over time -/

/-- The values a segment stores. -/
def ColumnSegment.stored {V : Type} : ColumnSegment V → List V
  | .uncompressed data => data
  | .constant value _ => [value]
  | .rle runs => runs.map Prod.fst
  | .dictionary values _ => values

theorem ColumnSegment.mem_stored {V : Type} {s : ColumnSegment V} {row : Nat} {x : V}
    (h : s.fetchRow row = some x) : x ∈ s.stored := by
  cases s with
  | uncompressed data => exact List.mem_of_getElem? h
  | constant value count => exact List.mem_singleton.mpr (Option.some.inj h).symm
  | rle runs =>
    have h : rleFetchRow runs row = some x := h
    induction runs generalizing row with
    | nil => exact absurd h (Option.some_ne_none _).symm
    | cons run runs ih =>
      rw [rleFetchRow] at h
      split at h
      · exact List.mem_cons.mpr (.inl (Option.some.inj h).symm)
      · exact List.mem_cons_of_mem _ (ih h h)
  | dictionary values indices =>
    obtain ⟨index, -, hx⟩ := Option.bind_eq_some_iff.mp h
    exact List.mem_of_getElem? hx

namespace ColumnData

theorem mem_of_getSegment {V : Type} {segments : List (ColumnSegment V)} {row : Nat}
    {p : ColumnSegment V × Nat} (h : getSegment segments row = some p) : p.1 ∈ segments := by
  induction segments generalizing row with
  | nil => exact absurd h (Option.some_ne_none _).symm
  | cons s segments ih =>
    rw [getSegment] at h
    split at h
    · rw [← Option.some.inj h]
      exact List.mem_cons_self
    · exact List.mem_cons_of_mem _ (ih h)

/-- The statistics, if there are any, hold for all values of the segments. -/
def Bounded (c : ColumnData V) : Prop :=
  ∀ min max, c.statistics = some (min, max) → ∀ s ∈ c.segments, ∀ x ∈ s.stored, min ≤ x ∧ x ≤ max

theorem Bounded.covers {c : ColumnData V} (h : c.Bounded) {row : Nat} {x : V}
    (hx : c.checked row = some x) : c.Covers x := by
  intro min max hstatistics hupdates
  have hvalue : c.value row = some x := by
    unfold checked at hx
    split at hx
    · exact absurd hx (Option.some_ne_none _).symm
    · exact hx
  unfold value at hvalue
  rw [List.isEmpty_iff.mp hupdates, List.lookup_nil] at hvalue
  obtain ⟨p, hp, hfetch⟩ := Option.bind_eq_some_iff.mp hvalue
  exact h min max hstatistics p.1 (mem_of_getSegment hp) x (ColumnSegment.mem_stored hfetch)

theorem batchBounds_spec {xs : List V} {bounds : V × V} (h : batchBounds xs = some bounds) :
    ∀ x ∈ xs, bounds.1 ≤ x ∧ x ≤ bounds.2 := by
  -- the bounds only widen along the batch
  have hfold : ∀ (xs : List V) (b : V × V),
      let r := xs.foldl (fun b v => (if v < b.1 then v else b.1, if b.2 < v then v else b.2)) b
      (r.1 ≤ b.1 ∧ b.2 ≤ r.2) ∧ ∀ x ∈ xs, r.1 ≤ x ∧ x ≤ r.2 := by
    intro xs
    induction xs with
    | nil => exact fun b => ⟨⟨le_refl _, le_refl _⟩, fun x hx => absurd hx List.not_mem_nil⟩
    | cons v xs ih =>
      intro b
      obtain ⟨⟨hmin, hmax⟩, hrest⟩ := ih (if v < b.1 then v else b.1, if b.2 < v then v else b.2)
      have hminB : (if v < b.1 then v else b.1) ≤ b.1 ∧ (if v < b.1 then v else b.1) ≤ v := by
        split
        · next hlt => exact ⟨hlt.le, le_refl _⟩
        · next hge => exact ⟨le_refl _, not_lt.mp hge⟩
      have hmaxB : b.2 ≤ (if b.2 < v then v else b.2) ∧ v ≤ (if b.2 < v then v else b.2) := by
        split
        · next hlt => exact ⟨hlt.le, le_refl _⟩
        · next hge => exact ⟨le_refl _, not_lt.mp hge⟩
      refine ⟨⟨hmin.trans hminB.1, hmaxB.1.trans hmax⟩, fun x hx => ?_⟩
      rcases List.mem_cons.mp hx with rfl | hx
      · exact ⟨hmin.trans hminB.2, hmaxB.2.trans hmax⟩
      · exact hrest x hx
  cases xs with
  | nil => exact absurd h (Option.some_ne_none _).symm
  | cons x xs =>
    obtain ⟨⟨hmin, hmax⟩, hrest⟩ := hfold xs (x, x)
    rw [← Option.some.inj h]
    intro y hy
    rcases List.mem_cons.mp hy with rfl | hy
    · exact ⟨hmin, hmax⟩
    · exact hrest y hy

/-- Statistics after an update hold for the new values and for all that they held for. -/
theorem updateStatistics_spec {statistics : Option (V × V)} {cells : List (Option V)} {min max : V}
    (h : updateStatistics statistics cells = some (min, max)) :
    (∀ x, some x ∈ cells → min ≤ x ∧ x ≤ max) ∧
      ∀ lo hi, statistics = some (lo, hi) → min ≤ lo ∧ hi ≤ max := by
  have hmem : ∀ x, some x ∈ cells → x ∈ cells.reduceOption := fun x hx =>
    List.reduceOption_mem_iff.mpr hx
  unfold updateStatistics at h
  cases hbatch : batchBounds cells.reduceOption with
  | none =>
    have hempty : cells.reduceOption = [] := by
      cases hcells : cells.reduceOption with
      | nil => rfl
      | cons x xs =>
        rw [hcells] at hbatch
        exact absurd hbatch (Option.some_ne_none _)
    simp only [hbatch] at h
    refine ⟨fun x hx => ?_, fun lo hi hold => ?_⟩
    · have hx := hmem x hx
      rw [hempty] at hx
      exact absurd hx List.not_mem_nil
    · obtain ⟨rfl, rfl⟩ := Prod.mk.inj (Option.some.inj (hold.symm.trans h))
      exact ⟨le_refl _, le_refl _⟩
  | some batch =>
    have hspec := batchBounds_spec hbatch
    cases statistics with
    | none =>
      simp only [hbatch, Option.some.injEq] at h
      subst h
      exact ⟨fun x hx => hspec x (hmem x hx), fun lo hi hold => absurd hold.symm (Option.some_ne_none _)⟩
    | some old =>
      obtain ⟨lo, hi⟩ := old
      simp only [hbatch, Option.some.injEq, Prod.mk.injEq] at h
      obtain ⟨rfl, rfl⟩ := h
      have hlo : (if batch.1 < lo then batch.1 else lo) ≤ batch.1 ∧
          (if batch.1 < lo then batch.1 else lo) ≤ lo := by
        split
        · next hlt => exact ⟨le_refl _, hlt.le⟩
        · next hge => exact ⟨not_lt.mp hge, le_refl _⟩
      have hhi : batch.2 ≤ (if hi < batch.2 then batch.2 else hi) ∧
          hi ≤ (if hi < batch.2 then batch.2 else hi) := by
        split
        · next hlt => exact ⟨le_refl _, hlt.le⟩
        · next hge => exact ⟨not_lt.mp hge, le_refl _⟩
      refine ⟨fun x hx => ?_, fun lo' hi' hold => ?_⟩
      · obtain ⟨hmin, hmax⟩ := hspec x (hmem x hx)
        exact ⟨hlo.1.trans hmin, hmax.trans hhi.1⟩
      · obtain ⟨rfl, rfl⟩ := Prod.mk.inj (Option.some.inj hold)
        exact ⟨hlo.2, hhi.2⟩

omit [LinearOrder V] in
/-- Without NULLs an append stores the values it is given. -/
theorem mem_fill {nullValue : Option V → V} {data : List V} {cells : List (Option V)}
    (hcells : ∀ cell ∈ cells, cell.isSome) {x : V} (hx : x ∈ fill nullValue data cells) :
    x ∈ data ∨ some x ∈ cells := by
  induction cells generalizing data with
  | nil => exact .inl hx
  | cons cell cells ih =>
    obtain ⟨y, rfl⟩ := Option.isSome_iff_exists.mp (hcells cell List.mem_cons_self)
    have hrest : ∀ cell ∈ cells, cell.isSome := fun cell hcell =>
      hcells cell (List.mem_cons_of_mem _ hcell)
    rcases ih hrest hx with hdata | hlater
    · rcases List.mem_append.mp hdata with hold | hnew
      · exact .inl hold
      · rw [List.mem_singleton.mp hnew]
        exact .inr List.mem_cons_self
    · exact .inr (List.mem_cons_of_mem _ hlater)

/-- The statistics say something of every row that is there. -/
def Surveyed (c : ColumnData V) : Prop := c.segments = [] ∨ c.statistics.isSome

/-- What a segment holds after an append was stored before or is appended. -/
theorem mem_append_stored {nullValue : Option V → V} {c : ColumnData V} {cells : List (Option V)}
    (hcells : ∀ cell ∈ cells, cell.isSome) {s : ColumnSegment V}
    (hs : s ∈ (c.append nullValue cells).segments) {x : V} (hx : x ∈ s.stored) :
    (∃ s ∈ c.segments, x ∈ s.stored) ∨ some x ∈ cells := by
  have hfilled : ∀ data : List V, ColumnSegment.uncompressed data ∈ c.segments ∨ data = [] →
      x ∈ fill nullValue data cells → (∃ s ∈ c.segments, x ∈ s.stored) ∨ some x ∈ cells := by
    intro data hdata hx
    rcases mem_fill hcells hx with hold | hnew
    · rcases hdata with hmem | rfl
      · exact .inl ⟨_, hmem, hold⟩
      · exact absurd hold List.not_mem_nil
    · exact .inr hnew
  unfold append at hs
  dsimp only at hs
  split at hs
  · next data hlast =>
    rcases List.mem_append.mp hs with hkept | hgrown
    · exact .inl ⟨s, List.dropLast_subset _ hkept, hx⟩
    · rw [List.mem_singleton.mp hgrown] at hx
      exact hfilled data (.inl (List.mem_of_getLast? hlast)) hx
  · rcases List.mem_append.mp hs with hkept | hnew
    · exact .inl ⟨s, hkept, hx⟩
    · rw [List.mem_singleton.mp hnew] at hx
      exact hfilled [] (.inr rfl) hx

/-- An append of values keeps the bounds if they held for all rows before. -/
theorem Bounded.append {nullValue : Option V → V} {c : ColumnData V} (h : c.Bounded)
    (hc : c.Surveyed) {cells : List (Option V)} (hcells : ∀ cell ∈ cells, cell.isSome) :
    (c.append nullValue cells).Bounded := by
  intro min max hstatistics s hs x hx
  obtain ⟨hnew, hold⟩ := updateStatistics_spec hstatistics
  rcases mem_append_stored hcells hs hx with ⟨s, hs, hx⟩ | hcell
  · -- there are rows already, so there are statistics of them
    rcases hc with hempty | hsome
    · rw [hempty] at hs
      exact absurd hs List.not_mem_nil
    · obtain ⟨⟨lo, hi⟩, hold'⟩ := Option.isSome_iff_exists.mp hsome
      obtain ⟨hmin, hmax⟩ := hold lo hi hold'
      obtain ⟨hlo, hhi⟩ := h lo hi hold' s hs x hx
      exact ⟨hmin.trans hlo, hhi.trans hmax⟩
  · exact hnew x hcell

theorem Bounded.update {c c' : ColumnData V} (h : c.Bounded) {rows : List (Nat × Option V)}
    {nullValue : V} (hc : c.update rows nullValue = some c') : c'.Bounded := by
  obtain ⟨updates, -, hc⟩ := Option.bind_eq_some_iff.mp hc
  obtain ⟨validityUpdates, -, hc⟩ := Option.bind_eq_some_iff.mp hc
  rw [← Option.some.inj hc]
  exact h

theorem bounded_load (typeSize : Option Nat) (c : ColumnData V) : (c.load typeSize).Bounded :=
  fun _ _ hstatistics => absurd hstatistics.symm (Option.some_ne_none _)

theorem bounded_empty : ({} : ColumnData V).Bounded :=
  fun _ _ hstatistics => absurd hstatistics.symm (Option.some_ne_none _)

end ColumnData

namespace TableState

/-- The bounds of all columns hold, and no row group has more columns than the schema. -/
structure Bounded (s : TableState V) : Prop where
  column : ∀ columns ∈ s.columns, ∀ c ∈ columns, c.Bounded
  width : ∀ columns ∈ s.columns, columns.length ≤ s.types.length

/-- The rows of an append have no NULL, and if some go to the last row group its columns have
    statistics or are empty. -/
def Tidy (s : TableState V) : ZoneOp V → Prop
  | .append rows _ =>
      (∀ row ∈ rows, ∀ k < s.types.length, (cell row k).isSome) ∧
        (rows.take (vectorCapacity - s.versions.initializeAppend.2.count) ≠ [] →
          ∀ columns, s.columns.getLast? = some columns → ∀ c ∈ columns, c.Surveyed)
  | _ => True

/-- Every call of a history is tidy where it is made. -/
def TidyRun (nullValue : Option V → V) (s : TableState V) : List (ZoneOp V) → Prop
  | [] => True
  | op :: ops => s.Tidy op ∧ ∀ s', s.step nullValue op = some s' → TidyRun nullValue s' ops

variable {nullValue : Option V → V} {s s' : TableState V} {rows : List (List (Option V))}

/-- Rows without NULL, appended to the columns of a row group. -/
theorem appendRows_spec {columns : List (ColumnData V)} {width : Nat}
    (hwidth : columns.length ≤ width) (hbounded : ∀ c ∈ columns, c.Bounded)
    (hsurveyed : rows ≠ [] → ∀ c ∈ columns, c.Surveyed)
    (hrows : ∀ row ∈ rows, ∀ k < width, (cell row k).isSome) :
    (∀ c ∈ appendRows nullValue columns rows, c.Bounded) ∧
      (appendRows nullValue columns rows).length ≤ width := by
  unfold appendRows
  by_cases hempty : rows = []
  · rw [if_pos (List.isEmpty_iff.mpr hempty)]
    exact ⟨hbounded, hwidth⟩
  rw [if_neg fun h => hempty (List.isEmpty_iff.mp h)]
  refine ⟨fun c hc => ?_, by rwa [List.length_mapIdx]⟩
  obtain ⟨k, hk, rfl⟩ := List.mem_mapIdx.mp hc
  have hmem := List.getElem_mem hk
  refine (hbounded _ hmem).append (hsurveyed hempty _ hmem) fun cell hcell => ?_
  obtain ⟨row, hrow, rfl⟩ := List.mem_map.mp hcell
  exact hrows row hrow k (Nat.lt_of_lt_of_le hk hwidth)

/-- The columns of a new row group. -/
theorem emptyColumns_spec (s : TableState V) : s.emptyColumns.length ≤ s.types.length ∧
    (∀ c ∈ s.emptyColumns, c.Bounded) ∧ ∀ c ∈ s.emptyColumns, c.Surveyed := by
  have hempty : ∀ c ∈ s.emptyColumns, c = {} := fun c hc => by
    obtain ⟨_, -, rfl⟩ := List.mem_map.mp hc
    rfl
  refine ⟨Nat.le_of_eq (List.length_map ..), fun c hc => ?_, fun c hc => ?_⟩
  · rw [hempty c hc]
    exact ColumnData.bounded_empty
  · rw [hempty c hc]
    exact .inl rfl

/-- The bounds after a tidy append. -/
theorem Bounded.appendColumns (h : s.Bounded) {transactionId : Nat}
    (htidy : s.Tidy (.append rows transactionId)) :
    ∀ columns ∈ s.appendColumns nullValue rows,
      (∀ c ∈ columns, c.Bounded) ∧ columns.length ≤ s.types.length := by
  obtain ⟨hrows, hlast⟩ := htidy
  obtain ⟨hlength, hbounded, hsurveyed⟩ := s.emptyColumns_spec
  intro columns hcolumns
  unfold TableState.appendColumns at hcolumns
  rcases List.mem_append.mp hcolumns with hkept | hnew
  · have hkept := List.dropLast_subset _ hkept
    exact ⟨h.column columns hkept, h.width columns hkept⟩
  rcases List.mem_cons.mp hnew with rfl | hnew
  · -- the last row group is filled up
    cases hget : s.columns.getLast? with
    | none =>
      exact appendRows_spec hlength hbounded (fun _ => hsurveyed) fun row hrow =>
        hrows row (List.mem_of_mem_take hrow)
    | some columns =>
      have hmem := List.mem_of_getLast? hget
      exact appendRows_spec (h.width columns hmem) (h.column columns hmem)
        (fun hne => hlast hne columns hget) fun row hrow => hrows row (List.mem_of_mem_take hrow)
  · obtain ⟨k, -, rfl⟩ := List.mem_map.mp hnew
    exact appendRows_spec hlength hbounded (fun _ => hsurveyed) fun row hrow =>
      hrows row (List.mem_of_mem_drop (List.mem_of_mem_drop (List.mem_of_mem_take hrow)))

/-- **One tidy call keeps the bounds.** -/
theorem Bounded.step (h : s.Bounded) {op : ZoneOp V} (htidy : s.Tidy op)
    (hs : s.step nullValue op = some s') : s'.Bounded := by
  cases op with
  | append rows transactionId =>
    obtain ⟨versions, -, hs⟩ := Option.bind_eq_some_iff.mp hs
    rw [← Option.some.inj hs]
    exact ⟨fun columns hcolumns => (h.appendColumns htidy columns hcolumns).1,
      fun columns hcolumns => (h.appendColumns htidy columns hcolumns).2⟩
  | delete ids transactionId =>
    obtain ⟨⟨versions, deleted⟩, -, hs⟩ := Option.bind_eq_some_iff.mp hs
    rw [← Option.some.inj hs]
    exact ⟨h.column, h.width⟩
  | update rowGroup column rows value =>
    obtain ⟨columns, hcolumns, hs⟩ := Option.bind_eq_some_iff.mp hs
    obtain ⟨c, hc, hs⟩ := Option.bind_eq_some_iff.mp hs
    obtain ⟨updated, hupdated, hs⟩ := Option.bind_eq_some_iff.mp hs
    rw [← Option.some.inj hs]
    have hmem := List.mem_of_getElem? hcolumns
    have hnew := (h.column columns hmem c (List.mem_of_getElem? hc)).update hupdated
    refine ⟨fun group hgroup d hd => ?_, fun group hgroup => ?_⟩
    · rcases List.mem_or_eq_of_mem_set hgroup with hgroup | rfl
      · exact h.column group hgroup d hd
      · rcases List.mem_or_eq_of_mem_set hd with hd | rfl
        · exact h.column columns hmem d hd
        · exact hnew
    · rcases List.mem_or_eq_of_mem_set hgroup with hgroup | rfl
      · exact h.width group hgroup
      · rw [List.length_set]
        exact h.width columns hmem
  | checkpoint =>
    rw [← Option.some.inj hs]
    exact ⟨h.column, h.width⟩
  | load =>
    obtain ⟨⟨versions, columns⟩, -, hs⟩ := Option.bind_eq_some_iff.mp hs
    rw [← Option.some.inj hs]
    refine ⟨fun group hgroup d hd => ?_, fun group hgroup => ?_⟩
    · obtain ⟨saved, -, rfl⟩ := List.mem_map.mp hgroup
      obtain ⟨k, hk, rfl⟩ := List.mem_iff_getElem.mp hd
      rw [List.getElem_zipWith]
      exact ColumnData.bounded_load _ _
    · obtain ⟨saved, -, rfl⟩ := List.mem_map.mp hgroup
      rw [List.length_zipWith]
      exact Nat.min_le_left _ _

theorem Bounded.run (h : s.Bounded) {ops : List (ZoneOp V)} (htidy : s.TidyRun nullValue ops)
    (hs : s.run nullValue ops = some s') :
    s'.Bounded := by
  induction ops generalizing s with
  | nil => rwa [← Option.some.inj hs]
  | cons op ops ih =>
    obtain ⟨s₁, hstep, hrest⟩ := Option.bind_eq_some_iff.mp ((List.foldlM_cons ..).symm.trans hs)
    exact ih (h.step htidy.1 hstep) (htidy.2 s₁ hstep) hrest

theorem Bounded.covered (h : s.Bounded) : s.stored.Covered := by
  intro txn r rg i hplace c hc x hx
  refine ColumnData.Bounded.covers ?_ hx
  have hrg : rg ∈ s.stored.rowGroups := StoredTable.mem_of_mem_scanFrom hplace
  obtain ⟨k, hk⟩ := List.mem_iff_getElem?.mp hrg
  obtain ⟨group, columns, -, hcolumns, rfl⟩ := List.getElem?_zipWith_eq_some.mp hk
  exact h.column columns (List.mem_of_getElem? hcolumns) c hc

end TableState

end Table
end Otterbrix
