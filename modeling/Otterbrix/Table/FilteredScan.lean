/-
  Otterbrix.Table.FilteredScan

  A REGULAR scan with a filter.  In every vector the rows the version info selects are put
  to `row_group_t::check_predicate`, unless the zone map of the row group rules a top-level
  comparison out.

  The predicate is evaluated in two values, and a comparison looks at the value a segment
  holds at the place of a NULL.  So the scan returns the rows on which the predicate is TRUE,
  for all predicates, exactly if no visible row has a NULL and the statistics hold for the
  values of the visible rows.
-/
import Otterbrix.Table.Scan
import Otterbrix.Table.ColumnData

namespace Otterbrix
namespace Table

variable {V : Type}

/-! ## The scan -/

/-- A row group with its columns. -/
structure StoredRowGroup (V : Type) where
  group : RowGroup Unit
  columns : List (ColumnData V)

/-- A collection whose row groups have columns. -/
structure StoredTable (V : Type) where
  totalRows : Nat := 0
  rowGroups : List (StoredRowGroup V) := []

/-- A table in shape: row groups of 1024 rows, the last one shorter, all with the same columns, and
    every column with a value at every row. -/
structure SoundTable (V : Type) extends StoredTable V where
  width : Nat
  shaped : Collection.Shaped ⟨totalRows, rowGroups.map StoredRowGroup.group⟩
  columns_length : ∀ rg ∈ rowGroups, rg.columns.length = width
  complete : ∀ rg ∈ rowGroups, ∀ c ∈ rg.columns, ∀ i < rg.group.count, (c.value i).isSome

namespace StoredRowGroup

/-- The cells of a row. -/
def row (rg : StoredRowGroup V) (i : Nat) : List (Option V) := rg.columns.map (·.fetchRow i)

variable [LinearOrder V]

/-- `check_predicate` of a leaf, at a row of the row group. -/
def checkLeaf (rg : StoredRowGroup V) (i : Nat) : FilterLeaf V → Bool
  | .constant type constant column =>
      match rg.columns[column]? with
      | none => false
      | some c => c.checkPredicate type constant i
  | .isNull column =>
      match rg.columns[column]? with
      | none => false
      | some c => !c.checkValidity i
  | .isNotNull column =>
      match rg.columns[column]? with
      | none => false
      | some c => c.checkValidity i

/-- `check_predicate`: OR, AND and NOT stop at the first child that decides. -/
def checkPredicate (rg : StoredRowGroup V) (rowId : Nat) (filter : TableFilter V) : Bool :=
  filter.eval (rg.checkLeaf (rowId - rg.group.start))

/-- `check_zonemap_segments`: `false` if the zone map rules a top-level comparison out. -/
def checkZonemapSegments (rg : StoredRowGroup V) : TableFilter V → Bool
  | .leaf (.constant type constant column) =>
      match rg.columns[column]? with
      | none => true
      | some c => decide (c.checkZonemap type constant ≠ .alwaysFalse)
  | _ => true

/-- A row gets through the zone map and the filter, if there is one. -/
def passes (rg : StoredRowGroup V) (filter : Option (TableFilter V)) (rowId : Nat) : Bool :=
  match filter with
  | none => true
  | some f => rg.checkZonemapSegments f && rg.checkPredicate rowId f

end StoredRowGroup

/-- `templated_scan`, called until the row group is exhausted; `keep` tells the rows that get
    through the zone map and the filter. -/
def StoredRowGroup.scan (rg : StoredRowGroup V) (keep : Nat → Bool) (txn : TransactionData)
    (vectorIndex maxRowGroupRow : Nat) : List (Nat × List (Option V)) :=
  (List.range' vectorIndex (vectorsBelow maxRowGroupRow - vectorIndex)).flatMap fun v =>
    let maxCount := min vectorCapacity (maxRowGroupRow - v * vectorCapacity)
    ((rg.group.indexingVector txn v maxCount).filter fun i =>
      keep (v * vectorCapacity + i)).map fun i => (v * vectorCapacity + i, rg.row i)

namespace StoredTable

/-- `collection_scan_state::scan`, as `Collection.scanFrom`. -/
def scanFrom (keep : StoredRowGroup V → Nat → Bool) (txn : TransactionData) (maxRow : Nat) :
    Bool → Nat → Nat → List (StoredRowGroup V) → List (Nat × List (Option V))
  | _, _, _, [] => []
  | first, vectorIndex, maxRowGroupRow, rg :: rgs =>
      if !first && rg.group.start ≥ maxRow then []
      else
        let maxRowGroupRow := maxRowGroupRow + rg.group.rowsBelow maxRow
        if maxRowGroupRow = 0 then
          scanFrom keep txn maxRow first vectorIndex maxRowGroupRow rgs
        else
          rg.scan (keep rg) txn vectorIndex maxRowGroupRow ++
            if maxRow ≤ rg.group.start + rg.group.count then []
            else scanFrom keep txn maxRow false (max vectorIndex (vectorsBelow maxRowGroupRow))
              maxRowGroupRow rgs

/-- The rows a scan returns, with their row ids. -/
def scan [LinearOrder V] (t : StoredTable V) (filter : Option (TableFilter V))
    (txn : TransactionData) : List (Nat × List (Option V)) :=
  scanFrom (·.passes filter) txn t.totalRows true 0 0 t.rowGroups

end StoredTable

/-! ## The scan, row by row -/

/-- A row group whose rows are their places in it. -/
def StoredRowGroup.places (rg : StoredRowGroup V) : RowGroup (StoredRowGroup V × Nat) where
  start := rg.group.start
  count := rg.group.count
  versionInfo := rg.group.versionInfo
  currentVersion := rg.group.currentVersion
  columns := (List.range vectorCapacity).map fun i => (rg, i)

namespace StoredTable

/-- The rows of a table by row group and place. -/
def places (t : StoredTable V) : Collection (StoredRowGroup V × Nat) where
  totalRows := t.totalRows
  rowGroups := t.rowGroups.map StoredRowGroup.places

/-- What a scan makes of one row. -/
def emit (keep : StoredRowGroup V → Nat → Bool) (p : Nat × Option (StoredRowGroup V × Nat)) :
    Option (Nat × List (Option V)) :=
  match p.2 with
  | none => none
  | some (rg, i) => if keep rg p.1 then some (p.1, rg.row i) else none

end StoredTable

theorem RowGroup.lt_of_mem_indexingVector {α : Type} {rg : RowGroup α} {txn : TransactionData}
    {k n i : Nat} (h : i ∈ rg.indexingVector txn k n) : i < n := by
  -- whatever is selected is selected from the first `n` positions
  have hvector : ∀ v : VectorInfo, v.indexingVector txn n ⊆ List.range n := by
    intro v
    unfold VectorInfo.indexingVector
    split_ifs <;> simp
  have hinfo : ∀ info : ChunkInfo, info.indexingVector txn n ⊆ List.range n := by
    intro info
    cases info with
    | constant insertId deleteId =>
      unfold ChunkInfo.indexingVector
      dsimp only
      split_ifs <;> simp
    | vector v => exact hvector v
  have hsub : rg.indexingVector txn k n ⊆ List.range n := by
    rw [rg.indexingVector_eq]
    unfold RowVersionManager.indexingVector
    split
    · exact List.Subset.refl _
    · exact hinfo _
  exact List.mem_range.mp (hsub h)

namespace StoredRowGroup

theorem read_places (rg : StoredRowGroup V) {i : Nat} (hi : i < vectorCapacity) :
    rg.places.read i = some (rg, i) := by
  unfold RowGroup.read StoredRowGroup.places
  rw [List.lookup_nil]
  dsimp only
  rw [List.getElem?_map, List.getElem?_range hi, Option.map_some]

theorem scan_eq (rg : StoredRowGroup V) (keep : StoredRowGroup V → Nat → Bool)
    (txn : TransactionData) (vectorIndex maxRowGroupRow : Nat) :
    rg.scan (keep rg) txn vectorIndex maxRowGroupRow =
      (rg.places.scan txn vectorIndex maxRowGroupRow).filterMap (StoredTable.emit keep) := by
  unfold StoredRowGroup.scan RowGroup.scan
  rw [List.filterMap_flatMap]
  congr 1
  funext v
  rw [List.filterMap_map, ← List.filterMap_eq_map, List.filterMap_filter]
  refine List.filterMap_congr fun i hi => ?_
  have hlt : i < vectorCapacity :=
    Nat.lt_of_lt_of_le (RowGroup.lt_of_mem_indexingVector hi) (Nat.min_le_left _ _)
  rw [Function.comp_apply, Function.comp_apply, rg.read_places hlt]
  rfl

end StoredRowGroup

namespace StoredTable

theorem scanFrom_eq (keep : StoredRowGroup V → Nat → Bool) (txn : TransactionData) (maxRow : Nat)
    (first : Bool) (vectorIndex maxRowGroupRow : Nat) (rgs : List (StoredRowGroup V)) :
    scanFrom keep txn maxRow first vectorIndex maxRowGroupRow rgs =
      (Collection.scanFrom txn maxRow first vectorIndex maxRowGroupRow
        (rgs.map StoredRowGroup.places)).filterMap (emit keep) := by
  induction rgs generalizing first vectorIndex maxRowGroupRow with
  | nil => rfl
  | cons rg rgs ih =>
    have hstart : rg.places.start = rg.group.start := rfl
    have hcount : rg.places.count = rg.group.count := rfl
    have hbelow : rg.places.rowsBelow maxRow = rg.group.rowsBelow maxRow := by
      unfold RowGroup.rowsBelow
      rw [hstart, hcount]
    rw [List.map_cons, scanFrom, Collection.scanFrom]
    simp only [hbelow, hstart, hcount, rg.scan_eq, ih]
    split_ifs <;> simp

/-- **A scan with a filter, row by row.** -/
theorem scan_eq [LinearOrder V] (t : StoredTable V) (filter : Option (TableFilter V))
    (txn : TransactionData) :
    t.scan filter txn = (t.places.scan txn).filterMap (emit (·.passes filter)) :=
  scanFrom_eq _ txn t.totalRows true 0 0 t.rowGroups

end StoredTable

namespace SoundTable

theorem shaped_places (t : SoundTable V) : t.places.Shaped where
  start_eq j rg hrg := by
    have hrg : (t.rowGroups.map StoredRowGroup.places)[j]? = some rg := hrg
    rw [List.getElem?_map] at hrg
    obtain ⟨stored, hstored, rfl⟩ := Option.map_eq_some_iff.mp hrg
    refine t.shaped.start_eq j stored.group ?_
    show (t.rowGroups.map StoredRowGroup.group)[j]? = some stored.group
    rw [List.getElem?_map, hstored]
    rfl
  count_eq j rg hrg := by
    have hrg : (t.rowGroups.map StoredRowGroup.places)[j]? = some rg := hrg
    rw [List.getElem?_map] at hrg
    obtain ⟨stored, hstored, rfl⟩ := Option.map_eq_some_iff.mp hrg
    refine t.shaped.count_eq j stored.group ?_
    show (t.rowGroups.map StoredRowGroup.group)[j]? = some stored.group
    rw [List.getElem?_map, hstored]
    rfl
  fits := by
    have hfits := t.shaped.fits
    show t.totalRows ≤ vectorCapacity * (t.rowGroups.map StoredRowGroup.places).length
    rwa [List.length_map] at hfits ⊢

/-- The rows a scan comes to: their row group and their place in it. -/
theorem mem_places_scan {t : SoundTable V} {txn : TransactionData} {r : Nat}
    {place : Option (StoredRowGroup V × Nat)} (h : (r, place) ∈ t.places.scan txn) :
    ∃ k rg i, t.rowGroups[k]? = some rg ∧ place = some (rg, i) ∧ i < rg.group.count ∧
      i < vectorCapacity ∧ r = vectorCapacity * k + i ∧ r - rg.group.start = i := by
  rw [t.shaped_places.scan_eq] at h
  obtain ⟨⟨group, k⟩, hgroup, hmem⟩ := List.mem_flatMap.mp h
  have hget : (t.rowGroups.map StoredRowGroup.places)[k]? = some group :=
    List.mem_zipIdx_iff_getElem?.mp hgroup
  have hstart := t.shaped_places.start_eq k group hget
  have hcount := t.shaped_places.count_le hget
  rw [List.getElem?_map] at hget
  obtain ⟨rg, hrg, rfl⟩ := Option.map_eq_some_iff.mp hget
  obtain ⟨i, hi, heq⟩ := List.mem_map.mp hmem
  have hlt : i < rg.group.count := RowGroup.lt_of_mem_indexingVector hi
  have hcap : i < vectorCapacity := Nat.lt_of_lt_of_le hlt hcount
  have hstart : rg.group.start = vectorCapacity * k := hstart
  rw [rg.read_places hcap, Prod.mk.injEq] at heq
  obtain ⟨rfl, rfl⟩ := heq
  refine ⟨k, rg, i, hrg, rfl, hlt, hcap, rfl, ?_⟩
  show vectorCapacity * k + i - rg.group.start = i
  omega

end SoundTable

/-! ## Rows without NULL -/

namespace StoredRowGroup

variable [LinearOrder V] {rg : StoredRowGroup V} {i : Nat}

omit [LinearOrder V] in
theorem cell_row {column : Nat} {c : ColumnData V} (hc : rg.columns[column]? = some c) :
    cell (rg.row i) column = c.fetchRow i := by
  unfold cell StoredRowGroup.row
  rw [List.getElem?_map, hc]
  rfl

omit [LinearOrder V] in
theorem value_of_fetchRow {c : ColumnData V} {x : V} (h : c.fetchRow i = some x) :
    c.checkValidity i = true ∧ c.value i = some x := by
  unfold ColumnData.fetchRow at h
  split at h
  · next hvalid => exact ⟨hvalid, h⟩
  · exact absurd h (Option.some_ne_none _).symm

theorem checkPredicate_of_fetchRow {c : ColumnData V} {x : V} (h : c.fetchRow i = some x)
    (type : CompareType) (constant : V) :
    c.checkPredicate type constant i = decide (type.Says x constant) := by
  obtain ⟨hvalid, hvalue⟩ := value_of_fetchRow h
  rw [c.checkPredicate_eq hvalue, hvalid, Bool.or_true, Bool.true_and, CompareType.compare_eq]

/-- **A leaf on a row without NULL** has the answer SQL gives it. -/
theorem leafCheck_eq {castAs : Nat → V → Option V} {parameters : Nat → Option V}
    (hcells : ∀ c ∈ rg.columns, ∃ x, c.fetchRow i = some x) {l : ExpressionLeaf}
    (hl : l.Plain castAs parameters rg.columns.length) (down : Bool) :
    leafCheck castAs parameters (rg.checkLeaf i) l =
      Formula.round down (l.truth parameters (rg.row i)) := by
  have hcolumn : ∀ key, key < rg.columns.length → ∃ c x, rg.columns[key]? = some c ∧
      c.fetchRow i = some x ∧ cell (rg.row i) key = some x := by
    intro key hkey
    have hc := List.getElem?_eq_getElem hkey
    obtain ⟨x, hx⟩ := hcells _ (List.getElem_mem hkey)
    exact ⟨_, x, hc, hx, (cell_row hc).trans hx⟩
  cases l with
  | compare type key parameter =>
    obtain ⟨hkey, y, hy, hcast⟩ := hl
    obtain ⟨c, x, hc, hx, hcell⟩ := hcolumn key hkey
    simp only [leafCheck, lowerLeaf, hy, coerce, hcast, Option.map_some, Option.getD_some, checkLeaf,
      hc, ExpressionLeaf.truth, hcell, checkPredicate_of_fetchRow hx]
    rfl
  | isNull key =>
    obtain ⟨c, x, hc, hx, hcell⟩ := hcolumn key hl
    simp only [leafCheck, lowerLeaf, Option.map_some, Option.getD_some, checkLeaf, hc,
      ExpressionLeaf.truth, hcell, (value_of_fetchRow hx).1]
    rfl
  | isNotNull key =>
    obtain ⟨c, x, hc, hx, hcell⟩ := hcolumn key hl
    simp only [leafCheck, lowerLeaf, Option.map_some, Option.getD_some, checkLeaf, hc,
      ExpressionLeaf.truth, hcell, (value_of_fetchRow hx).1]
    rfl
  | allTrue => exact absurd hl id
  | invalid => exact absurd hl id

/-- The zone map keeps every row that the filter keeps. -/
theorem passes_of_covers (hcells : ∀ c ∈ rg.columns, ∃ x, c.fetchRow i = some x ∧ c.Covers x)
    {r : Nat} (hr : r - rg.group.start = i) (f : TableFilter V) :
    rg.passes (some f) r = rg.checkPredicate r f := by
  show (rg.checkZonemapSegments f && rg.checkPredicate r f) = _
  by_cases hkept : rg.checkZonemapSegments f = true
  · rw [hkept, Bool.true_and]
  · rw [Bool.eq_false_iff.mpr hkept, Bool.false_and, eq_comm, Bool.eq_false_iff]
    intro hcheck
    refine hkept ?_
    unfold StoredRowGroup.checkPredicate at hcheck
    rw [hr] at hcheck
    unfold checkZonemapSegments
    split
    · next type constant column =>
      cases hc : rg.columns[column]? with
      | none => rfl
      | some c =>
        obtain ⟨x, hx, hcovers⟩ := hcells c (List.mem_of_getElem? hc)
        simp only [Formula.eval, checkLeaf, hc, checkPredicate_of_fetchRow hx,
          decide_eq_true_eq] at hcheck
        simp only [decide_eq_true_eq]
        exact fun hpruned => ColumnData.not_says_of_checkZonemap hpruned hcovers hcheck
    · rfl

end StoredRowGroup

/-! ## Three-valued logic -/

namespace SoundTable

variable [LinearOrder V]

/-- The values of a column are of its type. -/
def Typed (t : SoundTable V) (castAs : Nat → V → Option V) : Prop :=
  ∀ rg ∈ t.rowGroups, ∀ (column : Nat) (c : ColumnData V), rg.columns[column]? = some c →
    ∀ i x, c.value i = some x → castAs column x = some x

/-- No visible row has a NULL, and the statistics hold for the values of the visible rows. -/
def Clean (t : SoundTable V) (txn : TransactionData) : Prop :=
  ∀ r rg i, (r, some (rg, i)) ∈ t.places.scan txn →
    ∀ c ∈ rg.columns, ∃ x, c.fetchRow i = some x ∧ c.Covers x

/-- The rows on which a predicate is TRUE. -/
def rowsWhere (t : SoundTable V) (txn : TransactionData) (parameters : Nat → Option V)
    (e : CompareExpression) : List (Nat × List (Option V)) :=
  (t.scan none txn).filter fun p => decide (e.kleene (·.truth parameters p.2) = some true)

theorem rowsWhere_eq (t : SoundTable V) (txn : TransactionData) (parameters : Nat → Option V)
    (e : CompareExpression) : t.rowsWhere txn parameters e =
      (t.places.scan txn).filterMap fun p => (StoredTable.emit (·.passes none) p).filter fun p =>
        decide (e.kleene (·.truth parameters p.2) = some true) := by
  unfold rowsWhere
  rw [t.scan_eq, List.filter_filterMap]

variable {t : SoundTable V} {txn : TransactionData} {filter : Option (TableFilter V)} {r i : Nat}
  {rg : StoredRowGroup V} {row : List (Option V)}

/-- Without NULL and with good statistics the scan is right. -/
theorem Clean.scan_eq (h : t.Clean txn) {castAs : Nat → V → Option V} {parameters : Nat → Option V}
    {e : CompareExpression} {f : TableFilter V} (hplain : Plain castAs parameters t.width e)
    (hf : transformPredicate castAs parameters e = .ok (some f)) :
    t.scan (some f) txn = t.rowsWhere txn parameters e := by
  rw [t.scan_eq, t.rowsWhere_eq]
  refine List.filterMap_congr fun ⟨r, place⟩ hmem => ?_
  obtain ⟨k, rg, i, hrg, rfl, -, -, -, hr⟩ := mem_places_scan hmem
  have hcells := h r rg i hmem
  have hwidth := t.columns_length rg (List.mem_of_getElem? hrg)
  -- the filter says what the expression says
  have hcheck : rg.passes (some f) r =
      decide (e.kleene (·.truth parameters (rg.row i)) = some true) := by
    obtain ⟨f', hsome, heval⟩ := transformPredicate_eval hplain hf (rg.checkLeaf i)
    obtain rfl := Option.some.inj hsome
    have hround : e.eval (leafCheck castAs parameters (rg.checkLeaf i)) =
        Formula.round true (e.kleene (·.truth parameters (rg.row i))) := by
      refine Formula.eval_eq_round (hplain.imp fun down l hl => ?_)
      refine StoredRowGroup.leafCheck_eq (fun c hc => ?_) (hwidth ▸ hl) down
      obtain ⟨x, hx, -⟩ := hcells c hc
      exact ⟨x, hx⟩
    rw [StoredRowGroup.passes_of_covers hcells hr]
    unfold StoredRowGroup.checkPredicate
    rw [hr, heval, hround, Bool.eq_iff_iff, decide_eq_true_iff, Formula.round_true_iff]
  show (if rg.passes (some f) r then some (r, rg.row i) else none) =
    (some (r, rg.row i)).filter _
  rw [hcheck, Option.filter_some]

/-- A row is among those a filter keeps. -/
theorem mem_scan (h : (r, some (rg, i)) ∈ t.places.scan txn) (hpasses : rg.passes filter r = true) :
    (r, rg.row i) ∈ t.scan filter txn := by
  rw [t.scan_eq]
  exact List.mem_filterMap.mpr ⟨_, h, if_pos hpasses⟩

/-- A row that is kept has passed, in the row group its id belongs to. -/
theorem passes_of_mem_scan (h : (r, some (rg, i)) ∈ t.places.scan txn)
    (hmem : (r, row) ∈ t.scan filter txn) : rg.passes filter r = true := by
  rw [t.scan_eq] at hmem
  obtain ⟨⟨r', place⟩, hplace, hemit⟩ := List.mem_filterMap.mp hmem
  obtain ⟨k, rg', i', hrg', rfl, -, hcap', hr', -⟩ := mem_places_scan hplace
  obtain ⟨l, rg₀, i₀, hrg, hsame, -, hcap, hr, -⟩ := mem_places_scan h
  obtain ⟨rfl, rfl⟩ := Prod.mk.inj (Option.some.inj hsame)
  have hemit : (if rg'.passes filter r' then some (r', rg'.row i') else none) = some (r, row) := hemit
  split at hemit
  · next hpasses =>
    obtain ⟨rfl, -⟩ := Prod.mk.inj (Option.some.inj hemit)
    -- the row id tells the row group
    have hk : k = l := by
      have hk : r' / vectorCapacity = k := by
        rw [hr', Nat.mul_add_div vectorCapacity_pos, Nat.div_eq_of_lt hcap', Nat.add_zero]
      have hl : r' / vectorCapacity = l := by
        rw [hr, Nat.mul_add_div vectorCapacity_pos, Nat.div_eq_of_lt hcap, Nat.add_zero]
      exact hk.symm.trans hl
    subst hk
    obtain rfl := Option.some.inj (hrg'.symm.trans hrg)
    exact hpasses
  · exact absurd hemit (Option.some_ne_none _).symm

end SoundTable

open SoundTable

/-- **Filters and NULL.**  A scan returns the rows on which the predicate is TRUE, for every
    predicate of plain comparisons, exactly if no visible row has a NULL and the statistics hold
    for the values of the visible rows. -/
theorem filtered_scan_three_valued_iff [LinearOrder V] (t : SoundTable V) (txn : TransactionData)
    (castAs : Nat → V → Option V) (htyped : t.Typed castAs) :
    (∀ parameters e f, Plain castAs parameters t.width e →
      transformPredicate castAs parameters e = .ok (some f) →
        t.scan (some f) txn = t.rowsWhere txn parameters e) ↔ t.Clean txn := by
  refine ⟨fun h r rg i hplace c hc => ?_, fun h parameters e f => h.scan_eq⟩
  obtain ⟨k, rg₀, i₀, hrg, hsame, hcount, -, -, hr⟩ := mem_places_scan hplace
  obtain ⟨rfl, rfl⟩ := Prod.mk.inj (Option.some.inj hsame)
  obtain ⟨column, hcolumn⟩ := List.mem_iff_getElem?.mp hc
  obtain ⟨x, hx⟩ := Option.isSome_iff_exists.mp (t.complete rg (List.mem_of_getElem? hrg) c hc i hcount)
  have hwidth : column < t.width := by
    rw [← t.columns_length rg (List.mem_of_getElem? hrg)]
    exact (List.getElem?_eq_some_iff.mp hcolumn).1
  have hcast := htyped rg (List.mem_of_getElem? hrg) column c hcolumn i x hx
  have hcell := StoredRowGroup.cell_row (i := i) hcolumn
  have hleaf : ∀ type : CompareType, (ExpressionLeaf.compare type column 0).Plain castAs
      (fun _ => some x) t.width := fun type => ⟨hwidth, x, rfl, hcast⟩
  have htransform : ∀ type : CompareType, transformLeaf castAs (fun _ => some x)
      (.compare type column 0) = .ok (some (.leaf (.constant type x column))) := by
    intro type
    simp only [transformLeaf, coerce, hcast, Option.getD_some]
  have hvalid : c.checkValidity i = true := by
    by_contra hnull
    -- the comparison that comes out false at this row, and its negation
    let type := if c.checksValidity i then CompareType.eq else .ne
    have hfalse : c.checkPredicate type x i = false := by
      rw [c.checkPredicate_eq hx, Bool.eq_false_iff.mpr hnull, Bool.or_false]
      cases hchecks : c.checksValidity i <;>
        simp [type, hchecks, CompareType.compare_eq, CompareType.Says]
    have hkept : (r, rg.row i) ∈ t.scan (some (.not [.leaf (.constant type x column)])) txn := by
      refine mem_scan hplace ?_
      simp only [StoredRowGroup.passes, StoredRowGroup.checkZonemapSegments,
        StoredRowGroup.checkPredicate, Formula.eval, Formula.evalAny, StoredRowGroup.checkLeaf, hr,
        hcolumn, hfalse, Bool.or_false, Bool.not_false, Bool.and_self]
    have hnot : transformPredicate castAs (fun _ => some x) (.not [.leaf (.compare type column 0)]) =
        .ok (some (.not [.leaf (.constant type x column)])) := by
      simp only [transformPredicate, transformChildren, htransform]
      rfl
    rw [h (fun _ => some x) (.not [.leaf (.compare type column 0)]) _ ⟨hleaf type, trivial⟩ hnot]
      at hkept
    have htrue := of_decide_eq_true (List.mem_filter.mp hkept).2
    have hfetch : c.fetchRow i = none := if_neg hnull
    simp only [Formula.kleene, Formula.kleeneAny, ExpressionLeaf.truth, hcell, hfetch,
      Option.bind_eq_bind, Option.bind_none] at htrue
    exact absurd htrue (by decide)
  have hfetch : c.fetchRow i = some x := by
    unfold ColumnData.fetchRow
    rw [if_pos hvalid, hx]
  refine ⟨x, hfetch, ?_⟩
  by_contra hout
  -- the filter that looks for the value is pruned
  have heq := h (fun _ => some x) (.leaf (.compare .eq column 0)) _ (hleaf .eq) (htransform .eq)
  have htrue : (r, rg.row i) ∈ t.rowsWhere txn (fun _ => some x) (.leaf (.compare .eq column 0)) := by
    refine List.mem_filter.mpr ⟨mem_scan hplace rfl, decide_eq_true ?_⟩
    simp only [Formula.kleene, ExpressionLeaf.truth, hcell, hfetch, Option.bind_eq_bind,
      Option.bind_some, CompareType.Says, decide_true]
    rfl
  rw [← heq] at htrue
  have hpasses := passes_of_mem_scan hplace htrue
  simp only [StoredRowGroup.passes, StoredRowGroup.checkZonemapSegments, hcolumn,
    ColumnData.checkZonemap_of_not_covers hout, ne_eq, not_true_eq_false, decide_false,
    Bool.false_and, Bool.false_eq_true] at hpasses

/-- A table of one row group, with no version info. -/
def SoundTable.single (columns : List (ColumnData V)) (count : Nat) (hcount : count ≤ vectorCapacity)
    (hcomplete : ∀ c ∈ columns, ∀ i < count, (c.value i).isSome) : SoundTable V where
  totalRows := count
  rowGroups := [⟨{ start := 0, count := count }, columns⟩]
  width := columns.length
  shaped := by
    refine ⟨fun j rg hrg => ?_, fun j rg hrg => ?_, ?_⟩
    · obtain ⟨hj, rfl⟩ := List.getElem?_eq_some_iff.mp hrg
      obtain rfl : j = 0 := Nat.lt_one_iff.mp hj
      rfl
    · obtain ⟨hj, rfl⟩ := List.getElem?_eq_some_iff.mp hrg
      obtain rfl : j = 0 := Nat.lt_one_iff.mp hj
      show count = min vectorCapacity (count - vectorCapacity * 0)
      omega
    · show count ≤ vectorCapacity * 1
      omega
  columns_length rg hrg := by
    rw [List.mem_singleton.mp hrg]
  complete rg hrg := by
    rw [List.mem_singleton.mp hrg]
    exact hcomplete

/-- Two rows of one integer column, 5 and 7. -/
def twoRows : SoundTable Int :=
  .single [{ segments := [.uncompressed [5, 7]], statistics := some (5, 7) }] 2 (by decide)
    (by decide)

/-- The rows 5 and 7, with their bounds: every plain predicate finds the rows on which it is TRUE. -/
theorem filtered_scan_three_valued_two_rows :
    twoRows.Clean {} ∧ ∀ parameters e f, Plain (fun _ x => some x) parameters twoRows.width e →
      transformPredicate (fun _ x => some x) parameters e = .ok (some f) →
        twoRows.scan (some f) {} = twoRows.rowsWhere {} parameters e := by
  have hclean : twoRows.Clean {} := by
    intro r rg i hmem c hc
    obtain ⟨k, group, j, hgroup, hplace, hj, -⟩ := twoRows.mem_places_scan hmem
    obtain ⟨rfl, rfl⟩ := Prod.mk.inj (Option.some.inj hplace)
    obtain rfl := List.mem_singleton.mp (List.mem_of_getElem? hgroup)
    obtain rfl := List.mem_singleton.mp hc
    have hi : i = 0 ∨ i = 1 := by
      have hlt : i < 2 := hj
      omega
    rcases hi with rfl | rfl
    · exact ⟨5, rfl, fun min max hbounds _ => by cases hbounds; decide⟩
    · exact ⟨7, rfl, fun min max hbounds _ => by cases hbounds; decide⟩
  exact ⟨hclean, (filtered_scan_three_valued_iff twoRows {} (fun _ x => some x)
    fun _ _ _ _ _ _ _ _ => rfl).mpr hclean⟩

/-- One row of one integer column, which is NULL; the segment holds 0 at its place. -/
def nullRow : SoundTable Int :=
  .single [{ segments := [.uncompressed [0]], validity := [false] }] 1 (by decide) (by decide)

/-- A comparison of the NULL with 0 finds the row, and so does the negation of one with 1. -/
theorem filtered_scan_returns_null_row :
    (transformPredicate (fun _ x => some x) (fun _ => some (0 : Int)) (.leaf (.compare .eq 0 0)) =
        .ok (some (.leaf (.constant .eq 0 0))) ∧
      nullRow.scan (some (.leaf (.constant .eq 0 0))) {} = [(0, [none])] ∧
      nullRow.rowsWhere {} (fun _ => some 0) (.leaf (.compare .eq 0 0)) = []) ∧
    (transformPredicate (fun _ x => some x) (fun _ => some (1 : Int))
        (.not [.leaf (.compare .eq 0 0)]) = .ok (some (.not [.leaf (.constant .eq 1 0)])) ∧
      nullRow.scan (some (.not [.leaf (.constant .eq 1 0)])) {} = [(0, [none])] ∧
      nullRow.rowsWhere {} (fun _ => some 1) (.not [.leaf (.compare .eq 0 0)]) = []) :=
  ⟨⟨rfl, by decide +kernel, by decide +kernel⟩, rfl, by decide +kernel, by decide +kernel⟩

end Table
end Otterbrix
