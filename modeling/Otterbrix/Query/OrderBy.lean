/-
  Otterbrix.Query.OrderBy

  ORDER BY: the plan of a sort node (`create_plan_sort`), the comparison of rows
  (`columnar_sorter_t`) and the operator (`operator_sort_t`), which sorts every chunk on its own and
  merges the sorted chunks.

  A plain key is a column.  A computed key is evaluated into a column of its own behind the input's
  columns, and its sort key is added when that happens: behind all plain keys, wherever it was
  listed.  `std::sort` is a parameter with its contract, and the columns hold values of any types
  whose comparison is an order (floating-point columns: no NaN).
-/
import Otterbrix.Lib.Chunks
import Otterbrix.Lib.KWayMerge
import Otterbrix.Table.RowVersionManager

namespace Otterbrix
namespace Query
namespace OrderBy

open Table (vectorCapacity)

variable {V : Type} [Ord V]

/-! ## Comparisons -/

/-- `sort::order`. -/
inductive SortOrder where
  | descending
  | ascending
deriving DecidableEq

/-- `cmp` or `-cmp`. -/
def SortOrder.apply : SortOrder → Ordering → Ordering
  | .ascending, c => c
  | .descending, c => c.swap

/-- A sort key: where its value is in a row, and the order. -/
structure SortKey (V : Type) where
  value : Cells V → Option V
  order : SortOrder

/-- `compare_raw`: NULLs sort last. -/
def compareRaw : Option V → Option V → Ordering
  | none, none => .eq
  | none, some _ => .gt
  | some _, none => .lt
  | some a, some b => compare a b

/-- `compare_cross`: the first key that tells the rows apart decides. -/
def compareCross : List (SortKey V) → Cells V → Cells V → Ordering
  | [], _, _ => .eq
  | k :: keys, x, y =>
    match compareRaw (k.value x) (k.value y) with
    | .eq => compareCross keys x y
    | c => k.order.apply c

/-- `operator()` of the sorter. -/
def precedes : List (SortKey V) → Cells V → Cells V → Bool
  | [], _, _ => false
  | k :: keys, x, y =>
    match compareRaw (k.value x) (k.value y) with
    | .eq => precedes keys x y
    | c => match k.order with
      | .ascending => c == .lt
      | .descending => c == .gt

/-! ## The plan -/

/-- An expression of a sort node.  The order of a computed key is in the path of its name. -/
inductive SortExpression (V : Type) (width : Nat) where
  | sort (column : Fin width) (order : SortOrder)
  | scalar (evaluate : Cells V → Option V) (path : List Nat)

/-- `operator_sort_t`; `limit` is `-1` without a limit. -/
structure OperatorSort (V : Type) where
  keys : List (Nat × SortOrder) := []
  computedKeys : List ((Cells V → Option V) × SortOrder) := []
  limit : Int := -1
  offset : Int := 0

/-- The order that a computed key's path encodes. -/
def orderOfPath (path : List Nat) : SortOrder :=
  if path.head? = some 1 then .descending else .ascending

/-- `create_plan_sort`. -/
def createPlanSort {width : Nat} (expressions : List (SortExpression V width))
    (limit offset : Int) : OperatorSort V :=
  let sort : OperatorSort V := expressions.foldl (fun sort expr =>
    match expr with
    | .sort column order => { sort with keys := sort.keys ++ [(column.val, order)] }
    | .scalar evaluate path =>
      { sort with computedKeys := sort.computedKeys ++ [(evaluate, orderOfPath path)] }) {}
  { sort with limit := limit, offset := offset }

/-! ## The operator -/

namespace OperatorSort

variable (op : OperatorSort V) (std : StdSort) (input : ChunkedRows V)

/-- A key of the sorter reads its column. -/
def columnKey (key : Nat × SortOrder) : SortKey V := ⟨fun row => row.getD key.1 none, key.2⟩

/-- The keys of the sorter once the computed columns are there. -/
def sorterKeys (width : Nat) : List (SortKey V) :=
  op.keys.map columnKey ++
    op.computedKeys.zipIdx.map fun k => columnKey (width + k.2, k.1.2)

/-- A row with its computed keys. -/
def extend (row : Cells V) : Cells V := row ++ op.computedKeys.map fun k => k.1 row

/-- A chunk in the order of its sorted indices. -/
def sortChunk (chunk : List (Cells V)) : List (Cells V) :=
  let chunk := chunk.map op.extend
  let indices := std.sort
    (fun a b => precedes (op.sorterKeys input.width) (chunk.getD a []) (chunk.getD b []))
    (List.range chunk.length)
  indices.map fun i => chunk.getD i []

/-- The heap at the start: a cursor for every chunk with rows. -/
def cursors : List (Lane (Cells V)) :=
  (input.chunks.zipIdx.flatMap fun chunk =>
    match op.sortChunk std input chunk.1 with
    | [] => []
    | row :: rest => [⟨chunk.2, row, rest⟩])

/-- How many rows may be produced; `none` is the largest `uint64_t`. -/
def take : Option Nat := if 0 ≤ op.limit then some op.limit.toNat else none

/-- `produced < take`. -/
def mayProduce (produced : Nat) : Bool :=
  match op.take with
  | none => true
  | some n => decide (produced < n)

/-- The loop over the heap.  Every turn takes one row out of it, so the number of rows is enough
    fuel. -/
def drain : Nat → List (Lane (Cells V)) → (skip produced : Nat) → Batches (Cells V) →
    Batches (Cells V)
  | 0, _, _, _, out => out
  | _ + 1, [], _, _, out => out
  | fuel + 1, c :: cs, skip, produced, out =>
    if op.mayProduce produced then
      let (top, rest) := Lane.pop (compareCross (op.sorterKeys input.width)) c cs
      let heap := top.advance ++ rest
      if 0 < skip then drain fuel heap (skip - 1) produced out
      else drain fuel heap skip (produced + 1)
        (out.emit vectorCapacity (top.head.take input.width))
    else out

/-- `on_execute_impl`: the output chunks, of which there is at least one. -/
def execute : List (List (Cells V)) :=
  let out := (op.drain input input.chunks.flatten.length (op.cursors std input) op.offset.toNat 0
    {}).flush
  if out.full.isEmpty then [[]] else out.full

end OperatorSort

/-! ## What ORDER BY means -/

/-- The key that an expression stands for. -/
def SortExpression.key {width : Nat} : SortExpression V width → SortKey V
  | .sort column order => ⟨fun row => row.getD column none, order⟩
  | .scalar evaluate path => ⟨evaluate, orderOfPath path⟩

def SortExpression.isPlain {width : Nat} : SortExpression V width → Bool
  | .sort _ _ => true
  | .scalar _ _ => false

/-- The keys as listed. -/
def listed {width : Nat} (expressions : List (SortExpression V width)) : List (SortKey V) :=
  expressions.map SortExpression.key

/-- The plain keys, then the computed ones. -/
def plainFirst {width : Nat} (expressions : List (SortExpression V width)) : List (SortKey V) :=
  (expressions.filter SortExpression.isPlain).map SortExpression.key ++
    (expressions.filter fun e => !e.isPlain).map SortExpression.key

/-- Rows from `offset` on, at most `limit` of them. -/
def slice {α : Type} (limit offset : Int) (rows : List α) : List α :=
  if 0 ≤ limit then (rows.drop offset.toNat).take limit.toNat else rows.drop offset.toNat

/-- `out` is the slice of an arrangement of `rows` that is sorted by the keys. -/
def SortedSlice (keys : List (SortKey V)) (limit offset : Int) (rows out : List (Cells V)) : Prop :=
  ∃ arranged : List (Cells V), arranged.Perm rows ∧ AscendingBy (compareCross keys) arranged ∧
    out = slice limit offset arranged

section Order

variable [Std.TransOrd V]

instance : Std.TransCmp (compareRaw (V := V)) where
  eq_swap := by
    rintro (_ | a) (_ | b)
    · rfl
    · rfl
    · rfl
    · exact Std.OrientedOrd.eq_swap
  isLE_trans := by
    rintro (_ | a) (_ | b) (_ | c) hab hbc
    all_goals first
      | rfl
      | exact absurd hab Bool.false_ne_true
      | exact absurd hbc Bool.false_ne_true
      | exact Std.TransOrd.isLE_trans hab hbc

/-- The comparison by one key. -/
def SortKey.compare (k : SortKey V) (x y : Cells V) : Ordering :=
  k.order.apply (compareRaw (k.value x) (k.value y))

instance (k : SortKey V) : Std.TransCmp k.compare := by
  obtain ⟨value, order⟩ := k
  cases order with
  | ascending => exact transCmp_on compareRaw value
  | descending =>
    have hswap : SortKey.compare ⟨value, .descending⟩ =
        fun x y : Cells V => compareRaw (value y) (value x) :=
      funext fun x => funext fun y => Std.OrientedCmp.eq_swap.symm
    rw [hswap]
    exact transCmp_on (fun a b : Option V => compareRaw b a) value

omit [Std.TransOrd V] in
/-- The keys decide one after the other. -/
theorem compareCross_cons (k : SortKey V) (keys : List (SortKey V)) :
    compareCross (k :: keys) = compareLex k.compare (compareCross keys) := by
  funext x y
  show (match compareRaw (k.value x) (k.value y) with
    | .eq => compareCross keys x y
    | c => k.order.apply c) = (k.order.apply (compareRaw (k.value x) (k.value y))).then _
  cases compareRaw (k.value x) (k.value y) <;> cases k.order <;> rfl

instance (keys : List (SortKey V)) : Std.TransCmp (compareCross keys) := by
  induction keys with
  | nil => exact { eq_swap := rfl, isLE_trans := fun _ _ => rfl }
  | cons k keys ih =>
    rw [compareCross_cons]
    infer_instance

omit [Std.TransOrd V] in
theorem precedes_eq (keys : List (SortKey V)) (x y : Cells V) :
    precedes keys x y = (compareCross keys x y == .lt) := by
  induction keys with
  | nil => rfl
  | cons k keys ih =>
    unfold precedes compareCross
    rw [ih]
    cases compareRaw (k.value x) (k.value y) <;> cases k.order <;> rfl

omit [Std.TransOrd V] in
/-- Rows are equal under the keys if every key says so, in whatever order the keys are. -/
theorem compareCross_eq_iff (keys : List (SortKey V)) (x y : Cells V) :
    compareCross keys x y = .eq ↔ ∀ k ∈ keys, compareRaw (k.value x) (k.value y) = .eq := by
  induction keys with
  | nil => exact ⟨fun _ => nofun, fun _ => rfl⟩
  | cons k keys ih =>
    rw [List.forall_mem_cons, ← ih, compareCross]
    cases compareRaw (k.value x) (k.value y) <;> cases k.order <;> simp [SortOrder.apply]

omit [Std.TransOrd V] in
/-- The comparison sees the values of the keys only. -/
theorem compareCross_congr {keys keys' : List (SortKey V)} {x y x' y' : Cells V}
    (h : List.Forall₂ (fun k k' => k.order = k'.order ∧ k.value x = k'.value x' ∧
      k.value y = k'.value y') keys keys') :
    compareCross keys x y = compareCross keys' x' y' := by
  induction h with
  | nil => rfl
  | cons hk _ ih =>
    obtain ⟨horder, hx, hy⟩ := hk
    unfold compareCross
    rw [horder, hx, hy, ih]

end Order

section Plan

variable {width : Nat} (expressions : List (SortExpression V width)) (limit offset : Int)

omit [Ord V] in
/-- Where the plan puts an expression. -/
theorem createPlanSort_eq :
    createPlanSort expressions limit offset =
      { keys := (expressions.filterMap fun
          | .sort column order => some (column.val, order)
          | .scalar _ _ => none)
        computedKeys := (expressions.filterMap fun
          | .sort _ _ => none
          | .scalar evaluate path => some (evaluate, orderOfPath path))
        limit := limit
        offset := offset } := by
  have hloop : ∀ (es : List (SortExpression V width)) (s : OperatorSort V),
      es.foldl (fun sort expr =>
        match expr with
        | .sort column order => { sort with keys := sort.keys ++ [(column.val, order)] }
        | .scalar evaluate path =>
          { sort with computedKeys := sort.computedKeys ++ [(evaluate, orderOfPath path)] }) s =
      { s with
        keys := s.keys ++ es.filterMap fun
          | .sort column order => some (column.val, order)
          | .scalar _ _ => none
        computedKeys := s.computedKeys ++ es.filterMap fun
          | .sort _ _ => none
          | .scalar evaluate path => some (evaluate, orderOfPath path) } := by
    intro es
    induction es with
    | nil => intro s; simp
    | cons e es ih =>
      intro s
      rw [List.foldl_cons, ih]
      cases e <;> simp
  unfold createPlanSort
  rw [hloop]
  simp

omit [Ord V] in
/-- The plain keys of the plan. -/
theorem keys_createPlanSort :
    List.Forall₂ (fun key (e : SortExpression V width) => e.isPlain = true ∧ key.1 < width ∧
        e.key = OperatorSort.columnKey key)
      (createPlanSort expressions limit offset).keys (expressions.filter SortExpression.isPlain) := by
  rw [createPlanSort_eq]
  induction expressions with
  | nil => exact .nil
  | cons e expressions ih =>
    cases e with
    | sort column order => exact .cons ⟨rfl, column.isLt, rfl⟩ ih
    | scalar evaluate path => exact ih

omit [Ord V] in
/-- The computed keys of the plan. -/
theorem computedKeys_createPlanSort :
    List.Forall₂ (fun k (e : SortExpression V width) => e.key = ⟨k.1, k.2⟩)
      (createPlanSort expressions limit offset).computedKeys
      (expressions.filter fun e => !e.isPlain) := by
  rw [createPlanSort_eq]
  induction expressions with
  | nil => exact .nil
  | cons e expressions ih =>
    cases e with
    | sort column order => exact ih
    | scalar evaluate path => exact .cons rfl ih

omit [Ord V] in
/-- A column of the input in a row with its computed keys. -/
theorem getD_extend_of_lt (op : OperatorSort V) {row : Cells V} {c : Nat} (hc : c < row.length) :
    (op.extend row).getD c none = row.getD c none := by
  unfold OperatorSort.extend
  rw [List.getD_eq_getElem?_getD, List.getD_eq_getElem?_getD, List.getElem?_append_left hc]

omit [Ord V] in
/-- A computed key in its column. -/
theorem getD_extend_computed (op : OperatorSort V) (row : Cells V)
    {k : (Cells V → Option V) × SortOrder} {i : Nat} (hk : op.computedKeys[i]? = some k) :
    (op.extend row).getD (row.length + i) none = k.1 row := by
  unfold OperatorSort.extend
  rw [List.getD_eq_getElem?_getD, List.getElem?_append_right (Nat.le_add_right _ _),
    Nat.add_sub_cancel_left, List.getElem?_map, hk]
  rfl

/-- **The order of the sorter.**  It compares by the plain keys first. -/
theorem compareCross_sorterKeys {x y : Cells V} (hx : x.length = width) (hy : y.length = width) :
    let op := createPlanSort expressions limit offset
    compareCross (op.sorterKeys width) (op.extend x) (op.extend y) =
      compareCross (plainFirst expressions) x y := by
  intro op
  refine compareCross_congr (List.rel_append ?_ ?_)
  · rw [List.forall₂_map_left_iff, List.forall₂_map_right_iff]
    refine (keys_createPlanSort expressions limit offset).imp fun key e h => ?_
    obtain ⟨-, hlt, hkey⟩ := h
    rw [hkey]
    exact ⟨rfl, getD_extend_of_lt op (hx ▸ hlt), getD_extend_of_lt op (hy ▸ hlt)⟩
  · have hcomputed := computedKeys_createPlanSort expressions limit offset
    rw [← List.zipIdx_map_fst 0 (createPlanSort expressions limit offset).computedKeys,
      List.forall₂_map_left_iff] at hcomputed
    have hplaced : ∀ k ∈ op.computedKeys.zipIdx, op.computedKeys[k.2]? = some k.1 :=
      fun k hk => List.mk_mem_zipIdx_iff_getElem?.mp hk
    rw [List.forall₂_map_left_iff, List.forall₂_map_right_iff]
    refine ((List.forall₂_and_left _ _).mpr ⟨hplaced, hcomputed⟩).imp fun k e h => ?_
    obtain ⟨hget, hkey⟩ := h
    rw [hkey]
    refine ⟨rfl, ?_, ?_⟩
    · rw [← hx]
      exact getD_extend_computed op x hget
    · rw [← hy]
      exact getD_extend_computed op y hget

end Plan

section Merged

variable [Std.TransOrd V] (std : StdSort) (op : OperatorSort V) (input : ChunkedRows V)

/-- A sorted chunk has its rows, in ascending order. -/
theorem sortChunk_spec (chunk : List (Cells V)) :
    (op.sortChunk std input chunk).Perm (chunk.map op.extend) ∧
      AscendingBy (compareCross (op.sorterKeys input.width)) (op.sortChunk std input chunk) := by
  unfold OperatorSort.sortChunk
  dsimp only
  generalize chunk.map op.extend = rows
  simp only [precedes_eq]
  obtain ⟨hperm, hascending⟩ := std.spec (fun a b =>
    compareCross (op.sorterKeys input.width) (rows.getD a []) (rows.getD b []))
    (List.range rows.length)
  have hrows : (List.range rows.length).map (fun i => rows.getD i []) = rows := by
    refine List.ext_getElem? fun i => ?_
    rw [List.getElem?_map]
    by_cases hi : i < rows.length
    · rw [List.getElem?_range hi, List.getElem?_eq_getElem hi, Option.map_some,
        List.getD_eq_getElem?_getD, List.getElem?_eq_getElem hi]
      rfl
    · rw [List.getElem?_eq_none (by simpa using hi), List.getElem?_eq_none (Nat.le_of_not_lt hi)]
      rfl
  refine ⟨?_, List.pairwise_map.mpr hascending⟩
  have hmapped := hperm.map fun i => rows.getD i []
  rwa [hrows] at hmapped

/-- The cursors stand before all rows. -/
theorem cursors_spec :
    ((op.cursors std input).flatMap Lane.all).Perm (input.chunks.flatten.map op.extend) ∧
      ∀ c ∈ op.cursors std input, AscendingBy (compareCross (op.sorterKeys input.width)) c.all := by
  have hlane : ∀ (chunk : List (Cells V)) (i : Nat),
      ((match op.sortChunk std input chunk with
        | [] => []
        | row :: rest => [⟨i, row, rest⟩] : List (Lane (Cells V))).flatMap Lane.all) =
        op.sortChunk std input chunk := by
    intro chunk i
    cases op.sortChunk std input chunk with
    | nil => rfl
    | cons row rest => exact List.append_nil _
  constructor
  · unfold OperatorSort.cursors
    rw [List.flatMap_assoc]
    simp only [hlane]
    rw [← List.flatMap_map, List.zipIdx_map_fst, List.map_flatten, ← List.flatMap_def]
    exact List.Perm.flatMap_left _ fun chunk _ => (sortChunk_spec std op input chunk).1
  · intro c hc
    obtain ⟨chunk, -, hc⟩ := List.mem_flatMap.mp hc
    have hascending := (sortChunk_spec std op input chunk.1).2
    revert hc hascending
    cases op.sortChunk std input chunk.1 with
    | nil => exact fun hc => absurd hc List.not_mem_nil
    | cons row rest =>
      intro hc hascending
      rw [List.mem_singleton.mp hc]
      exact hascending

/-- The rows in the order in which they leave the heap. -/
def merged : List (Cells V) :=
  kwayMerge (compareCross (op.sorterKeys input.width)) input.chunks.flatten.length
    (op.cursors std input)

theorem merged_spec :
    (merged std op input).Perm (input.chunks.flatten.map op.extend) ∧
      AscendingBy (compareCross (op.sorterKeys input.width)) (merged std op input) := by
  obtain ⟨hperm, hlanes⟩ := cursors_spec std op input
  have hfuel : ((op.cursors std input).flatMap Lane.all).length ≤ input.chunks.flatten.length := by
    rw [hperm.length_eq, List.length_map]
  obtain ⟨hmerge, hascending⟩ := kwayMerge_spec hfuel hlanes
  exact ⟨hmerge.trans hperm, hascending⟩

/-- What the limit leaves of the rows that come next. -/
def remaining (produced : Nat) (rows : List (Cells V)) : List (Cells V) :=
  match op.take with
  | none => rows
  | some n => rows.take (n - produced)

omit [Ord V] [Std.TransOrd V] in
theorem remaining_nil (produced : Nat) : remaining op produced [] = [] := by
  unfold remaining
  split
  · rfl
  · exact List.take_nil

omit [Ord V] [Std.TransOrd V] in
theorem remaining_cons {produced : Nat} (hmay : op.mayProduce produced = true) (row : Cells V)
    (rows : List (Cells V)) :
    remaining op produced (row :: rows) = row :: remaining op (produced + 1) rows := by
  unfold OperatorSort.mayProduce at hmay
  unfold remaining
  cases htake : op.take with
  | none => rfl
  | some n =>
    rw [htake] at hmay
    have hlt : produced < n := of_decide_eq_true hmay
    show List.take (n - produced) (row :: rows) = row :: rows.take (n - (produced + 1))
    rw [show n - produced = n - (produced + 1) + 1 by omega, List.take_succ_cons]

omit [Ord V] [Std.TransOrd V] in
theorem remaining_of_not_mayProduce {produced : Nat} (hmay : ¬ op.mayProduce produced = true)
    (rows : List (Cells V)) : remaining op produced rows = [] := by
  unfold OperatorSort.mayProduce at hmay
  unfold remaining
  cases htake : op.take with
  | none =>
    rw [htake] at hmay
    exact absurd rfl hmay
  | some n =>
    rw [htake] at hmay
    have hle : ¬ produced < n := fun hlt => hmay (decide_eq_true hlt)
    show rows.take (n - produced) = []
    rw [show n - produced = 0 by omega, List.take_zero]

omit [Std.TransOrd V] in
/-- **The loop over the heap.** -/
theorem drain_adds (fuel : Nat) (heap : List (Lane (Cells V))) (skip produced : Nat)
    (out : Batches (Cells V)) :
    Batches.Adds vectorCapacity out
      ((remaining op produced ((kwayMerge (compareCross (op.sorterKeys input.width)) fuel heap).drop
        skip)).map (·.take input.width)) (op.drain input fuel heap skip produced out) := by
  induction fuel generalizing heap skip produced out with
  | zero =>
    show Batches.Adds _ out ((remaining op produced ([].drop skip)).map _) out
    rw [List.drop_nil, remaining_nil]
    exact .refl _ _
  | succ fuel ih =>
    cases heap with
    | nil =>
      show Batches.Adds _ out ((remaining op produced ([].drop skip)).map _) out
      rw [List.drop_nil, remaining_nil]
      exact .refl _ _
    | cons c cs =>
      unfold OperatorSort.drain kwayMerge
      by_cases hmay : op.mayProduce produced = true
      case neg =>
        rw [if_neg hmay, remaining_of_not_mayProduce op hmay]
        exact .refl _ _
      rw [if_pos hmay]
      dsimp only
      cases skip with
      | succ skip =>
        rw [if_pos (Nat.succ_pos _), List.drop_succ_cons]
        exact ih ..
      | zero =>
        rw [if_neg (Nat.lt_irrefl _), List.drop_zero, remaining_cons op hmay, List.map_cons]
        exact (Batches.adds_emit (by decide) _ _).trans (ih _ 0 (produced + 1) _)

omit [Std.TransOrd V] in
/-- **The output** is the slice of the merged rows, without the computed columns. -/
theorem execute_flatten :
    (op.execute std input).flatten =
      slice op.limit op.offset ((merged std op input).map (·.take input.width)) := by
  have hadds := drain_adds op input input.chunks.flatten.length (op.cursors std input)
    op.offset.toNat 0 {}
  obtain ⟨hrows, -⟩ := hadds.flush
  have hslice : (remaining op 0 ((merged std op input).drop op.offset.toNat)).map
      (·.take input.width) =
        slice op.limit op.offset ((merged std op input).map (·.take input.width)) := by
    unfold remaining slice OperatorSort.take
    by_cases hlimit : 0 ≤ op.limit
    · rw [if_pos hlimit, if_pos hlimit, ← List.map_drop, ← List.map_take]
      rfl
    · rw [if_neg hlimit, if_neg hlimit, ← List.map_drop]
  rw [← hslice]
  refine Eq.trans ?_ hrows
  unfold OperatorSort.execute
  dsimp only
  split
  · next hempty => rw [List.isEmpty_iff.mp hempty]; rfl
  · rfl

end Merged

/-! ## Two rows -/

/-- The sum of the first two columns. -/
def sumOfTwo (row : Cells Int) : Option Int :=
  match row with
  | some a :: some b :: _ => some (a + b)
  | _ => none

/-- Two rows, `(1, 5)` and `(2, 0)`. -/
def twoRows : ChunkedRows Int where
  chunks := [[[some 1, some 5], [some 2, some 0]]]
  width := 2
  uniform := by decide

/-- `ORDER BY a + b, a`. -/
def sumThenFirst : List (SortExpression Int 2) :=
  [.scalar sumOfTwo [0], .sort 0 .ascending]

/-- `ORDER BY a, a + b`. -/
def firstThenSum : List (SortExpression Int 2) :=
  [.sort 0 .ascending, .scalar sumOfTwo [0]]

section Result

variable [Std.TransOrd V] (std : StdSort) (input : ChunkedRows V)
  (expressions : List (SortExpression V input.width))

/-- The merged rows as rows of the input: all of them, sorted by the plain keys first. -/
theorem merged_rows (limit offset : Int) :
    let rows := (merged std (createPlanSort expressions limit offset) input).map
      (·.take input.width)
    rows.Perm input.chunks.flatten ∧ AscendingBy (compareCross (plainFirst expressions)) rows := by
  intro rows
  obtain ⟨hperm, hascending⟩ := merged_spec std (createPlanSort expressions limit offset) input
  have hextend : ∀ row ∈ input.chunks.flatten,
      ((createPlanSort expressions limit offset).extend row).take input.width = row := by
    intro row hrow
    exact List.take_left' (input.uniform row hrow)
  constructor
  · have hmapped := hperm.map (·.take input.width)
    have hback : (input.chunks.flatten.map (createPlanSort expressions limit offset).extend).map
        (·.take input.width) = input.chunks.flatten := by
      rw [List.map_map]
      exact (List.map_congr_left hextend).trans (List.map_id _)
    rwa [hback] at hmapped
  · refine List.pairwise_map.mpr (hascending.imp_of_mem fun {x' y'} hx' hy' hle => ?_)
    obtain ⟨x, hx, rfl⟩ := List.mem_map.mp (hperm.mem_iff.mp hx')
    obtain ⟨y, hy, rfl⟩ := List.mem_map.mp (hperm.mem_iff.mp hy')
    rw [compareCross_sorterKeys expressions limit offset (input.uniform x hx)
      (input.uniform y hy)] at hle
    rw [hextend x hx, hextend y hy]
    exact hle

omit [Std.TransOrd V] in
/-- Rows that the keys do not tell apart are the same for either order of the keys. -/
theorem plainFirst_eq_iff {width : Nat} (expressions : List (SortExpression V width))
    (x y : Cells V) :
    compareCross (plainFirst expressions) x y = .eq ↔
      compareCross (listed expressions) x y = .eq := by
  have hperm : (plainFirst expressions).Perm (listed expressions) := by
    unfold plainFirst listed
    rw [← List.map_append]
    exact (List.filter_append_perm _ _).map _
  rw [compareCross_eq_iff, compareCross_eq_iff]
  exact forall_congr' fun k => by rw [hperm.mem_iff]

/-- **ORDER BY.**  With every limit and offset the output is the slice of the rows sorted by the keys
    as listed, if and only if no two rows of the input are put the other way round when the plain
    keys are taken first. -/
theorem order_by_iff :
    (∀ limit offset : Int, SortedSlice (listed expressions) limit offset input.chunks.flatten
        ((createPlanSort expressions limit offset).execute std input).flatten) ↔
      ∀ x ∈ input.chunks.flatten, ∀ y ∈ input.chunks.flatten,
        compareCross (plainFirst expressions) x y = .lt →
          compareCross (listed expressions) x y ≠ .gt := by
  constructor
  · intro h x hx y hy hlt
    obtain ⟨hperm, hascending⟩ := merged_rows std input expressions (-1) 0
    obtain ⟨arranged, -, hsorted, hout⟩ := h (-1) 0
    rw [execute_flatten, createPlanSort_eq] at hout
    have heq : (merged std (createPlanSort expressions (-1) 0) input).map (·.take input.width) =
        arranged := by
      rw [createPlanSort_eq]
      exact hout
    rw [heq] at hperm hascending
    -- Both rows are in the output, and the smaller one cannot be the later one.
    obtain ⟨i, hi, hxi⟩ := List.mem_iff_getElem.mp (hperm.mem_iff.mpr hx)
    obtain ⟨j, hj, hyj⟩ := List.mem_iff_getElem.mp (hperm.mem_iff.mpr hy)
    rcases Nat.lt_trichotomy i j with hij | rfl | hji
    · have hle := List.pairwise_iff_getElem.mp hsorted i j hi hj hij
      rw [hxi, hyj] at hle
      intro hgt
      rw [hgt] at hle
      cases hle
    · have hself : compareCross (plainFirst expressions) x x = .eq := Std.ReflCmp.compare_self
      rw [← hyj, hxi, hself] at hlt
      cases hlt
    · have hle := List.pairwise_iff_getElem.mp hascending j i hj hi hji
      rw [hxi, hyj, Std.OrientedCmp.gt_of_lt hlt] at hle
      cases hle
  · intro h limit offset
    obtain ⟨hperm, hascending⟩ := merged_rows std input expressions limit offset
    refine ⟨_, hperm, hascending.imp_of_mem fun {x y} hx hy hle => ?_, ?_⟩
    · cases hcmp : compareCross (plainFirst expressions) x y with
      | lt =>
        have hne := h x (hperm.mem_iff.mp hx) y (hperm.mem_iff.mp hy) hcmp
        cases hlisted : compareCross (listed expressions) x y with
        | lt => rfl
        | eq => rfl
        | gt => exact absurd hlisted hne
      | eq =>
        rw [(plainFirst_eq_iff expressions x y).mp hcmp]
        rfl
      | gt =>
        rw [hcmp] at hle
        cases hle
    · rw [execute_flatten, createPlanSort_eq]

/-- `ORDER BY a, a + b` is what it says. -/
theorem firstThenSum_sorted :
    SortedSlice (listed firstThenSum) (-1) 0 twoRows.chunks.flatten
      ((createPlanSort firstThenSum (-1) 0).execute .insertion twoRows).flatten :=
  (order_by_iff .insertion twoRows firstThenSum).mpr (by decide) (-1) 0

end Result

/-- The rows come out in the order of `a`, which is not that of `a + b`. -/
theorem sumThenFirst_unsorted :
    ((createPlanSort sumThenFirst (-1) 0).execute .insertion twoRows).flatten =
        [[some 1, some 5], [some 2, some 0]] ∧
      ¬ SortedSlice (listed sumThenFirst) (-1) 0 twoRows.chunks.flatten
        ((createPlanSort sumThenFirst (-1) 0).execute .insertion twoRows).flatten := by
  have hout : ((createPlanSort sumThenFirst (-1) 0).execute .insertion twoRows).flatten =
      [[some 1, some 5], [some 2, some 0]] := by decide
  refine ⟨hout, ?_⟩
  rw [hout]
  rintro ⟨arranged, -, hsorted, heq⟩
  have harranged : arranged = [[some 1, some 5], [some 2, some 0]] := heq.symm
  rw [harranged] at hsorted
  exact absurd ((List.pairwise_cons.mp hsorted).1 _ List.mem_cons_self) (by decide)

end OrderBy
end Query
end Otterbrix
