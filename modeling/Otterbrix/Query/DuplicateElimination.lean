/-
  Otterbrix.Query.DuplicateElimination

  SELECT DISTINCT (`operator_distinct_t`) and UNION (`operator_union_t` without ALL).

  The first one remembers a text for every row, the second one a hash and, in each bucket, the rows
  themselves, which it compares slot by slot.  A slot of a column has stored data also where it is
  NULL, and the comparison looks at the data only.  Comparisons of `logical_value_t` are those of a
  build without assertions.

  The texts tell rows apart if no string can pass for the end of its column (`DistinctSafe`); the
  comparison does if the data under a NULL is no value of the column (`UnionSafe`).
-/
import Otterbrix.Lib.FixedWidth
import Otterbrix.Lib.KeepFirst

namespace Otterbrix
namespace Query
namespace DuplicateElimination

/-! ## Slots -/

/-- The integers a vector can hold; it has no buffer for those of 128 bits. -/
abbrev NarrowType := { t : IntType // t.bits ≤ 64 }

/-- The physical type of a column. -/
inductive Kind where
  | boolean
  | integer (t : NarrowType)
  | real
  | string
  | nested
deriving DecidableEq

/-- The types that `cols_equal` compares by their data, exactly. -/
def Kind.isFixed : Kind → Bool
  | boolean | integer _ => true
  | _ => false

/-- The data of a slot: floating-point numbers `F` and nested values `N` beside the integers and
    strings. -/
inductive Value (F N : Type) where
  | boolean (b : Bool)
  | integer (t : NarrowType) (v : t.val.Carrier)
  | real (f : F)
  | string (s : List Char)
  | nested (x : N)
deriving DecidableEq

def Value.kind {F N : Type} : Value F N → Kind
  | boolean _ => .boolean
  | integer t _ => .integer t
  | real _ => .real
  | string _ => .string
  | nested _ => .nested

/-- A column: its logical type as a number, and its physical type. -/
structure Column where
  code : Nat
  kind : Kind

/-- A slot of a flat vector. -/
structure Slot (F N : Type) where
  valid : Bool
  data : Value F N

/-- What the two operators take from elsewhere: the text a stream writes for a number (six digits),
    `core::is_equals`, `std::hash`, and of structs, lists and arrays (stored as `N`) their values
    `M`, their hashes and their comparison. -/
structure Externals (F N M : Type) where
  floatText : F → List Char
  bar_notMem_floatText : ∀ f, '|' ∉ floatText f
  isEquals : F → F → Bool
  hash : Value F N → UInt64
  nestedValue : N → M
  nestedHash : Bool → N → Option UInt64
  nestedEqual : M → Option (Value F M) → Option Bool

/-- A row of a chunk. -/
abbrev SlotRow (F N : Type) := List (Slot F N)

variable {F N M : Type} (ext : Externals F N M)

namespace Externals

def readValue : Value F N → Value F M
  | .boolean b => .boolean b
  | .integer t v => .integer t v
  | .real f => .real f
  | .string s => .string s
  | .nested x => .nested (ext.nestedValue x)

/-- `value`; NULL where the slot is not valid. -/
def slotValue (s : Slot F N) : Option (Value F M) :=
  if s.valid then some (ext.readValue s.data) else none

/-- The row that the slots stand for. -/
def rowValue (row : SlotRow F N) : List (Option (Value F M)) := row.map ext.slotValue

end Externals

/-! ## DISTINCT -/

/-- What a stream writes for an integer. -/
def decimal (v : Int) : List Char :=
  if v < 0 then '-' :: Nat.toDigits 10 v.natAbs else Nat.toDigits 10 v.natAbs

namespace Externals

/-- What a value adds to the key.  Integers of eight bits are characters for a stream. -/
def valueText : Value F M → List Char
  | .boolean b => if b then ['1'] else ['0']
  | .integer t v => if t.val.bits = 8 then [Char.ofNat (v.val % 256).toNat] else decimal v.val
  | .real f => ext.floatText f
  | .string s => s
  | .nested _ => ['?']

/-- What a column adds to the key.  The literal for NULL starts with a zero byte, so nothing of it
    is written. -/
def cellText (code : Nat) : Option (Value F M) → List Char
  | none => []
  | some v => decimal code ++ ':' :: ext.valueText v

/-- The key of a row; `codes` are the logical types of the columns. -/
def rowKey (codes : List Nat) (row : SlotRow F N) : List Char :=
  (codes.zip (ext.rowValue row)).flatMap fun p => ext.cellText p.1 p.2 ++ ['|']

/-- One row: the keys seen so far and the output. -/
def distinctStep (codes : List Nat) (s : List (List Char) × List (SlotRow F N))
    (row : SlotRow F N) : List (List Char) × List (SlotRow F N) :=
  let key := ext.rowKey codes row
  if key ∈ s.1 then s else (s.1 ++ [key], s.2 ++ [row])

/-- `operator_distinct_t::on_execute_impl`, on the chunks merged to one. -/
def operatorDistinct (codes : List Nat) (chunks : List (List (SlotRow F N))) :
    List (SlotRow F N) :=
  (chunks.flatten.foldl (ext.distinctStep codes) ([], [])).2

/-! ## UNION -/

/-- `operator==` of two values of a column that is not compared by its data.  NULL on the left
    equals everything; a string compared with NULL reads through a null pointer. -/
def valuesEqual (a b : Option (Value F M)) : Option Bool :=
  match a, b with
  | none, _ => some true
  | some (.string s), some (.string s') => some (decide (s = s'))
  | some (.string _), _ => none
  | some (.nested x), b => ext.nestedEqual x b
  | some _, _ => some false

/-- `cols_equal`. -/
def colsEqual (a b : Slot F N) : Option Bool :=
  match a.data, b.data with
  | .boolean x, .boolean y => some (x == y)
  | .integer _ v, .integer _ v' => some (decide (v.val = v'.val))
  | .real x, .real y => some (ext.isEquals x y)
  | _, _ => ext.valuesEqual (ext.slotValue a) (ext.slotValue b)

/-- `rows_equal`. -/
def rowsEqual : SlotRow F N → SlotRow F N → Option Bool
  | a :: as, b :: bs => do
    if ← ext.colsEqual a b then rowsEqual as bs else return false
  | _, _ => some true

/-- `hasher_t::NULL_HASH`. -/
def nullHash : UInt64 := 0xbf58476d1ce4e5b9

/-- The hash of a slot. -/
def hashSlot (s : Slot F N) : Option UInt64 :=
  match s.data with
  | .nested x => ext.nestedHash s.valid x
  | _ => some (if s.valid then ext.hash s.data else nullHash)

/-- `combine_hash_scalar`. -/
def combineHash (a b : UInt64) : UInt64 := (a * 0xbf58476d1ce4e5b9) ^^^ b

/-- `data_chunk_t::hash` of a row. -/
def hashRow : SlotRow F N → Option UInt64
  | [] => some 0
  | s :: row => do
    row.foldlM (fun h s => (ext.hashSlot s).map (combineHash h)) (← ext.hashSlot s)

/-- The search in a bucket. -/
def inBucket (row : SlotRow F N) : List (SlotRow F N) → Option Bool
  | [] => some false
  | ref :: refs => do if ← ext.rowsEqual row ref then return true else inBucket row refs

end Externals

/-- The rows seen so far with their hashes. -/
abbrev Seen (F N : Type) := List (UInt64 × SlotRow F N)

/-- The bucket of a hash. -/
def bucket (seen : Seen F N) (h : UInt64) : List (SlotRow F N) :=
  (seen.filter fun ref => ref.1 = h).map Prod.snd

namespace Externals

/-- One row of a chunk: the rows seen and those selected from the chunk. -/
def unionStep (s : Seen F N × List (SlotRow F N)) (row : SlotRow F N × UInt64) :
    Option (Seen F N × List (SlotRow F N)) := do
  if ← ext.inBucket row.1 (bucket s.1 row.2) then return s
  else return (s.1 ++ [(row.2, row.1)], s.2 ++ [row.1])

/-- `process`: all rows of the chunk are hashed, then those not seen before are selected. -/
def processChunk (s : Seen F N × List (List (SlotRow F N))) (chunk : List (SlotRow F N)) :
    Option (Seen F N × List (List (SlotRow F N))) :=
  if chunk.isEmpty then some s
  else do
    let hashes ← chunk.mapM ext.hashRow
    let (seen, selected) ← (chunk.zip hashes).foldlM ext.unionStep (s.1, [])
    return (seen, if selected.isEmpty then s.2 else s.2 ++ [selected])

/-- `operator_union_t::on_execute_impl` without ALL; `none` if it does not return. -/
def operatorUnion (left right : List (List (SlotRow F N))) :
    Option (List (List (SlotRow F N))) := do
  let s ← (left ++ right).foldlM ext.processChunk ([], [])
  return if s.2.isEmpty then [[]] else s.2

/-! ## DISTINCT keeps one row per key -/

variable {ext} {rows done kept : List (SlotRow F N)}
  {chunk : List (SlotRow F N)} {row r s : SlotRow F N} {codes : List Nat}

/-- Rows of the same values have the same key. -/
theorem rowKey_congr (codes : List Nat) (h : ext.rowValue r = ext.rowValue s) :
    ext.rowKey codes r = ext.rowKey codes s := by
  show ((codes.zip (ext.rowValue r)).flatMap _) = ((codes.zip (ext.rowValue s)).flatMap _)
  rw [h]

/-- The keys of the rows that can occur tell their values apart. -/
def KeysApart (ext : Externals F N M) (codes : List Nat) (rows : List (SlotRow F N)) : Prop :=
  ∀ r ∈ rows, ∀ s ∈ rows, ext.rowKey codes r = ext.rowKey codes s → ext.rowValue r = ext.rowValue s

theorem KeysApart.mem_iff (h : KeysApart ext codes rows) (hkept : ∀ r ∈ kept, r ∈ rows)
    (hrow : row ∈ rows) :
    ext.rowKey codes row ∈ kept.map (ext.rowKey codes) ↔
      ext.rowValue row ∈ kept.map ext.rowValue := by
  rw [List.mem_map, List.mem_map]
  constructor
  · rintro ⟨r, hr, heq⟩
    exact ⟨r, hr, h r (hkept r hr) row hrow heq⟩
  · rintro ⟨r, hr, heq⟩
    exact ⟨r, hr, rowKey_congr codes heq⟩

theorem distinctStep_of_seen (h : ext.rowKey codes row ∈ kept.map (ext.rowKey codes)) :
    ext.distinctStep codes (kept.map (ext.rowKey codes), kept) row =
      (kept.map (ext.rowKey codes), kept) := if_pos h

theorem distinctStep_of_new (h : ext.rowKey codes row ∉ kept.map (ext.rowKey codes)) :
    ext.distinctStep codes (kept.map (ext.rowKey codes), kept) row =
      ((kept ++ [row]).map (ext.rowKey codes), kept ++ [row]) := by
  rw [List.map_append]
  exact if_neg h

/-- The loop over the rows, from any point on. -/
theorem KeysApart.foldl (h : KeysApart ext codes rows) {rest : List (SlotRow F N)}
    (hrest : ∀ r ∈ rest, r ∈ rows) (hkept : ∀ r ∈ kept, r ∈ rows)
    (hone : OnePerClass ext.rowValue done kept) :
    OnePerClass ext.rowValue (done ++ rest)
      (rest.foldl (ext.distinctStep codes) (kept.map (ext.rowKey codes), kept)).2 := by
  induction rest generalizing done kept with
  | nil =>
    rw [List.append_nil]
    exact hone
  | cons row rest ih =>
    have hrow : row ∈ rows := hrest row List.mem_cons_self
    have hrest' : ∀ r ∈ rest, r ∈ rows := fun r hr => hrest r (List.mem_cons_of_mem _ hr)
    have hmem := h.mem_iff hkept hrow
    have hsplit : done ++ row :: rest = (done ++ [row]) ++ rest := by
      rw [List.append_assoc, List.singleton_append]
    rw [hsplit, List.foldl_cons]
    by_cases hseen : ext.rowKey codes row ∈ kept.map (ext.rowKey codes)
    · rw [distinctStep_of_seen hseen]
      exact ih hrest' hkept (hone.drop (hmem.mp hseen))
    · have hkept' : ∀ r ∈ kept ++ [row], r ∈ rows :=
        List.forall_mem_append.mpr ⟨hkept, List.forall_mem_singleton.mpr hrow⟩
      rw [distinctStep_of_new hseen]
      exact ih hrest' hkept' (hone.keep fun hin => hseen (hmem.mpr hin))

/-! ## UNION keeps one row per class of its own comparison -/

/-- A test that returns, with the answer to `p`. -/
def Decides (test : Option Bool) (p : Prop) : Prop := ∃ b, test = some b ∧ (b = true ↔ p)

/-- The hashes and the comparison of the rows that can occur tell their values apart: every row has
    a hash, rows of the same hash are compared rightly, and rows of different hashes differ. -/
structure ComparesValues (ext : Externals F N M) (rows : List (SlotRow F N)) : Prop where
  hashed : ∀ r ∈ rows, (ext.hashRow r).isSome
  compared : ∀ r ∈ rows, ∀ s ∈ rows, ext.hashRow r = ext.hashRow s →
    Decides (ext.rowsEqual s r) (ext.rowValue r = ext.rowValue s)
  apart : ∀ r ∈ rows, ∀ s ∈ rows, ext.rowValue r = ext.rowValue s → ext.hashRow r = ext.hashRow s

/-- The hash of a row that has one. -/
def rowHash (ext : Externals F N M) (row : SlotRow F N) : UInt64 := (ext.hashRow row).getD 0

/-- The map `seen` for the rows kept. -/
def index (ext : Externals F N M) (kept : List (SlotRow F N)) : Seen F N :=
  kept.map fun r => (ext.rowHash r, r)

theorem bucket_index (h : UInt64) :
    bucket (ext.index kept) h = kept.filter fun r => ext.rowHash r = h := by
  rw [bucket, index, List.filter_map, List.map_map]
  exact List.map_id _

/-- The search in a bucket whose rows are all compared rightly. -/
theorem decides_inBucket {refs : List (SlotRow F N)}
    (h : ∀ ref ∈ refs, Decides (ext.rowsEqual row ref) (ext.rowValue ref = ext.rowValue row)) :
    Decides (ext.inBucket row refs) (ext.rowValue row ∈ refs.map ext.rowValue) := by
  induction refs with
  | nil => exact ⟨false, rfl, by simp⟩
  | cons ref refs ih =>
    obtain ⟨b, hb, hiff⟩ := h ref List.mem_cons_self
    obtain ⟨b', hb', hiff'⟩ := ih fun r hr => h r (List.mem_cons_of_mem _ hr)
    rw [List.map_cons, List.mem_cons, ← hiff', eq_comm, ← hiff]
    refine ⟨b || b', ?_, Bool.or_eq_true _ _ ▸ Iff.rfl⟩
    rw [inBucket, hb]
    cases b
    · exact hb'
    · rfl

namespace ComparesValues

theorem hashRow_eq (h : ComparesValues ext rows) (hr : r ∈ rows) :
    ext.hashRow r = some (ext.rowHash r) := by
  obtain ⟨v, hv⟩ := Option.isSome_iff_exists.mp (h.hashed r hr)
  rw [rowHash, hv]
  rfl

theorem mapM_hashRow (h : ComparesValues ext rows) (hchunk : ∀ r ∈ chunk, r ∈ rows) :
    chunk.mapM ext.hashRow = some (chunk.map ext.rowHash) := by
  induction chunk with
  | nil => rfl
  | cons r chunk ih =>
    rw [List.mapM_cons, h.hashRow_eq (hchunk r List.mem_cons_self),
      ih fun s hs => hchunk s (List.mem_cons_of_mem _ hs)]
    rfl

/-- A row is found in its bucket exactly if its values have been kept. -/
theorem decides_seen (h : ComparesValues ext rows) (hkept : ∀ r ∈ kept, r ∈ rows)
    (hrow : row ∈ rows) :
    Decides (ext.inBucket row (bucket (ext.index kept) (ext.rowHash row)))
      (ext.rowValue row ∈ kept.map ext.rowValue) := by
  rw [bucket_index]
  have hhash : ∀ r ∈ kept, (ext.rowHash r = ext.rowHash row ↔ ext.hashRow r = ext.hashRow row) := by
    intro r hr
    rw [h.hashRow_eq (hkept r hr), h.hashRow_eq hrow, Option.some_inj]
  have hrefs : ∀ ref ∈ kept.filter (fun r => ext.rowHash r = ext.rowHash row),
      Decides (ext.rowsEqual row ref) (ext.rowValue ref = ext.rowValue row) := by
    intro ref href
    obtain ⟨hin, heq⟩ := List.mem_filter.mp href
    exact h.compared ref (hkept ref hin) row hrow ((hhash ref hin).mp (of_decide_eq_true heq))
  obtain ⟨b, hb, hiff⟩ := decides_inBucket hrefs
  refine ⟨b, hb, hiff.trans ⟨fun hin => ?_, fun hin => ?_⟩⟩
  · obtain ⟨r, hr, heq⟩ := List.mem_map.mp hin
    exact List.mem_map.mpr ⟨r, (List.mem_filter.mp hr).1, heq⟩
  · obtain ⟨r, hr, heq⟩ := List.mem_map.mp hin
    have hsame := (hhash r hr).mpr (h.apart r (hkept r hr) row hrow heq)
    exact List.mem_map.mpr ⟨r, List.mem_filter.mpr ⟨hr, decide_eq_true hsame⟩, heq⟩

/-- The loop over the rows of a chunk: `picked` are the rows selected. -/
theorem foldlM_unionStep (h : ComparesValues ext rows) (hchunk : ∀ r ∈ chunk, r ∈ rows)
    (hkept : ∀ r ∈ kept, r ∈ rows) (hone : OnePerClass ext.rowValue done kept)
    (selected : List (SlotRow F N)) :
    ∃ picked, (chunk.zip (chunk.map ext.rowHash)).foldlM ext.unionStep (ext.index kept, selected) =
        some (ext.index (kept ++ picked), selected ++ picked) ∧
      OnePerClass ext.rowValue (done ++ chunk) (kept ++ picked) ∧
      ∀ r ∈ kept ++ picked, r ∈ rows := by
  induction chunk generalizing done kept selected with
  | nil =>
    refine ⟨[], ?_, ?_, ?_⟩
    · rw [List.append_nil, List.append_nil]
      rfl
    · rw [List.append_nil, List.append_nil]
      exact hone
    · rw [List.append_nil]
      exact hkept
  | cons row chunk ih =>
    have hrow : row ∈ rows := hchunk row List.mem_cons_self
    have hchunk' : ∀ r ∈ chunk, r ∈ rows := fun r hr => hchunk r (List.mem_cons_of_mem _ hr)
    obtain ⟨b, hb, hiff⟩ := h.decides_seen hkept hrow
    have hsplit : done ++ row :: chunk = (done ++ [row]) ++ chunk := by
      rw [List.append_assoc, List.singleton_append]
    rw [hsplit, List.map_cons, List.zip_cons_cons, List.foldlM_cons, unionStep, hb]
    cases b with
    | true =>
      exact ih hchunk' hkept (hone.drop (hiff.mp rfl)) selected
    | false =>
      have hnew : ext.rowValue row ∉ kept.map ext.rowValue := fun hin =>
        absurd (hiff.mpr hin) Bool.false_ne_true
      have hkept' : ∀ r ∈ kept ++ [row], r ∈ rows :=
        List.forall_mem_append.mpr ⟨hkept, List.forall_mem_singleton.mpr hrow⟩
      obtain ⟨picked, hrun, hone', hin⟩ := ih hchunk' hkept' (hone.keep hnew) (selected ++ [row])
      have hindex : ext.index kept ++ [(ext.rowHash row, row)] = ext.index (kept ++ [row]) := by
        rw [index, index, List.map_append]
        rfl
      refine ⟨row :: picked, ?_, ?_, ?_⟩
      · rw [← List.append_cons, ← List.append_cons] at hrun
        rw [← hrun, ← hindex]
        rfl
      · rw [List.append_cons kept]
        exact hone'
      · rw [List.append_cons kept]
        exact hin

/-- One chunk. -/
theorem processChunk (h : ComparesValues ext rows) (hchunk : ∀ r ∈ chunk, r ∈ rows)
    {out : List (List (SlotRow F N))} (hout : ∀ r ∈ out.flatten, r ∈ rows)
    (hone : OnePerClass ext.rowValue done out.flatten) :
    ∃ out', ext.processChunk (ext.index out.flatten, out) chunk =
        some (ext.index out'.flatten, out') ∧
      OnePerClass ext.rowValue (done ++ chunk) out'.flatten ∧ ∀ r ∈ out'.flatten, r ∈ rows := by
  cases chunk with
  | nil =>
    refine ⟨out, rfl, ?_, hout⟩
    rw [List.append_nil]
    exact hone
  | cons row chunk =>
    obtain ⟨picked, hrun, hone', hin⟩ := h.foldlM_unionStep hchunk hout hone []
    have hcall : ext.processChunk (ext.index out.flatten, out) (row :: chunk) =
        some (ext.index (out.flatten ++ picked),
          if picked.isEmpty then out else out ++ [picked]) := by
      rw [Externals.processChunk, if_neg (by simp), h.mapM_hashRow hchunk]
      show (((row :: chunk).zip ((row :: chunk).map ext.rowHash)).foldlM ext.unionStep
        (ext.index out.flatten, [])).bind _ = _
      rw [hrun]
      rfl
    have hflat : (if picked.isEmpty then out else out ++ [picked]).flatten =
        out.flatten ++ picked := by
      cases picked <;> simp
    refine ⟨if picked.isEmpty then out else out ++ [picked], ?_, ?_, ?_⟩
    · rw [hcall, hflat]
    · rw [hflat]
      exact hone'
    · rw [hflat]
      exact hin

/-- All chunks. -/
theorem foldlM_processChunk (h : ComparesValues ext rows) {chunks : List (List (SlotRow F N))}
    (hchunks : ∀ c ∈ chunks, ∀ r ∈ c, r ∈ rows) {out : List (List (SlotRow F N))}
    (hout : ∀ r ∈ out.flatten, r ∈ rows) (hone : OnePerClass ext.rowValue done out.flatten) :
    ∃ out', chunks.foldlM ext.processChunk (ext.index out.flatten, out) =
        some (ext.index out'.flatten, out') ∧
      OnePerClass ext.rowValue (done ++ chunks.flatten) out'.flatten := by
  induction chunks generalizing done out with
  | nil =>
    refine ⟨out, rfl, ?_⟩
    rw [List.flatten_nil, List.append_nil]
    exact hone
  | cons chunk chunks ih =>
    obtain ⟨out', hcall, hone', hin⟩ := h.processChunk (hchunks chunk List.mem_cons_self) hout hone
    obtain ⟨out'', hrun, hone''⟩ := ih (fun c hc => hchunks c (List.mem_cons_of_mem _ hc)) hin hone'
    rw [List.flatten_cons, ← List.append_assoc]
    refine ⟨out'', ?_, hone''⟩
    rw [List.foldlM_cons, hcall]
    exact hrun

end ComparesValues

/-- UNION returns, with one row for each class of its input. -/
def UnionRight (ext : Externals F N M) (left right : List (List (SlotRow F N))) : Prop :=
  ∃ out, ext.operatorUnion left right = some out ∧
    OnePerClass ext.rowValue (left ++ right).flatten out.flatten

theorem ComparesValues.unionRight {left right : List (List (SlotRow F N))}
    (h : ComparesValues ext (left ++ right).flatten) : ext.UnionRight left right := by
  have hnil : OnePerClass ext.rowValue [] ([] : List (List (SlotRow F N))).flatten :=
    OnePerClass.nil _
  have hrows : ∀ c ∈ left ++ right, ∀ r ∈ c, r ∈ (left ++ right).flatten :=
    fun c hc r hr => List.mem_flatten.mpr ⟨c, hc, hr⟩
  obtain ⟨out, hrun, hone⟩ := h.foldlM_processChunk hrows
    (fun _ hr => absurd hr List.not_mem_nil) hnil
  rw [List.nil_append] at hone
  refine ⟨if out.isEmpty then [[]] else out, ?_, ?_⟩
  · rw [operatorUnion]
    show (List.foldlM ext.processChunk (ext.index [].flatten, []) (left ++ right)).bind _ = _
    rw [hrun]
    rfl
  · cases out with
    | nil => exact hone
    | cons c out => exact hone

end Externals

/-! ## Keys that tell rows apart -/

theorem decimal_injective {v w : Int} (h : decimal v = decimal w) : v = w := by
  have hsign : ∀ {n : Nat} {l : List Char}, Nat.toDigits 10 n ≠ '-' :: l := by
    intro n l heq
    have hdigit : '-'.isDigit = true :=
      Nat.isDigit_of_mem_toDigits (by decide) (by decide) (heq ▸ List.mem_cons_self)
    exact absurd hdigit (by decide)
  have habs : ∀ {m n : Nat}, Nat.toDigits 10 m = Nat.toDigits 10 n → m = n := by
    intro m n heq
    have hback := congrArg (Nat.ofDigitChars 10 · 0) heq
    simpa only [Nat.ofDigitChars_ten_toDigits] using hback
  unfold decimal at h
  split_ifs at h with hv hw hw
  · have := habs (List.cons.inj h).2
    omega
  · exact absurd h.symm hsign
  · exact absurd h hsign
  · have := habs h
    omega

theorem bar_notMem_decimal (v : Int) : '|' ∉ decimal v := by
  have hdigits : ∀ n, '|' ∉ Nat.toDigits 10 n := by
    intro n hmem
    have hdigit : '|'.isDigit = true := Nat.isDigit_of_mem_toDigits (by decide) (by decide) hmem
    exact absurd hdigit (by decide)
  unfold decimal
  split_ifs
  · simpa using hdigits v.natAbs
  · exact hdigits v.natAbs

theorem decimal_ne_nil (v : Int) : decimal v ≠ [] := by
  unfold decimal
  split_ifs
  · exact List.cons_ne_nil _ _
  · exact Nat.toDigits_ne_nil

/-- A byte is written as it is. -/
theorem ofNat_emod_injective {t : IntType} (ht : t.bits = 8) {v w : t.Carrier}
    (h : Char.ofNat (v.val % 256).toNat = Char.ofNat (w.val % 256).toNat) : v = w := by
  have hchar : ∀ n : Int, (Char.ofNat (n % 256).toNat).toNat = (n % 256).toNat := by
    intro n
    have hvalid : (n % 256).toNat.isValidChar := .inl (by omega)
    rw [Char.ofNat, dif_pos hvalid]
    rfl
  have hsame := congrArg Char.toNat h
  rw [hchar, hchar] at hsame
  obtain ⟨v, hv⟩ := v
  obtain ⟨w, hw⟩ := w
  refine Subtype.ext ?_
  cases t <;>
    simp only [IntType.bits, IntType.InRange, IntType.min, IntType.max] at ht hv hw hsame ⊢ <;>
    omega

/-- A text ends at the first character that is not in it. -/
theorem append_cons_injective {c : Char} {l l' x y : List Char} (hl : c ∉ l) (hl' : c ∉ l')
    (h : l ++ c :: x = l' ++ c :: y) : l = l' ∧ x = y := by
  induction l generalizing l' with
  | nil =>
    cases l' with
    | nil => exact ⟨rfl, (List.cons.inj h).2⟩
    | cons d l' => exact absurd (List.mem_cons.mpr (.inl (List.cons.inj h).1)) hl'
  | cons d l ih =>
    obtain ⟨hd, hl⟩ : c ≠ d ∧ c ∉ l := by simpa using hl
    cases l' with
    | nil => exact absurd (List.cons.inj h).1.symm hd
    | cons d' l' =>
      obtain ⟨rfl, htail⟩ := List.cons.inj h
      obtain ⟨rfl, hrest⟩ := ih hl (fun hmem => hl' (List.mem_cons_of_mem _ hmem)) htail
      exact ⟨rfl, hrest⟩

namespace Externals

variable {ext} {u v : Value F M}

/-- The text of a value tells it from others of its kind, if it has its own text. -/
theorem valueText_injective (hkind : u.kind = v.kind)
    (hreal : ∀ f g, u = .real f → v = .real g → ext.floatText f = ext.floatText g → f = g)
    (hnested : ∀ x y, u = .nested x → v = .nested y → x = y)
    (h : ext.valueText u = ext.valueText v) : u = v := by
  cases u with
  | boolean b =>
    cases v with
    | boolean b' => cases b <;> cases b' <;> simp_all [valueText]
    | _ => cases hkind
  | integer t a =>
    cases v with
    | integer t' a' =>
      obtain rfl := Kind.integer.inj hkind
      simp only [valueText] at h
      split_ifs at h with hbits
      · rw [ofNat_emod_injective hbits (List.cons.inj h).1]
      · rw [Subtype.ext (decimal_injective h)]
    | _ => cases hkind
  | real f =>
    cases v with
    | real g => rw [hreal f g rfl rfl h]
    | _ => cases hkind
  | string s =>
    cases v with
    | string s' => exact congrArg Value.string h
    | _ => cases hkind
  | nested x =>
    cases v with
    | nested y => rw [hnested x y rfl rfl]
    | _ => cases hkind

/-- The end of a value's text is found again. -/
theorem valueText_append (hkind : u.kind = v.kind) (hu : ∀ s, u = .string s → '|' ∉ s)
    (hv : ∀ s, v = .string s → '|' ∉ s) {x y : List Char}
    (h : ext.valueText u ++ '|' :: x = ext.valueText v ++ '|' :: y) :
    ext.valueText u = ext.valueText v ∧ x = y := by
  have hbar : ∀ w : Value F M, (∀ t a, w = .integer t a → t.val.bits ≠ 8) →
      (∀ s, w = .string s → '|' ∉ s) → '|' ∉ ext.valueText w := by
    intro w hwide hstring
    cases w with
    | boolean b => cases b <;> simp [valueText]
    | integer t a =>
      rw [valueText, if_neg (hwide t a rfl)]
      exact bar_notMem_decimal a.val
    | real f => exact ext.bar_notMem_floatText f
    | string s => exact hstring s rfl
    | nested x => simp [valueText]
  by_cases hbyte : ∃ t a, u = .integer t a ∧ t.val.bits = 8
  · -- a byte of either sign is one character
    obtain ⟨t, a, rfl, hbits⟩ := hbyte
    cases v with
    | integer t' a' =>
      obtain rfl := Kind.integer.inj hkind
      simp only [valueText, if_pos hbits, List.singleton_append, List.cons.injEq] at h ⊢
      exact ⟨⟨h.1, trivial⟩, h.2.2⟩
    | _ => cases hkind
  · have hu' : '|' ∉ ext.valueText u :=
      hbar u (fun t a heq hbits => hbyte ⟨t, a, heq, hbits⟩) hu
    have hv' : '|' ∉ ext.valueText v := by
      refine hbar v (fun t a heq hbits => ?_) hv
      subst heq
      cases u with
      | integer t' a' =>
        obtain rfl := Kind.integer.inj hkind
        exact hbyte ⟨t', a', rfl, hbits⟩
      | _ => cases hkind
    exact append_cons_injective hu' hv' h

theorem cellText_injective {code : Nat} {u v : Option (Value F M)}
    (h : ∀ a b, u = some a → v = some b → ext.valueText a = ext.valueText b → a = b)
    (heq : ext.cellText code u = ext.cellText code v) : u = v := by
  have hsome : ∀ w : Value F M, ext.cellText code (some w) ≠ [] := by
    intro w hnil
    exact decimal_ne_nil code (List.append_eq_nil_iff.mp hnil).1
  match u, v with
  | none, none => rfl
  | none, some b => exact absurd heq.symm (hsome b)
  | some a, none => exact absurd heq (hsome a)
  | some a, some b =>
    rw [h a b rfl rfl (List.cons.inj (List.append_cancel_left heq)).2]

theorem cellText_append {code : Nat} {u v : Option (Value F M)}
    (hkind : ∀ a b, u = some a → v = some b → a.kind = b.kind)
    (hu : ∀ s, u = some (.string s) → '|' ∉ s) (hv : ∀ s, v = some (.string s) → '|' ∉ s)
    {x y : List Char} (h : ext.cellText code u ++ '|' :: x = ext.cellText code v ++ '|' :: y) :
    ext.cellText code u = ext.cellText code v ∧ x = y := by
  -- a NULL ends where a value has its type
  have hnull : ∀ (w : Value F M) {x y : List Char},
      '|' :: x ≠ ext.cellText code (some w) ++ '|' :: y := by
    intro w x y heq
    obtain ⟨d, ds, hcode⟩ := List.exists_cons_of_ne_nil (decimal_ne_nil code)
    have hbar : '|' ∈ decimal code := by
      rw [cellText, hcode] at heq
      rw [hcode, (List.cons.inj heq).1]
      exact List.mem_cons_self
    exact bar_notMem_decimal code hbar
  match u, v with
  | none, none => exact ⟨rfl, (List.cons.inj h).2⟩
  | none, some b => exact absurd h (hnull b)
  | some a, none => exact absurd h.symm (hnull a)
  | some a, some b =>
    simp only [cellText, List.append_assoc, List.cons_append] at h ⊢
    obtain ⟨htext, hrest⟩ := valueText_append (hkind a b rfl rfl) (fun s hs => hu s (hs ▸ rfl))
      (fun s hs => hv s (hs ▸ rfl)) (List.cons.inj (List.append_cancel_left h)).2
    exact ⟨by rw [htext], hrest⟩

/-- The columns of an input are what they are said to be. -/
def HasColumns (columns : List Column) (row : SlotRow F N) : Prop :=
  row.map (fun slot => slot.data.kind) = columns.map Column.kind

/-- **DISTINCT tells the rows apart** if no string but in the last column has a bar in it, different
    numbers of a floating-point column have different texts, and the values of a nested column are
    all the same. -/
structure DistinctSafe (ext : Externals F N M) (columns : List Column)
    (rows : List (SlotRow F N)) : Prop where
  typed : ∀ r ∈ rows, HasColumns columns r
  strings : ∀ r ∈ rows, ∀ slot ∈ r.dropLast, slot.valid = true → ∀ s, slot.data = .string s →
    '|' ∉ s
  reals : ∀ r ∈ rows, ∀ r' ∈ rows, ∀ p ∈ r.zip r', p.1.valid = true → p.2.valid = true →
    ∀ f g, p.1.data = .real f → p.2.data = .real g → ext.floatText f = ext.floatText g → f = g
  nested : ∀ r ∈ rows, ∀ r' ∈ rows, ∀ p ∈ r.zip r', p.1.valid = true → p.2.valid = true →
    ∀ x y, p.1.data = .nested x → p.2.data = .nested y → ext.nestedValue x = ext.nestedValue y

theorem kind_readValue (d : Value F N) : (ext.readValue d).kind = d.kind := by
  cases d <;> rfl

theorem slotValue_eq_some {slot : Slot F N} {a : Value F M} (h : ext.slotValue slot = some a) :
    slot.valid = true ∧ ext.readValue slot.data = a := by
  unfold slotValue at h
  split at h
  · next hvalid => exact ⟨hvalid, Option.some.inj h⟩
  · cases h

theorem data_eq_of_readValue {d : Value F N} :
    (∀ f, ext.readValue d = .real f → d = .real f) ∧
      (∀ s, ext.readValue d = .string s → d = .string s) ∧
      ∀ x, ext.readValue d = .nested x → ∃ y, d = .nested y ∧ ext.nestedValue y = x := by
  cases d <;> simp [readValue]

theorem kind_eq_of_slotValue {a b : Slot F N} (hkind : a.data.kind = b.data.kind)
    {x y : Value F M} (hx : ext.slotValue a = some x) (hy : ext.slotValue b = some y) :
    x.kind = y.kind := by
  rw [← (slotValue_eq_some hx).2, ← (slotValue_eq_some hy).2, kind_readValue, kind_readValue]
  exact hkind

/-- Two slots of a column with one text hold one value. -/
theorem slotValue_eq_of_cellText (code : Nat) {a b : Slot F N} (hkind : a.data.kind = b.data.kind)
    (hreals : a.valid = true → b.valid = true → ∀ f g, a.data = .real f → b.data = .real g →
      ext.floatText f = ext.floatText g → f = g)
    (hnested : a.valid = true → b.valid = true → ∀ x y, a.data = .nested x → b.data = .nested y →
      ext.nestedValue x = ext.nestedValue y)
    (h : ext.cellText code (ext.slotValue a) = ext.cellText code (ext.slotValue b)) :
    ext.slotValue a = ext.slotValue b := by
  refine cellText_injective (fun x y hx hy => ?_) h
  obtain ⟨hva, hxa⟩ := slotValue_eq_some hx
  obtain ⟨hvb, hyb⟩ := slotValue_eq_some hy
  refine valueText_injective (kind_eq_of_slotValue hkind hx hy) (fun f g hf hg => ?_)
    fun p q hp hq => ?_
  · exact hreals hva hvb f g (data_eq_of_readValue.1 f (hxa.trans hf))
      (data_eq_of_readValue.1 g (hyb.trans hg))
  · obtain ⟨x', hx', hpx⟩ := data_eq_of_readValue.2.2 p (hxa.trans hp)
    obtain ⟨y', hy', hqy⟩ := data_eq_of_readValue.2.2 q (hyb.trans hq)
    rw [← hpx, ← hqy]
    exact hnested hva hvb x' y' hx' hy'

/-- No string but in the last column has a bar in it. -/
def BarsLast (row : SlotRow F N) : Prop :=
  ∀ slot ∈ row.dropLast, slot.valid = true → ∀ s, slot.data = .string s → '|' ∉ s

theorem BarsLast.head {slot : Slot F N} {rest : SlotRow F N} (h : BarsLast (slot :: rest))
    (hne : rest ≠ []) : ∀ s, ext.slotValue slot = some (.string s) → '|' ∉ s := by
  intro s hs
  rw [BarsLast, List.dropLast_cons_of_ne_nil hne] at h
  obtain ⟨hvalid, hdata⟩ := slotValue_eq_some hs
  exact h slot List.mem_cons_self hvalid s (data_eq_of_readValue.2.1 s hdata)

theorem BarsLast.tail {slot : Slot F N} {rest : SlotRow F N} (h : BarsLast (slot :: rest)) :
    BarsLast rest := by
  intro slot' hmem
  have hne : rest ≠ [] := by
    rintro rfl
    cases hmem
  rw [BarsLast, List.dropLast_cons_of_ne_nil hne] at h
  exact h slot' (List.mem_cons_of_mem _ hmem)

/-- By induction on the columns: the text of the first cell ends before the others begin. -/
theorem rowKey_injective {codes : List Nat} {r s : SlotRow F N} (hlen : r.length = codes.length)
    (hkind : r.map (fun slot => slot.data.kind) = s.map fun slot => slot.data.kind)
    (hr : BarsLast r) (hs : BarsLast s)
    (hreals : ∀ p ∈ r.zip s, p.1.valid = true → p.2.valid = true → ∀ f g, p.1.data = .real f →
      p.2.data = .real g → ext.floatText f = ext.floatText g → f = g)
    (hnested : ∀ p ∈ r.zip s, p.1.valid = true → p.2.valid = true → ∀ x y, p.1.data = .nested x →
      p.2.data = .nested y → ext.nestedValue x = ext.nestedValue y)
    (hkey : ext.rowKey codes r = ext.rowKey codes s) : ext.rowValue r = ext.rowValue s := by
  induction codes generalizing r s with
  | nil =>
    obtain rfl := List.length_eq_zero_iff.mp hlen
    obtain rfl := List.map_eq_nil_iff.mp hkind.symm
    rfl
  | cons code codes ih =>
    match r, s with
    | [], _ => exact absurd hlen (by simp)
    | _ :: _, [] => exact absurd hkind (by simp)
    | a :: r, b :: s =>
      obtain ⟨hhead, htail⟩ := List.cons.inj hkind
      have hkey' : ext.cellText code (ext.slotValue a) ++ '|' :: ext.rowKey codes r =
          ext.cellText code (ext.slotValue b) ++ '|' :: ext.rowKey codes s := by
        simpa [rowKey, rowValue] using hkey
      have hmem : (a, b) ∈ (a :: r).zip (b :: s) := List.mem_cons_self
      have hcell := slotValue_eq_of_cellText code hhead (hreals _ hmem) (hnested _ hmem)
      have hboth : ext.slotValue a = ext.slotValue b ∧ ext.rowKey codes r = ext.rowKey codes s := by
        cases r with
        | nil =>
          -- the last cell is all that is left, whatever is in it
          obtain rfl := List.map_eq_nil_iff.mp htail.symm
          exact ⟨hcell (List.append_cancel_right hkey'), rfl⟩
        | cons a' r =>
          have hne : s ≠ [] := by
            rintro rfl
            cases htail
          obtain ⟨htext, hrest⟩ := cellText_append (fun x y => kind_eq_of_slotValue hhead)
            (hr.head (List.cons_ne_nil _ _)) (hs.head hne) hkey'
          exact ⟨hcell htext, hrest⟩
      have hrest := ih (Nat.succ.inj hlen) htail hr.tail hs.tail
        (fun p hp => hreals p (List.mem_cons_of_mem _ hp))
        (fun p hp => hnested p (List.mem_cons_of_mem _ hp)) hboth.2
      show ext.slotValue a :: ext.rowValue r = ext.slotValue b :: ext.rowValue s
      rw [hboth.1, hrest]

theorem DistinctSafe.keysApart {columns : List Column} {rows : List (SlotRow F N)}
    (h : DistinctSafe ext columns rows) : KeysApart ext (columns.map Column.code) rows := by
  intro r hr s hs hkey
  have hlen : r.length = (columns.map Column.code).length := by
    have hmap := congrArg List.length (h.typed r hr)
    rw [List.length_map, List.length_map] at hmap
    rw [hmap, List.length_map]
  exact rowKey_injective hlen ((h.typed r hr).trans (h.typed s hs).symm) (h.strings r hr)
    (h.strings s hs) (h.reals r hr s hs) (h.nested r hr s hs) hkey

/-! ## Comparisons that tell rows apart -/

/-- Columns of one row and another in which a function of the slots is the same throughout. -/
theorem eq_of_mem_zip {α : Type} {f : Slot F N → α} {r s : SlotRow F N}
    (h : r.map f = s.map f) {p : Slot F N × Slot F N} (hp : p ∈ r.zip s) : f p.1 = f p.2 := by
  induction r generalizing s with
  | nil => cases hp
  | cons a r ih =>
    cases s with
    | nil => cases hp
    | cons b s =>
      obtain ⟨hhead, htail⟩ := List.cons.inj h
      rcases List.mem_cons.mp hp with rfl | hp
      · exact hhead
      · exact ih htail hp

theorem map_eq_of_zip {α : Type} {f : Slot F N → α} {r s : SlotRow F N}
    (hlen : r.length = s.length) (h : ∀ p ∈ r.zip s, f p.1 = f p.2) : r.map f = s.map f := by
  induction r generalizing s with
  | nil =>
    obtain rfl := List.length_eq_zero_iff.mp hlen.symm
    rfl
  | cons a r ih =>
    cases s with
    | nil => cases hlen
    | cons b s =>
      rw [List.map_cons, List.map_cons, h (a, b) List.mem_cons_self,
        ih (Nat.succ.inj hlen) fun p hp => h p (List.mem_cons_of_mem _ hp)]

/-- **UNION tells the rows apart** if the data of a fixed-width column tells its values apart, that
    is, if its NULLs all lie over the same data, which is no value of the column; if the numbers of
    a floating-point column are told apart in the same way by `is_equals`; and if a string column is
    NULL everywhere or nowhere.  There must be no nested column. -/
structure UnionSafe (ext : Externals F N M) (columns : List Column)
    (rows : List (SlotRow F N)) : Prop where
  typed : ∀ r ∈ rows, HasColumns columns r
  flat : ∀ c ∈ columns, c.kind ≠ .nested
  fixed : ∀ r ∈ rows, ∀ r' ∈ rows, ∀ p ∈ r.zip r',
    p.1.data.kind.isFixed = true → (p.1.data = p.2.data ↔ ext.slotValue p.1 = ext.slotValue p.2)
  reals : ∀ r ∈ rows, ∀ r' ∈ rows, ∀ p ∈ r.zip r', ∀ f g, p.1.data = .real f → p.2.data = .real g →
    (ext.isEquals f g = true ↔ ext.slotValue p.1 = ext.slotValue p.2)
  strings : ∀ r ∈ rows, ∀ r' ∈ rows, ∀ p ∈ r.zip r', p.1.data.kind = .string →
    p.1.valid = p.2.valid

section Slots

variable {a b : Slot F N}

/-- Two slots of a column. -/
theorem decides_colsEqual (hkind : a.data.kind = b.data.kind) (hflat : a.data.kind ≠ .nested)
    (hfixed : a.data.kind.isFixed = true →
      (a.data = b.data ↔ ext.slotValue a = ext.slotValue b))
    (hreal : ∀ f g, a.data = .real f → b.data = .real g →
      (ext.isEquals f g = true ↔ ext.slotValue a = ext.slotValue b))
    (hstring : a.data.kind = .string → a.valid = b.valid) :
    Decides (ext.colsEqual a b) (ext.slotValue a = ext.slotValue b) := by
  obtain ⟨va, da⟩ := a
  obtain ⟨vb, db⟩ := b
  cases da with
  | boolean x =>
    cases db with
    | boolean y =>
      refine ⟨x == y, rfl, ?_⟩
      rw [← hfixed rfl, beq_iff_eq]
      exact ⟨fun h => h ▸ rfl, fun h => Value.boolean.inj h⟩
    | _ => cases hkind
  | integer t v =>
    cases db with
    | integer t' w =>
      obtain rfl := Kind.integer.inj hkind
      refine ⟨decide (v.val = w.val), rfl, ?_⟩
      rw [← hfixed rfl, decide_eq_true_iff]
      exact ⟨fun h => Subtype.ext h ▸ rfl, fun h => by cases h; rfl⟩
    | _ => cases hkind
  | real f =>
    cases db with
    | real g => exact ⟨ext.isEquals f g, rfl, hreal f g rfl rfl⟩
    | _ => cases hkind
  | string s =>
    cases db with
    | string s' =>
      obtain rfl : va = vb := hstring rfl
      cases va with
      | false => exact ⟨true, rfl, by simp [slotValue]⟩
      | true => exact ⟨decide (s = s'), rfl, by simp [slotValue, readValue]⟩
    | _ => cases hkind
  | nested x => exact absurd rfl hflat

theorem hashSlot_of_flat (hflat : a.data.kind ≠ .nested) :
    ext.hashSlot a = some (if a.valid then ext.hash a.data else nullHash) := by
  obtain ⟨v, d⟩ := a
  cases d with
  | nested x => exact absurd rfl hflat
  | _ => rfl

theorem hashSlot_congr (hkind : a.data.kind = b.data.kind) (hflat : a.data.kind ≠ .nested)
    (h : ext.slotValue a = ext.slotValue b) : ext.hashSlot a = ext.hashSlot b := by
  have hflat' : b.data.kind ≠ .nested := by
    rw [← hkind]
    exact hflat
  rw [hashSlot_of_flat hflat, hashSlot_of_flat hflat']
  obtain ⟨va, da⟩ := a
  obtain ⟨vb, db⟩ := b
  cases va <;> cases vb
  · rfl
  · cases h
  · cases h
  · have hread : ext.readValue da = ext.readValue db := Option.some.inj h
    have hdata : da = db := by
      cases da <;> cases db <;> simp_all [readValue, Value.kind]
    rw [hdata]

end Slots

section Rows

variable {r s : SlotRow F N}

theorem decides_rowsEqual (hlen : r.length = s.length)
    (h : ∀ p ∈ r.zip s, Decides (ext.colsEqual p.1 p.2) (ext.slotValue p.1 = ext.slotValue p.2)) :
    Decides (ext.rowsEqual r s) (ext.rowValue r = ext.rowValue s) := by
  induction r generalizing s with
  | nil =>
    obtain rfl := List.length_eq_zero_iff.mp hlen.symm
    exact ⟨true, rfl, by simp⟩
  | cons a r ih =>
    cases s with
    | nil => cases hlen
    | cons b s =>
      obtain ⟨c, hc, hcell⟩ := h (a, b) List.mem_cons_self
      obtain ⟨c', hc', hrest⟩ := ih (Nat.succ.inj hlen) fun p hp => h p (List.mem_cons_of_mem _ hp)
      refine ⟨c && c', ?_, ?_⟩
      · rw [rowsEqual, hc]
        cases c
        · rfl
        · exact hc'
      · show _ ↔ ext.slotValue a :: ext.rowValue r = ext.slotValue b :: ext.rowValue s
        rw [Bool.and_eq_true, hcell, hrest, List.cons.injEq]

theorem hashRow_isSome (hflat : ∀ slot ∈ r, slot.data.kind ≠ .nested) :
    (ext.hashRow r).isSome := by
  have hloop : ∀ (rest : SlotRow F N) (h : UInt64), (∀ slot ∈ rest, slot.data.kind ≠ .nested) →
      (rest.foldlM (fun h s => (ext.hashSlot s).map (combineHash h)) h).isSome := by
    intro rest
    induction rest with
    | nil => exact fun _ _ => rfl
    | cons slot rest ih =>
      intro h hrest
      rw [List.foldlM_cons, hashSlot_of_flat (hrest slot List.mem_cons_self)]
      exact ih _ fun s hs => hrest s (List.mem_cons_of_mem _ hs)
  cases r with
  | nil => rfl
  | cons slot rest =>
    rw [hashRow, hashSlot_of_flat (hflat slot List.mem_cons_self)]
    exact hloop rest _ fun s hs => hflat s (List.mem_cons_of_mem _ hs)

/-- The hash of a row is a function of the hashes of its slots. -/
theorem hashRow_congr (h : r.map ext.hashSlot = s.map ext.hashSlot) :
    ext.hashRow r = ext.hashRow s := by
  have hloop : ∀ (rest : SlotRow F N) (v : UInt64),
      rest.foldlM (fun v slot => (ext.hashSlot slot).map (combineHash v)) v =
        (rest.map ext.hashSlot).foldlM (fun v o => o.map (combineHash v)) v :=
    fun rest v => List.foldlM_map.symm
  cases r with
  | nil =>
    obtain rfl := List.map_eq_nil_iff.mp h.symm
    rfl
  | cons a r =>
    cases s with
    | nil => cases h
    | cons b s =>
      obtain ⟨hhead, htail⟩ := List.cons.inj h
      simp only [hashRow, hloop]
      rw [hhead, htail]

end Rows

namespace UnionSafe

variable {columns : List Column} {rows : List (SlotRow F N)}

theorem ne_nested (h : UnionSafe ext columns rows) {r : SlotRow F N} (hr : r ∈ rows) :
    ∀ slot ∈ r, slot.data.kind ≠ .nested := by
  intro slot hslot
  have hmem : slot.data.kind ∈ columns.map Column.kind := by
    rw [← h.typed r hr]
    exact List.mem_map_of_mem hslot
  obtain ⟨c, hc, hkind⟩ := List.mem_map.mp hmem
  rw [← hkind]
  exact h.flat c hc

/-- The hashes and the comparison tell the rows apart. -/
theorem comparesValues (h : UnionSafe ext columns rows) : ComparesValues ext rows := by
  have hkinds : ∀ r ∈ rows, ∀ s ∈ rows,
      r.map (fun slot => slot.data.kind) = s.map fun slot => slot.data.kind :=
    fun r hr s hs => (h.typed r hr).trans (h.typed s hs).symm
  refine ⟨fun r hr => hashRow_isSome (h.ne_nested hr), fun r hr s hs _ => ?_,
    fun r hr s hs heq => ?_⟩
  · have hcells : ∀ p ∈ s.zip r,
        Decides (ext.colsEqual p.1 p.2) (ext.slotValue p.1 = ext.slotValue p.2) := fun p hp =>
      decides_colsEqual (eq_of_mem_zip (hkinds s hs r hr) hp)
        (h.ne_nested hs _ (List.of_mem_zip hp).1) (h.fixed s hs r hr p hp) (h.reals s hs r hr p hp)
        (h.strings s hs r hr p hp)
    have hlen : s.length = r.length := by simpa using congrArg List.length (hkinds s hs r hr)
    rw [eq_comm]
    exact decides_rowsEqual hlen hcells
  · have hlen : r.length = s.length := by simpa using congrArg List.length (hkinds r hr s hs)
    refine hashRow_congr (map_eq_of_zip hlen fun p hp => ?_)
    exact hashSlot_congr (eq_of_mem_zip (hkinds r hr s hs) hp)
      (h.ne_nested hr _ (List.of_mem_zip hp).1) (eq_of_mem_zip heq hp)

end UnionSafe

end Externals

/-! ## Both operators -/

/-- Parameters for tables without floating-point and nested columns, and a hash by length. -/
def plain : Externals Empty Empty Empty where
  floatText := nofun
  bar_notMem_floatText := nofun
  isEquals := nofun
  hash
    | .integer _ v => UInt64.ofInt v.val
    | .string s => UInt64.ofNat s.length
    | _ => 1
  nestedValue := nofun
  nestedHash := nofun
  nestedEqual := nofun

/-- A slot of a BIGINT column. -/
def bigint (valid : Bool) (v : IntType.int64.Carrier) : Slot Empty Empty :=
  ⟨valid, .integer ⟨.int64, by decide⟩ v⟩

/-- A slot of a STRING column. -/
def text (s : List Char) : Slot Empty Empty := ⟨true, .string s⟩

/-- A row of a BIGINT and a STRING column. -/
def pair (valid : Bool) (v : IntType.int64.Carrier) (s : List Char) : SlotRow Empty Empty :=
  [bigint valid v, text s]

def pairColumns : List Column := [⟨14, .integer ⟨.int64, by decide⟩⟩, ⟨35, .string⟩]

theorem hasColumns_pair {valid : Bool} {v : IntType.int64.Carrier} {s : List Char} :
    Externals.HasColumns pairColumns (pair valid v s) := rfl

/-- Two different rows of STRING columns, one with a bar in the first column and one with a bar in
    the second. -/
def barred : List (SlotRow Empty Empty) :=
  [[text ['x', '|', '3', '5', ':', 'y'], text ['z']],
    [text ['x'], text ['y', '|', '3', '5', ':', 'z']]]

end DuplicateElimination
end Query
end Otterbrix
