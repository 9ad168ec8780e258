/-
  Otterbrix.Table.StringRoundTrip

  What the readers of a string segment return.  The offsets of the rows and the size of the
  dictionary follow the space that each row takes, whatever the strings are; and as long as every
  string is short enough for the dictionary, each one stays where its offset says.  A longer string
  takes 8 bytes, so the readers find a string of at most 8 bytes in its place.
-/
import Otterbrix.Table.StringSegment

namespace Otterbrix
namespace Table

open Storage Bytes

section Numbers

variable {m : Memory} {off off' : Nat}

theorem loadU32_storeU32 (m : Memory) (off : Nat) {n : Nat} (hn : n < 2 ^ 32) :
    loadU32 (storeU32 m off n) off = n := by
  have hload := Memory.load_store m off (leBytes 4 n)
  rw [length_leBytes] at hload
  rw [loadU32, storeU32, hload, leNat_leBytes]
  exact Nat.mod_eq_of_lt hn

theorem load_storeU32 {n k : Nat} (h : off' + k ≤ off ∨ off + 4 ≤ off') :
    (storeU32 m off n).load off' k = m.load off' k :=
  Memory.load_store_of_disjoint (by rwa [length_leBytes])

theorem loadU32_storeU32_of_disjoint {n : Nat} (h : off' + 4 ≤ off ∨ off + 4 ≤ off') :
    loadU32 (storeU32 m off n) off' = loadU32 m off' := by
  rw [loadU32, load_storeU32 h, loadU32]

theorem loadI32_storeI32 (m : Memory) (off : Nat) {v : Int} (hv : IntType.int32.InRange v) :
    loadI32 (storeI32 m off v) off = v := by
  have hnonneg : 0 ≤ v % 2 ^ 32 := Int.emod_nonneg v (by decide)
  have hlt : v % 2 ^ 32 < 2 ^ 32 := Int.emod_lt_of_pos v (by decide)
  have hsame : IntType.int32.wrap (v % 2 ^ 32) = IntType.int32.wrap v := by
    refine IntType.wrap_congr ⟨-(v / 2 ^ 32), ?_⟩
    have hdiv := Int.emod_add_mul_ediv v (2 ^ 32)
    show v % 2 ^ 32 - v = 2 ^ 32 * -(v / 2 ^ 32)
    omega
  rw [loadI32, storeI32, loadU32_storeU32 _ _ (by omega), Int.toNat_of_nonneg hnonneg, hsame,
    IntType.wrap_of_inRange hv]

theorem inRange_int32 {v : Int} (h : v.natAbs < 2 ^ 31) : IntType.int32.InRange v := by
  have hmin : IntType.int32.min = -2 ^ 31 := rfl
  have hmax : IntType.int32.max = 2 ^ 31 - 1 := rfl
  rw [IntType.InRange, hmin, hmax]
  omega

end Numbers

namespace StringSegment

variable {g : Geometry} {bm : BufferManager} {s : StringSegment}

section Frames

variable {i j n : Nat} {v : Int}

@[simp] theorem dictionarySize_setOffset : (s.setOffset i v).dictionarySize = s.dictionarySize :=
  loadU32_storeU32_of_disjoint (.inl (by unfold dictionaryHeaderSize; omega))

@[simp] theorem dictionaryEnd_setOffset : (s.setOffset i v).dictionaryEnd = s.dictionaryEnd :=
  loadU32_storeU32_of_disjoint (.inl (by unfold dictionaryHeaderSize; omega))

theorem offsetAt_setOffset (hv : v.natAbs < 2 ^ 31) : (s.setOffset i v).offsetAt i = v :=
  loadI32_storeI32 _ _ (inRange_int32 hv)

theorem offsetAt_setOffset_of_ne (h : j ≠ i) : (s.setOffset i v).offsetAt j = s.offsetAt j := by
  unfold offsetAt loadI32
  rw [setOffset, storeI32, loadU32_storeU32_of_disjoint (by unfold dictionaryHeaderSize; omega)]

theorem load_setOffset {off k : Nat} (h : dictionaryHeaderSize + 4 * (i + 1) ≤ off) :
    (s.setOffset i v).buffer.load off k = s.buffer.load off k :=
  load_storeU32 (.inr (by omega))

/-- A piece of the dictionary, with the offsets of `k` rows below it. -/
structure Pushed (s : StringSegment) (k n : Nat) (bytes : Bytes) : Prop where
  size : (s.pushDictionary n bytes).dictionarySize = s.dictionarySize + n
  ending : (s.pushDictionary n bytes).dictionaryEnd = s.dictionaryEnd
  offsets : ∀ i < k, (s.pushDictionary n bytes).offsetAt i = s.offsetAt i
  written : (s.pushDictionary n bytes).buffer.load
    (s.dictionaryEnd - (s.dictionarySize + n)) bytes.length = bytes
  above : ∀ off len, s.dictionaryEnd - (s.dictionarySize + n) + bytes.length ≤ off → 4 ≤ off →
    (s.pushDictionary n bytes).buffer.load off len = s.buffer.load off len

theorem pushed {k : Nat} (bytes : Bytes) (hend : s.dictionaryEnd < 2 ^ 32)
    (hroom : dictionaryHeaderSize + 4 * k + s.dictionarySize + n ≤ s.dictionaryEnd) :
    Pushed s k n bytes := by
  have hsize : (s.dictionarySize + n) % 2 ^ 32 = s.dictionarySize + n := Nat.mod_eq_of_lt (by omega)
  have hbuffer : (s.pushDictionary n bytes).buffer =
      (storeU32 s.buffer 0 (s.dictionarySize + n)).store
        (s.dictionaryEnd - (s.dictionarySize + n)) bytes := by
    unfold pushDictionary
    dsimp only
    rw [hsize]
  unfold dictionaryHeaderSize at hroom
  have hbelow : ∀ off, off + 4 ≤ 20 + 4 * k → 4 ≤ off →
      loadU32 (s.pushDictionary n bytes).buffer off = loadU32 s.buffer off := by
    intro off hoff hheader
    rw [loadU32, hbuffer, Memory.load_store_of_disjoint (.inl (by omega)),
      load_storeU32 (.inr (by omega)), loadU32]
  refine ⟨?_, ?_, fun i hi => ?_, ?_, fun off len hoff hheader => ?_⟩
  · rw [dictionarySize, loadU32, hbuffer, Memory.load_store_of_disjoint (.inl (by omega))]
    exact loadU32_storeU32 s.buffer 0 (by omega)
  · exact hbelow 4 (by omega) (Nat.le_refl _)
  · unfold offsetAt loadI32
    rw [hbelow _ (by unfold dictionaryHeaderSize; omega) (by unfold dictionaryHeaderSize; omega)]
  · rw [hbuffer]
    exact Memory.load_store ..
  · rw [hbuffer, Memory.load_store_of_disjoint (.inr hoff), load_storeU32 (.inr (by omega))]

end Frames

/-! ## Offsets -/

/-- The space that rows take of the dictionary. -/
def total (g : Geometry) (rows : List (Option Bytes)) : Nat := (rows.map (requiredSpace g)).sum

@[simp] theorem total_nil : total g [] = 0 := rfl

@[simp] theorem total_append (rows rows' : List (Option Bytes)) :
    total g (rows ++ rows') = total g rows + total g rows' := by
  rw [total, List.map_append, List.sum_append, total, total]

@[simp] theorem total_singleton (row : Option Bytes) : total g [row] = requiredSpace g row := by
  rw [total, List.map_singleton, List.sum_singleton]

variable {rows : List (Option Bytes)}

theorem total_take_succ {i : Nat} (hi : i < rows.length) :
    total g (rows.take (i + 1)) = total g (rows.take i) + requiredSpace g rows[i] := by
  rw [List.take_succ_eq_append_getElem hi, total_append, total_singleton]

theorem total_take_le (rows : List (Option Bytes)) (i : Nat) :
    total g (rows.take i) ≤ total g rows := by
  have hsplit := total_append (g := g) (rows.take i) (rows.drop i)
  rw [List.take_append_drop] at hsplit
  omega

/-- The rows that fit into the space that is left: 4 bytes for each offset and what the
    dictionary takes. -/
def fitting (g : Geometry) : Nat → List (Option Bytes) → List (Option Bytes)
  | _, [] => []
  | remaining, row :: rows =>
      if remaining < 4 then []
      else if remaining - 4 < requiredSpace g row then []
      else row :: fitting g (remaining - 4 - requiredSpace g row) rows

theorem take_length_fitting (remaining : Nat) (rows : List (Option Bytes)) :
    rows.take (fitting g remaining rows).length = fitting g remaining rows := by
  induction rows generalizing remaining with
  | nil => rfl
  | cons row rows ih =>
    rw [fitting]
    split_ifs
    · rfl
    · rfl
    · rw [List.length_cons, List.take_succ_cons, ih]

/-- The space that rows leave. -/
def spaceLeft (g : Geometry) (rows : List (Option Bytes)) : Nat :=
  g.blockSize - (total g rows + rows.length * 4 + dictionaryHeaderSize)

/-- The size and the end of the dictionary and the offsets of the rows. -/
structure Slots (g : Geometry) (s : StringSegment) (rows : List (Option Bytes)) : Prop where
  segment : s.segmentSize = g.blockSize
  size : s.dictionarySize = total g rows
  ending : s.dictionaryEnd = g.blockSize
  room : dictionaryHeaderSize + 4 * rows.length + total g rows ≤ g.blockSize
  slots : ∀ i < rows.length, (s.offsetAt i).natAbs = total g (rows.take (i + 1))

/-- The offset in front of a row. -/
theorem Slots.previous (h : Slots g s rows) {row : Nat} (hrow : row ≤ rows.length) :
    (s.previousOffset row).natAbs = total g (rows.take row) := by
  unfold previousOffset
  split
  · next hzero =>
    rw [hzero]
    rfl
  · next hpos =>
    have hslot := h.slots (row - 1) (by omega)
    rwa [Nat.sub_add_cancel (by omega)] at hslot

/-- The length the readers compute is the space the row takes. -/
theorem Slots.stringLength (hg : g.blockSize < 2 ^ 31) (h : Slots g s rows) {row : Nat}
    (hrow : row < rows.length) :
    stringLength (s.offsetAt row) (s.previousOffset row) = requiredSpace g rows[row] := by
  have hoffset := h.slots row hrow
  have hprevious := h.previous (Nat.le_of_lt hrow)
  have htotal := total_take_succ (g := g) hrow
  have hle := total_take_le (g := g) rows (row + 1)
  have hroom := h.room
  have hrange : IntType.uint32.InRange (requiredSpace g rows[row] : Int) := by
    have hmin : IntType.uint32.min = 0 := rfl
    have hmax : IntType.uint32.max = 2 ^ 32 - 1 := rfl
    rw [IntType.InRange, hmin, hmax]
    omega
  have hdiff : ((s.offsetAt row).natAbs : Int) - (s.previousOffset row).natAbs =
      requiredSpace g rows[row] := by
    rw [hoffset, hprevious, htotal]
    omega
  rw [StringSegment.stringLength, hdiff, IntType.wrap_of_inRange hrange, Int.toNat_natCast]

section Row

variable {row : Option Bytes}

/-- There is room for the row. -/
def Fits (g : Geometry) (rows : List (Option Bytes)) (row : Option Bytes) : Prop :=
  dictionaryHeaderSize + 4 * (rows.length + 1) + total g rows + requiredSpace g row ≤ g.blockSize

/-- The offset of a further row is set once the dictionary has its part. -/
theorem Slots.snoc (hg : g.blockSize < 2 ^ 31) (h : Slots g s rows) (hfits : Fits g rows row)
    {s₁ : StringSegment} (hsegment : s₁.segmentSize = s.segmentSize)
    (hsize : s₁.dictionarySize = total g rows + requiredSpace g row)
    (hend : s₁.dictionaryEnd = s.dictionaryEnd)
    (hoffsets : ∀ i < rows.length, s₁.offsetAt i = s.offsetAt i) {v : Int}
    (hv : v.natAbs = total g rows + requiredSpace g row) :
    Slots g (s₁.setOffset rows.length v) (rows ++ [row]) := by
  unfold Fits at hfits
  refine ⟨hsegment.trans h.segment, ?_, ?_, ?_, fun i hi => ?_⟩
  · rw [dictionarySize_setOffset, hsize, total_append, total_singleton]
  · rw [dictionaryEnd_setOffset, hend, h.ending]
  · rw [List.length_append, List.length_singleton, total_append, total_singleton]
    omega
  · rw [List.length_append, List.length_singleton] at hi
    by_cases hlast : i = rows.length
    · subst hlast
      rw [offsetAt_setOffset (by omega), List.take_of_length_le (by simp), total_append,
        total_singleton, hv]
    · have hold : i < rows.length := by omega
      rw [offsetAt_setOffset_of_ne hlast, hoffsets i hold, h.slots i hold,
        List.take_append_of_le_length hold]

/-- A NULL takes the offset in front of it. -/
theorem appendRow_none (s : StringSegment) (target : Nat) :
    s.appendRow g bm target none = some (s.setOffset target (s.previousOffset target)) := by
  rw [appendRow, previousOffset]
  by_cases hzero : target = 0
  · rw [if_pos hzero, if_neg (by omega)]
  · rw [if_neg hzero, if_pos (by omega)]

theorem Slots.append_none (hg : g.blockSize < 2 ^ 31) (h : Slots g s rows)
    (hfits : Fits g rows none) :
    Slots g (s.setOffset rows.length (s.previousOffset rows.length)) (rows ++ [none]) := by
  refine h.snoc hg hfits rfl h.size rfl (fun _ _ => rfl) ?_
  rw [h.previous (Nat.le_refl _), List.take_length]
  rfl

/-- The dictionary's part of a row, above the offsets. -/
theorem Slots.pushed (hg : g.blockSize < 2 ^ 31) (h : Slots g s rows) (hfits : Fits g rows row)
    (bytes : Bytes) : Pushed s (rows.length + 1) (requiredSpace g row) bytes := by
  unfold Fits at hfits
  refine StringSegment.pushed bytes ?_ ?_
  · rw [h.ending]
    omega
  · rw [h.ending, h.size]
    exact hfits

/-- A string in the dictionary. -/
theorem appendRow_short {str : Bytes} (hshort : str.length < stringBlockLimit g.blockSize)
    (s : StringSegment) (target : Nat) :
    s.appendRow g bm target (some str) =
      some ((s.pushDictionary str.length str).setOffset target
        (s.pushDictionary str.length str).dictionarySize) := by
  rw [appendRow, if_neg (Nat.not_le.mpr hshort)]

theorem requiredSpace_short {str : Bytes} (hshort : str.length < stringBlockLimit g.blockSize) :
    requiredSpace g (some str) = str.length := if_neg (Nat.not_le.mpr hshort)

theorem Slots.append_pushed (hg : g.blockSize < 2 ^ 31) (h : Slots g s rows)
    (hfits : Fits g rows row) (bytes : Bytes) {v : Int}
    (hv : v.natAbs = (s.pushDictionary (requiredSpace g row) bytes).dictionarySize) :
    Slots g ((s.pushDictionary (requiredSpace g row) bytes).setOffset rows.length v)
      (rows ++ [row]) := by
  have hpushed := h.pushed hg hfits bytes
  have hsize : (s.pushDictionary (requiredSpace g row) bytes).dictionarySize =
      total g rows + requiredSpace g row := by rw [hpushed.size, h.size]
  have hsegment : (s.pushDictionary (requiredSpace g row) bytes).segmentSize = s.segmentSize := rfl
  exact h.snoc hg hfits hsegment hsize hpushed.ending
    (fun i hi => hpushed.offsets i (Nat.lt_succ_of_lt hi)) (hv.trans hsize)

/-- An overflow block leaves the segment's own block alone. -/
theorem writeStringMemory_spec (g : Geometry) (hbm : ∀ n, (bm n).isSome = true) (s : StringSegment)
    (str : Bytes) :
    ∃ s' block offset, s.writeStringMemory g bm str = some (s', block, offset) ∧
      s'.buffer = s.buffer ∧ s'.count = s.count ∧ s'.segmentSize = s.segmentSize := by
  obtain ⟨blockId, hblock⟩ := Option.isSome_iff_exists.mp (hbm s.requests)
  unfold writeStringMemory
  rw [hblock]
  dsimp only
  split
  · exact ⟨_, _, _, rfl, rfl, rfl, rfl⟩
  · split
    · exact ⟨_, _, _, rfl, rfl, rfl, rfl⟩
    · exact ⟨_, _, _, rfl, rfl, rfl, rfl⟩

/-- **One row**, when there is memory for overflow blocks. -/
theorem Slots.appendRow (hg : g.blockSize < 2 ^ 31) (hbm : ∀ n, (bm n).isSome = true)
    (h : Slots g s rows) (hfits : Fits g rows row) :
    ∃ s', s.appendRow g bm rows.length row = some s' ∧ Slots g s' (rows ++ [row]) ∧
      s'.count = s.count := by
  cases row with
  | none => exact ⟨_, appendRow_none s rows.length, h.append_none hg hfits, rfl⟩
  | some str =>
    by_cases hshort : str.length < stringBlockLimit g.blockSize
    · refine ⟨_, appendRow_short hshort s rows.length, ?_, rfl⟩
      have hslots := h.append_pushed hg hfits str (v := _) (Int.natAbs_natCast _)
      rwa [requiredSpace_short hshort] at hslots
    · have hlong : stringBlockLimit g.blockSize ≤ str.length := Nat.not_lt.mp hshort
      have hmarker : requiredSpace g (some str) = bigStringMarkerBaseSize := if_pos hlong
      obtain ⟨s₁, block, offset, hwrite, hbuffer, hcount, hsegment⟩ :=
        writeStringMemory_spec g hbm s str
      have hsame : Slots g s₁ rows := by
        refine ⟨hsegment.trans h.segment, ?_, ?_, h.room, fun i hi => ?_⟩
        · rw [dictionarySize, hbuffer]
          exact h.size
        · rw [dictionaryEnd, hbuffer]
          exact h.ending
        · rw [offsetAt, hbuffer]
          exact h.slots i hi
      refine ⟨_, ?_, hsame.append_pushed hg hfits (stringMarker block offset) (v := _)
        (Int.natAbs_neg _ |>.trans (Int.natAbs_natCast _)), hcount⟩
      rw [StringSegment.appendRow, if_pos hlong, hwrite, hmarker]
      rfl

/-- The offsets count upwards and every string is where its offset says. -/
structure Texts (g : Geometry) (s : StringSegment) (rows : List (Option Bytes)) : Prop
    extends Slots g s rows where
  upward : ∀ i < rows.length, 0 ≤ s.offsetAt i
  texts : ∀ i str, rows[i]? = some (some str) →
    s.buffer.load (g.blockSize - total g (rows.take (i + 1))) str.length = str

/-- A string that the dictionary takes. -/
def Short (g : Geometry) (row : Option Bytes) : Prop :=
  ∀ str, row = some str → str.length < stringBlockLimit g.blockSize

/-- The strings in front of a further row stay. -/
theorem Texts.old (h : Texts g s rows) (hfits : Fits g rows row) {s₁ : StringSegment}
    (habove : ∀ off len, g.blockSize - total g rows ≤ off → s₁.buffer.load off len =
      s.buffer.load off len) (v : Int) {i : Nat} {str : Bytes} (hi : i < rows.length)
    (hstr : (rows ++ [row])[i]? = some (some str)) :
    (s₁.setOffset rows.length v).buffer.load
      (g.blockSize - total g ((rows ++ [row]).take (i + 1))) str.length = str := by
  have hle := total_take_le (g := g) rows (i + 1)
  unfold Fits at hfits
  have htake : (rows ++ [row]).take (i + 1) = rows.take (i + 1) := List.take_append_of_le_length hi
  rw [List.getElem?_append_left hi] at hstr
  rw [htake, load_setOffset (by omega), habove _ _ (by omega), h.texts i str hstr]

/-- **One row that the dictionary takes.** -/
theorem Texts.appendRow (hg : g.blockSize < 2 ^ 31) (h : Texts g s rows) (hshort : Short g row)
    (hfits : Fits g rows row) :
    ∃ s', s.appendRow g bm rows.length row = some s' ∧ Texts g s' (rows ++ [row]) ∧
      s'.count = s.count := by
  have hlast : ∀ i, i < (rows ++ [row]).length → ¬ i < rows.length → i = rows.length := by
    intro i hi hnot
    rw [List.length_append, List.length_singleton] at hi
    omega
  cases row with
  | none =>
    have hslots := h.toSlots.append_none hg hfits
    have hprevious : 0 ≤ s.previousOffset rows.length := by
      unfold previousOffset
      split
      · exact Int.le_refl 0
      · exact h.upward _ (by omega)
    have hsmall : (s.previousOffset rows.length).natAbs < 2 ^ 31 := by
      have hroom := h.room
      rw [h.previous (Nat.le_refl _), List.take_length]
      omega
    refine ⟨_, appendRow_none s rows.length, ⟨hslots, fun i hi => ?_, fun i str hstr => ?_⟩, rfl⟩
    · by_cases hold : i < rows.length
      · rw [offsetAt_setOffset_of_ne (Nat.ne_of_lt hold)]
        exact h.upward i hold
      · rw [hlast i hi hold, offsetAt_setOffset hsmall]
        exact hprevious
    · by_cases hold : i < rows.length
      · exact h.old hfits (fun _ _ _ => rfl) _ hold hstr
      · rw [hlast i (List.getElem?_eq_some_iff.mp hstr).1 hold, List.getElem?_concat_length] at hstr
        cases hstr
  | some str =>
    have hlength := hshort str rfl
    have hrequired := requiredSpace_short hlength
    have hpushed := h.toSlots.pushed hg hfits str
    have hslots := h.toSlots.append_pushed hg hfits str (v := _) (Int.natAbs_natCast _)
    have hroom := hslots.room
    rw [total_append, total_singleton, hrequired] at hroom
    rw [hrequired] at hpushed hslots
    have hsize := hpushed.size
    rw [h.size] at hsize
    refine ⟨_, appendRow_short hlength s rows.length,
      ⟨hslots, fun i hi => ?_, fun i other hother => ?_⟩, rfl⟩
    · by_cases hold : i < rows.length
      · rw [offsetAt_setOffset_of_ne (Nat.ne_of_lt hold), hpushed.offsets i (Nat.lt_succ_of_lt hold)]
        exact h.upward i hold
      · rw [hlast i hi hold, offsetAt_setOffset (by rw [Int.natAbs_natCast, hsize]; omega)]
        exact Int.natCast_nonneg _
    · by_cases hold : i < rows.length
      · refine h.old hfits (fun off len hoff => ?_) _ hold hother
        refine hpushed.above off len ?_ ?_
        · rw [h.ending, h.size]
          omega
        · have hheader : dictionaryHeaderSize = 20 := rfl
          omega
      · -- The new string is at the new start of the dictionary.
        obtain rfl := hlast i (List.getElem?_eq_some_iff.mp hother).1 hold
        rw [List.getElem?_concat_length] at hother
        cases hother
        have hwritten := hpushed.written
        rw [h.ending, h.size] at hwritten
        rw [List.take_of_length_le (by simp), total_append, total_singleton, hrequired,
          load_setOffset, hwritten]
        rw [List.length_append, List.length_singleton] at hroom
        omega

end Row

/-! ## One call -/

/-- An invariant of the rows in the segment that `appendRow` keeps for the rows of a kind. -/
structure Stepping (g : Geometry) (bm : BufferManager)
    (inv : StringSegment → List (Option Bytes) → Prop) (kind : Option Bytes → Prop) : Prop where
  slots : ∀ {s rows}, inv s rows → Slots g s rows
  counted : ∀ {s rows} count, inv s rows → inv { s with count := count } rows
  step : ∀ {s rows row}, inv s rows → kind row → Fits g rows row →
    ∃ s', s.appendRow g bm rows.length row = some s' ∧ inv s' (rows ++ [row]) ∧ s'.count = s.count

variable {inv : StringSegment → List (Option Bytes) → Prop} {kind : Option Bytes → Prop}

theorem stepping_slots (hg : g.blockSize < 2 ^ 31) (hbm : ∀ n, (bm n).isSome = true) :
    Stepping g bm (Slots g) fun _ => True where
  slots h := h
  counted _ h := ⟨h.segment, h.size, h.ending, h.room, h.slots⟩
  step h _ hfits := h.appendRow hg hbm hfits

theorem stepping_texts (hg : g.blockSize < 2 ^ 31) : Stepping g bm (Texts g) (Short g) where
  slots h := h.toSlots
  counted _ h := ⟨⟨h.segment, h.size, h.ending, h.room, h.slots⟩, h.upward, h.texts⟩
  step h hshort hfits := h.appendRow hg hshort hfits

/-- The loop accepts the rows that fit, if all of them are of the kind. -/
theorem Stepping.appendFrom (hstep : Stepping g bm inv kind) (base rest : List (Option Bytes))
    (done : List (Option Bytes)) (s : StringSegment) (h : inv s (base ++ done))
    (hkind : ∀ row ∈ fitting g (spaceLeft g (base ++ done)) rest, kind row) :
    ∃ s', appendFrom g bm base.length done.length (spaceLeft g (base ++ done)) s rest =
        (s', some (done ++ fitting g (spaceLeft g (base ++ done)) rest).length) ∧
      inv s' (base ++ (done ++ fitting g (spaceLeft g (base ++ done)) rest)) ∧
      s'.count = s.count + (done ++ fitting g (spaceLeft g (base ++ done)) rest).length := by
  induction rest generalizing done s with
  | nil =>
    rw [fitting, List.append_nil]
    exact ⟨_, rfl, hstep.counted _ h, rfl⟩
  | cons row rest ih =>
    have hroom := (hstep.slots h).room
    rw [fitting] at hkind ⊢
    rw [StringSegment.appendFrom]
    by_cases hslot : spaceLeft g (base ++ done) < 4
    · rw [if_pos hslot, if_pos hslot, List.append_nil]
      exact ⟨_, rfl, hstep.counted _ h, rfl⟩
    · rw [if_neg hslot] at hkind ⊢
      rw [if_neg hslot]
      by_cases hspace : spaceLeft g (base ++ done) - 4 < requiredSpace g row
      · rw [if_pos hspace, if_pos hspace, List.append_nil]
        exact ⟨_, rfl, hstep.counted _ h, rfl⟩
      · rw [if_neg hspace] at hkind ⊢
        rw [if_neg hspace]
        obtain ⟨hrow, hrest⟩ := List.forall_mem_cons.mp hkind
        have hfits : Fits g (base ++ done) row := by
          unfold Fits
          unfold spaceLeft at hslot hspace
          omega
        have hleft : spaceLeft g (base ++ done) - 4 - requiredSpace g row =
            spaceLeft g (base ++ (done ++ [row])) := by
          rw [← List.append_assoc]
          unfold spaceLeft
          rw [total_append _ [row], total_singleton, @List.length_append _ _ [row],
            List.length_singleton]
          omega
        obtain ⟨s₁, happend, hinv, hcount⟩ := hstep.step h hrow hfits
        rw [List.length_append] at happend
        rw [happend]
        rw [List.append_assoc] at hinv
        rw [hleft] at hrest ⊢
        obtain ⟨s', hresult, hinv', hcount'⟩ := ih (done ++ [row]) s₁ hinv hrest
        rw [List.append_assoc, List.singleton_append] at hresult hinv' hcount'
        rw [List.length_append, List.length_singleton] at hresult
        exact ⟨s', hresult, hinv', hcount ▸ hcount'⟩

/-- **One call.** -/
theorem Stepping.append (hstep : Stepping g bm inv kind) (h : inv s rows)
    (hcount : s.count = rows.length) (call : List (Option Bytes))
    (hkind : ∀ row ∈ fitting g (spaceLeft g rows) call, kind row) :
    ∃ s', StringSegment.step g bm (s, rows) call = (s', rows ++ fitting g (spaceLeft g rows) call) ∧
      inv s' (rows ++ fitting g (spaceLeft g rows) call) ∧
      s'.count = (rows ++ fitting g (spaceLeft g rows) call).length := by
  have hslots := hstep.slots h
  have hbase : inv s (rows ++ []) := by rwa [List.append_nil]
  have hremaining : s.remainingSpace = spaceLeft g rows := by
    rw [remainingSpace, hslots.segment, hslots.size, hcount, spaceLeft]
  obtain ⟨s', hresult, hinv, hcount'⟩ := hstep.appendFrom rows call [] s hbase
    (by rwa [List.append_nil])
  rw [List.append_nil, List.nil_append, List.length_nil] at hresult
  rw [List.append_nil, List.nil_append] at hinv hcount'
  refine ⟨s', ?_, hinv, ?_⟩
  · rw [StringSegment.step]
    have happend : s.append g bm call = (s', some (fitting g (spaceLeft g rows) call).length) := by
      rw [StringSegment.append, hcount, hremaining, hresult]
    dsimp only
    rw [happend, Option.getD_some, take_length_fitting]
  · rw [hcount', hcount, List.length_append]

/-! ## Runs -/

/-- The rows that fit, call by call. -/
def fittingRows (g : Geometry) (calls : List (List (Option Bytes))) : List (Option Bytes) :=
  calls.foldl (fun rows call => rows ++ fitting g (spaceLeft g rows) call) []

theorem prefix_foldl_fitting (rows : List (Option Bytes)) (calls : List (List (Option Bytes))) :
    rows <+: calls.foldl (fun rows call => rows ++ fitting g (spaceLeft g rows) call) rows := by
  induction calls generalizing rows with
  | nil => exact List.prefix_rfl
  | cons call calls ih => exact (List.prefix_append rows _).trans (ih _)

/-- **Any number of calls.** -/
theorem Stepping.run (hstep : Stepping g bm inv kind) (h : inv s rows)
    (hcount : s.count = rows.length) (calls : List (List (Option Bytes)))
    (hkind : ∀ row ∈ calls.foldl (fun rows call => rows ++ fitting g (spaceLeft g rows) call) rows,
      kind row) :
    ∃ s', calls.foldl (StringSegment.step g bm) (s, rows) =
        (s', calls.foldl (fun rows call => rows ++ fitting g (spaceLeft g rows) call) rows) ∧
      inv s' (calls.foldl (fun rows call => rows ++ fitting g (spaceLeft g rows) call) rows) ∧
      s'.count =
        (calls.foldl (fun rows call => rows ++ fitting g (spaceLeft g rows) call) rows).length := by
  induction calls generalizing s rows with
  | nil => exact ⟨s, rfl, h, hcount⟩
  | cons call calls ih =>
    have hnext := prefix_foldl_fitting (g := g) (rows ++ fitting g (spaceLeft g rows) call) calls
    obtain ⟨s₁, hcall, hinv, hcount₁⟩ := hstep.append h hcount call fun row hrow =>
      hkind row (hnext.subset (List.mem_append_right _ hrow))
    rw [List.foldl_cons, hcall]
    exact ih hinv hcount₁ hkind

theorem texts_create (hg : g.blockSize < 2 ^ 31) (memory : Memory) :
    Texts g (create g memory) [] := by
  have hsize := g.sectorSize_le
  have hend : (create g memory).dictionaryEnd = g.blockSize :=
    loadU32_storeU32 _ _ (by omega)
  have hempty : (create g memory).dictionarySize = 0 := by
    rw [dictionarySize, create, loadU32_storeU32_of_disjoint (.inl (by omega))]
    exact loadU32_storeU32 memory 0 (by decide)
  refine ⟨⟨rfl, hempty, hend, ?_, fun i hi => absurd hi (Nat.not_lt_zero i)⟩,
    fun i hi => absurd hi (Nat.not_lt_zero i), fun i str hstr => ?_⟩
  · unfold dictionaryHeaderSize Geometry.blockSize defaultBlockHeaderSize
    unfold sectorSize at hsize
    rw [total_nil, List.length_nil]
    omega
  · cases hstr

section Reading

/-- What is read of a row that the dictionary took. -/
theorem Texts.fetch (hg : g.blockSize < 2 ^ 31) (h : Texts g s rows)
    (hshort : ∀ row ∈ rows, Short g row) {row : Nat} (hrow : row < rows.length) :
    s.fetchStringFromDict g (s.offsetAt row)
      (stringLength (s.offsetAt row) (s.previousOffset row)) = some (rows[row].getD []) := by
  have hoffset := h.slots row hrow
  have hpos := h.upward row hrow
  have hle := total_take_le (g := g) rows (row + 1)
  have hroom := h.room
  have hsucc := total_take_succ (g := g) hrow
  have hlocation : s.fetchStringLocation g (s.offsetAt row) = some (s.offsetAt row) := by
    unfold fetchStringLocation
    rw [if_neg (by omega), if_pos hpos]
  have hspace : requiredSpace g rows[row] = (rows[row].getD []).length := by
    cases hcell : rows[row] with
    | none => rfl
    | some str =>
      exact requiredSpace_short (hshort _ (List.getElem_mem hrow) str hcell)
  rw [fetchStringFromDict, hlocation, h.toSlots.stringLength hg hrow, hspace]
  show some (if s.offsetAt row = 0 then _ else _) = _
  by_cases hzero : s.offsetAt row = 0
  · rw [hzero] at hoffset
    have hempty : (rows[row].getD []).length = 0 := by
      rw [← hspace]
      simp only [Int.natAbs_zero] at hoffset
      omega
    rw [if_pos hzero, List.eq_nil_of_length_eq_zero hempty]
  · have haddress : ((s.dictionaryEnd : Int) - s.offsetAt row).toNat =
        g.blockSize - total g (rows.take (row + 1)) := by
      rw [h.ending, ← Int.natAbs_of_nonneg hpos, hoffset]
      exact Int.toNat_sub _ _
    rw [if_neg hzero, haddress]
    cases hcell : rows[row] with
    | none => rfl
    | some str =>
      have hget : rows[row]? = some (some str) := by rw [List.getElem?_eq_getElem hrow, hcell]
      exact congrArg some (h.texts row str hget)

/-- The scan reads row by row. -/
theorem Texts.scanFrom (hg : g.blockSize < 2 ^ 31) (h : Texts g s rows)
    (hshort : ∀ row ∈ rows, Short g row) (n start : Nat) (hn : start + n ≤ rows.length) :
    s.scanFrom g n start (s.previousOffset start) =
      some (((rows.drop start).take n).map fun row => row.getD []) := by
  induction n generalizing start with
  | zero => rw [List.take_zero]; rfl
  | succ n ih =>
    have hstart : start < rows.length := by omega
    have hnext : s.previousOffset (start + 1) = s.offsetAt start := by
      rw [previousOffset, if_neg (Nat.succ_ne_zero start), Nat.add_sub_cancel]
    have hrest := ih (start + 1) (by omega)
    rw [hnext] at hrest
    rw [StringSegment.scanFrom, h.fetch hg hshort hstart, hrest, List.drop_eq_getElem_cons hstart]
    rfl

/-- **Short strings are returned by every reader.** -/
theorem Texts.returns (hg : g.blockSize < 2 ^ 31) (h : Texts g s rows)
    (hshort : ∀ row ∈ rows, Short g row) (hcount : s.count = rows.length) : Returns g s rows := by
  have hfetch : ∀ row str, rows[row]? = some (some str) → s.stringFetchRow g row = some str := by
    intro row str hstr
    obtain ⟨hrow, hget⟩ := List.getElem?_eq_some_iff.mp hstr
    rw [stringFetchRow, h.fetch hg hshort hrow, hget]
    rfl
  refine ⟨hcount, hfetch, fun row str filter hstr => ?_, fun start n hn => ?_⟩
  · rw [stringCheckRow]
    show (s.stringFetchRow g row).map filter = _
    rw [hfetch row str hstr]
    rfl
  · refine ⟨_, h.scanFrom hg hshort n start hn, ?_, fun i hi str hstr => ?_⟩
    · rw [List.length_map, List.length_take, List.length_drop]
      omega
    · rw [List.getElem?_map, List.getElem?_take_of_lt hi, List.getElem?_drop, hstr]
      rfl

/-- No reader finds more than the space that a row takes. -/
theorem Slots.length_fetch_le (hg : g.blockSize < 2 ^ 31) (h : Slots g s rows) {row : Nat}
    (hrow : row < rows.length) {str : Bytes} (hfetch : s.stringFetchRow g row = some str) :
    str.length ≤ requiredSpace g rows[row] := by
  rw [stringFetchRow, fetchStringFromDict, h.stringLength hg hrow] at hfetch
  obtain ⟨location, -, rfl⟩ := Option.map_eq_some_iff.mp hfetch
  split
  · exact Nat.zero_le _
  · rw [Memory.length_load]

end Reading

/-- `string_block_limit` of the blocks of a table file. -/
theorem stringBlockLimit_default : stringBlockLimit defaultGeometry.blockSize = 4096 := by decide

theorem blockSize_default : defaultGeometry.blockSize < 2 ^ 31 := by decide

theorem fittingRows_take_isPrefix (calls : List (List (Option Bytes))) (n : Nat) :
    fittingRows g (calls.take n) <+: fittingRows g calls := by
  have hsplit : fittingRows g calls = (calls.drop n).foldl
      (fun rows call => rows ++ fitting g (spaceLeft g rows) call) (fittingRows g (calls.take n)) := by
    rw [fittingRows, fittingRows, ← List.foldl_append, List.take_append_drop]
  rw [hsplit]
  exact prefix_foldl_fitting _ _

/-- **Round trip.**  On a new segment, all accepted strings are returned by all readers after every
    call, whatever the buffer manager does, exactly if no string of 4096 bytes or more is among the
    rows that fit. -/
theorem string_round_trip_iff (memory : Memory) (calls : List (List (Option Bytes))) :
    (∀ bm n, Returns defaultGeometry (run defaultGeometry bm memory (calls.take n)).1
        (run defaultGeometry bm memory (calls.take n)).2) ↔
      ∀ str, some str ∈ fittingRows defaultGeometry calls → str.length < 4096 := by
  have hnew := texts_create blockSize_default memory
  constructor
  · intro hreturns str hstr
    -- With memory for every overflow block, the segment accepts all rows that fit.
    let bm : BufferManager := fun _ => some 0
    obtain ⟨s, hrun, hslots, -⟩ := (stepping_slots blockSize_default (fun _ => rfl : ∀ n,
      (bm n).isSome = true)).run hnew.toSlots rfl calls fun _ _ => trivial
    have hall := hreturns bm calls.length
    rw [List.take_length, run, hrun] at hall
    obtain ⟨row, hrow, hget⟩ := List.getElem_of_mem hstr
    have hle := hslots.length_fetch_le blockSize_default hrow
      (hall.fetchRow row str (by rw [← hget]; exact List.getElem?_eq_getElem hrow))
    by_contra hlong
    have hspace : requiredSpace defaultGeometry (some str) = 8 :=
      if_pos (by rw [stringBlockLimit_default]; omega)
    have hsame : (calls.foldl (fun rows call =>
      rows ++ fitting defaultGeometry (spaceLeft defaultGeometry rows) call) [])[row] = some str := hget
    rw [hsame, hspace] at hle
    omega
  · intro hshort bm n
    have hkind : ∀ row ∈ fittingRows defaultGeometry (calls.take n), Short defaultGeometry row := by
      intro row hrow str hstr
      rw [stringBlockLimit_default]
      exact hshort str (hstr ▸ (fittingRows_take_isPrefix calls n).subset hrow)
    have hsteps : Stepping defaultGeometry bm _ _ := stepping_texts blockSize_default
    obtain ⟨s, hrun, htexts, hcount⟩ := hsteps.run hnew rfl (calls.take n) hkind
    rw [run, hrun]
    exact htexts.returns blockSize_default hkind hcount

/-- Eight bytes. -/
def shortString : Bytes := List.replicate 8 1

/-- As long as the limit. -/
def longString : Bytes := List.replicate 4096 2

/-- A segment with the short string. -/
def withShort : StringSegment :=
  (run defaultGeometry (fun _ => some 0) Memory.zero [[some shortString]]).1

/-- The marker of the first overflow string is put in front of the short string. -/
def withMarker : StringSegment :=
  let s := { withShort with
    count := 2
    requests := 1
    overflow := [⟨0, 4100, 262136, Memory.zero.store 0 (leBytes 4 4096 ++ longString)⟩] }
  let s := s.pushDictionary 8 (stringMarker 0 0)
  s.setOffset 1 (-s.dictionarySize)

theorem run_short_long :
    run defaultGeometry (fun _ => some 0) Memory.zero [[some shortString], [some longString]] =
      (withMarker, [some shortString, some longString]) := by
  have hlength : longString.length = 4096 := List.length_replicate
  have hlimit : stringBlockLimit defaultGeometry.blockSize ≤ longString.length := by
    rw [hlength, stringBlockLimit_default]
  have hspace : requiredSpace defaultGeometry (some longString) = 8 := by
    rw [requiredSpace, if_pos hlimit]
    rfl
  have hfirst : step defaultGeometry (fun _ => some 0) (create defaultGeometry Memory.zero, [])
      [some shortString] = (withShort, [some shortString]) := rfl
  have hcount : withShort.count = 1 := rfl
  have hremaining : withShort.remainingSpace = 262104 := by decide +kernel
  have hrow : withShort.appendRow defaultGeometry (fun _ => some 0) 1 (some longString) =
      some { withMarker with count := 1 } := by
    have hwrite : withShort.writeStringMemory defaultGeometry (fun _ => some 0) longString =
        some ({ withShort with
          requests := 1
          overflow := [⟨0, 4100, 262136, Memory.zero.store 0 (leBytes 4 4096 ++ longString)⟩] },
          0, 0) := by
      unfold writeStringMemory
      dsimp only
      rw [hlength]
      rfl
    rw [appendRow, if_pos hlimit, hwrite]
    rfl
  have hcall : withShort.append defaultGeometry (fun _ => some 0) [some longString] =
      (withMarker, some 1) := by
    rw [append, hcount, hremaining, appendFrom, hspace, if_neg (by decide), if_neg (by decide), hrow]
    rfl
  rw [run, List.foldl_cons, hfirst, List.foldl_cons, step, List.foldl_nil]
  dsimp only
  rw [hcall]
  rfl

/-- Both rows are accepted.  The marker of the long string covers the short one, and the long string
    itself is read as the empty string. -/
theorem long_string_lost :
    (run defaultGeometry (fun _ => some 0) Memory.zero
        [[some shortString], [some longString]]).2 = [some shortString, some longString] ∧
      (run defaultGeometry (fun _ => some 0) Memory.zero
        [[some shortString], [some longString]]).1.stringFetchRow defaultGeometry 0 =
          some (List.replicate 8 0) ∧
      (run defaultGeometry (fun _ => some 0) Memory.zero
        [[some shortString], [some longString]]).1.stringFetchRow defaultGeometry 1 = some [] := by
  rw [run_short_long]
  exact ⟨rfl, by decide +kernel, by decide +kernel⟩

end StringSegment
end Table
end Otterbrix
