/-
  Otterbrix.Index.DiskHashSlots

  The contents of a linear hash file: the used slots that lie in the bucket of their hash.
  Copies that a split has left behind do not count.  An insertion adds a slot, `erase`
  sets one free that matches, and `get_all` returns the references of those that match,
  whatever the key loader says about the keys that are not stored whole.
-/
import Mathlib.Algebra.BigOperators.Group.Finset.Basic
import Mathlib.Algebra.Order.Group.Multiset
import Mathlib.Tactic.Abel
import Otterbrix.Lib.LinearHash
import Otterbrix.Index.DiskHashLayout

namespace Otterbrix
namespace Index

open PageChain

variable {env : Env}

/-! ## The slots of a table -/

/-- A sum of which one term is changed by `x`. -/
theorem sum_range_change {M : Type} [AddCommMonoid M] {f f' : Nat → M} {n b : Nat} {x : M}
    (hb : b < n) (hhere : f' b = x + f b) (hother : ∀ b' < n, b' ≠ b → f' b' = f b') :
    ∑ b' ∈ Finset.range n, f' b' = x + ∑ b' ∈ Finset.range n, f b' := by
  have hmem : b ∈ Finset.range n := Finset.mem_range.mpr hb
  have hrest : ∑ b' ∈ (Finset.range n).erase b, f' b' = ∑ b' ∈ (Finset.range n).erase b, f b' := by
    refine Finset.sum_congr rfl fun b' hb' => ?_
    obtain ⟨hne, hlt⟩ := Finset.mem_erase.mp hb'
    exact hother b' (Finset.mem_range.mp hlt) hne
  rw [← Finset.add_sum_erase _ f' hmem, ← Finset.add_sum_erase _ f hmem, hrest, hhere, add_assoc]

theorem filter_sum_range {α : Type} (p : α → Prop) [DecidablePred p] (f : Nat → Multiset α)
    (n : Nat) : (∑ b ∈ Finset.range n, f b).filter p = ∑ b ∈ Finset.range n, (f b).filter p := by
  induction n with
  | zero => rfl
  | succ n ih => rw [Finset.sum_range_succ, Multiset.filter_add, ih, Finset.sum_range_succ]

namespace DiskHashTable

/-- The slots that belong to one bucket. -/
def bucketSlots (t : DiskHashTable) (ids : List Nat) (b : Nat) : Multiset Slot :=
  (t.slotsOf ids).filter (t.owns b)

/-- The slots of `n` buckets. -/
def ownSlots (t : DiskHashTable) (n : Nat) (chains : Nat → List Nat) : Multiset Slot :=
  ∑ b ∈ Finset.range n, t.bucketSlots (chains b) b

/-- The table is well formed, its addressing state is `s`, and its slots are `m`. -/
structure Stores (t : DiskHashTable) (s : LinearHash) (chains : Nat → List Nat)
    (m : Multiset Slot) : Prop where
  level : t.header.level = s.level
  split : t.header.splitBucket = s.split
  count : t.header.bucketCount = s.count
  layout : Layout t s.count t.header.nextOverflowPage chains
  slots : t.ownSlots s.count chains = m

variable {t : DiskHashTable} {s : LinearHash} {chains : Nat → List Nat}
  {m : Multiset Slot}

theorem Stores.bucketIdForHash (h : Stores t s chains m) (keyHash : UInt32) :
    t.header.bucketIdForHash keyHash = s.address keyHash.toNat := by
  unfold Header.bucketIdForHash LinearHash.address
  rw [h.level, h.split, Nat.pow_succ]

theorem Stores.address_lt (h : Stores t s chains m) (keyHash : UInt32) :
    t.header.bucketIdForHash keyHash < s.count := by
  rw [h.bucketIdForHash]
  exact s.address_lt _

/-- The slots depend on the pages and the header in memory only. -/
theorem Stores.of_pages {t' : DiskHashTable} (h : Stores t s chains m) (hpages : t'.pages = t.pages)
    (hheader : t'.header = t.header) : Stores t' s chains m := by
  have hslots : ∀ ids, t'.slotsOf ids = t.slotsOf ids :=
    fun ids => slotsOf_congr fun id _ => by rw [hpages]
  have howns : ∀ b, t'.owns b = t.owns b := by
    intro b
    unfold DiskHashTable.owns
    rw [hheader]
  have hlayout := h.layout
  refine ⟨by rw [hheader]; exact h.level, by rw [hheader]; exact h.split,
    by rw [hheader]; exact h.count, ?_, ?_⟩
  · rw [hheader]
    exact { hlayout with
      linked := fun b hb => by rw [hpages]; exact hlayout.linked b hb
      fits := fun b hb slot hslot => hlayout.fits b hb slot (by rwa [hslots] at hslot) }
  · rw [← h.slots]
    refine Finset.sum_congr rfl fun b _ => ?_
    unfold bucketSlots
    rw [hslots, howns]

/-- The members of the slots of a bucket. -/
theorem mem_bucketSlots {ids : List Nat} {b : Nat} {slot : Slot} :
    slot ∈ t.bucketSlots ids b ↔ slot ∈ t.slotsOf ids ∧ t.owns b slot = true := by
  unfold bucketSlots
  rw [Multiset.mem_coe, List.mem_filter]

/-- A slot that matches a key is in the bucket of the key. -/
theorem owns_of_isMatch {key : Bytes} {slot : Slot}
    (h : slot.isMatch env key (env.hash key) = true) (b : Nat) :
    t.owns b slot = true ↔ t.header.bucketIdForHash (env.hash key) = b := by
  unfold Slot.isMatch at h
  rw [Bool.and_eq_true, Bool.and_eq_true, beq_iff_eq] at h
  unfold owns
  rw [h.1.1, h.1.2, Bool.true_and, beq_iff_eq]

/-! ## Walks -/

/-- What a walk along a chain collects. -/
theorem collect_eq {β : Type} {id : Nat} {ids : List Nat}
    (h : Linked Page.overflow t.pages id ids) (p : Slot → Bool) (g : Slot → β) {fuel : Nat}
    (hfuel : ids.length < fuel) :
    t.collect (fun page => (page.slots.filter p).map g) fuel id =
      some (((t.slotsOf ids).filter p).map g) := by
  induction h generalizing fuel with
  | nil =>
    obtain ⟨fuel, rfl⟩ := Nat.exists_eq_succ_of_ne_zero (Nat.ne_zero_of_lt hfuel)
    rfl
  | cons hid hpage _ ih =>
    obtain ⟨fuel, rfl⟩ := Nat.exists_eq_succ_of_ne_zero (Nat.ne_zero_of_lt hfuel)
    have hrest := ih (Nat.lt_of_succ_lt_succ hfuel)
    rw [collect, if_neg hid, hpage, Option.bind_eq_bind, Option.bind_some, hrest,
      slotsOf_cons _ hpage, List.filter_append, List.map_append]
    rfl

/-- Fuel for every walk along one chain. -/
def enough (t : DiskHashTable) : Nat :=
  t.header.bucketCount + 2 + (t.header.nextOverflowPage - overflowPageIdBase)

theorem Stores.length_lt (h : Stores t s chains m) {b : Nat} (hb : b < s.count) :
    (chains b).length < t.enough := by
  have hle := h.layout.length_le hb
  unfold enough
  rw [h.count]
  omega

/-- The slots that match a key are all in one bucket. -/
theorem Stores.filter_isMatch (h : Stores t s chains m) (key : Bytes) {b : Nat}
    (haddress : t.header.bucketIdForHash (env.hash key) = b) :
    m.filter (Slot.isMatch env key (env.hash key) · = true) =
      ((t.slotsOf (chains b)).filter (Slot.isMatch env key (env.hash key)) : List Slot) := by
  have hb : b < s.count := by
    rw [← haddress]
    exact h.address_lt _
  have hother : ∀ b' ∈ Finset.range s.count, b' ≠ b →
      (t.bucketSlots (chains b') b').filter (Slot.isMatch env key (env.hash key) · = true) = 0 := by
    intro b' _ hne
    refine Multiset.filter_eq_nil.mpr fun slot hslot hmatch => hne ?_
    rw [← haddress, (owns_of_isMatch hmatch b').mp (mem_bucketSlots.mp hslot).2]
  rw [← h.slots, DiskHashTable.ownSlots, filter_sum_range,
    Finset.sum_eq_single_of_mem b (Finset.mem_range.mpr hb) hother, bucketSlots,
    Multiset.filter_coe, List.filter_filter]
  refine congrArg _ (List.filter_congr fun slot _ => ?_)
  rw [Bool.eq_iff_iff, Bool.and_eq_true, decide_eq_true_iff]
  refine ⟨And.left, fun hmatch => ⟨hmatch, (owns_of_isMatch hmatch b).mpr haddress⟩⟩

/-- **`get_all`** returns the references of the slots that match. -/
theorem Stores.getAll (h : Stores t s chains m) (env : Env) (key : Bytes) :
    ∃ refs, (∀ fuel, t.enough ≤ fuel → t.getAll env fuel key = some refs) ∧
      (refs : Multiset ValueRef) =
        (m.filter (Slot.isMatch env key (env.hash key) · = true)).map fun slot => slot.entry.ref := by
  have hb := h.address_lt (env.hash key)
  generalize haddress : t.header.bucketIdForHash (env.hash key) = b at hb
  refine ⟨((t.slotsOf (chains b)).filter (Slot.isMatch env key (env.hash key))).map
    fun slot => slot.entry.ref, fun fuel hfuel => ?_, ?_⟩
  · unfold DiskHashTable.getAll
    dsimp only
    rw [haddress]
    exact collect_eq (h.layout.linked b hb) _ _ (Nat.lt_of_lt_of_le (h.length_lt hb) hfuel)
  · rw [h.filter_isMatch key haddress]
    rfl

theorem collectBuckets_eq (h : Stores t s chains m) {fuel : Nat} (hfuel : t.enough ≤ fuel)
    {bs : List Nat} (hbs : ∀ b ∈ bs, b < s.count) :
    t.collectBuckets fuel bs =
      some (bs.flatMap fun b => (t.slotsOf (chains b)).filter (t.owns b)) := by
  induction bs with
  | nil => rfl
  | cons b bs ih =>
    have hb := hbs b List.mem_cons_self
    have hwalk := collect_eq (h.layout.linked b hb) (t.owns b) id
      (Nat.lt_of_lt_of_le (h.length_lt hb) hfuel)
    simp only [List.map_id_fun, id_eq] at hwalk
    rw [collectBuckets, hwalk, ih fun b' hb' => hbs b' (List.mem_cons_of_mem _ hb'),
      List.flatMap_cons]
    rfl

/-- A walk over all buckets visits the slots. -/
theorem Stores.collectBuckets (h : Stores t s chains m) :
    ∃ slots, (∀ fuel, t.enough ≤ fuel →
      t.collectBuckets fuel (List.range t.header.bucketCount) = some slots) ∧
      (slots : Multiset Slot) = m := by
  have hsum : ∀ n, (((List.range n).flatMap fun b => (t.slotsOf (chains b)).filter (t.owns b)) :
      Multiset Slot) = t.ownSlots n chains := by
    intro n
    induction n with
    | zero => rfl
    | succ n ih =>
      rw [List.range_succ, List.flatMap_append, ← Multiset.coe_add, ih, DiskHashTable.ownSlots,
        DiskHashTable.ownSlots, Finset.sum_range_succ, List.flatMap_singleton]
      rfl
  refine ⟨_, fun fuel hfuel => ?_, (hsum s.count).trans h.slots⟩
  rw [h.count]
  exact collectBuckets_eq h hfuel fun b hb => List.mem_range.mp hb

/-- **`for_each`** visits every slot once. -/
theorem Stores.forEach (h : Stores t s chains m) :
    ∃ refs, (∀ fuel, t.enough ≤ fuel → t.forEach fuel = some refs) ∧
      (refs : Multiset ValueRef) = m.map fun slot => slot.entry.ref := by
  obtain ⟨slots, hwalk, hslots⟩ := h.collectBuckets
  refine ⟨slots.map fun slot => slot.entry.ref, fun fuel hfuel => ?_, ?_⟩
  · rw [DiskHashTable.forEach, hwalk fuel hfuel]
    rfl
  · rw [← hslots]
    rfl

/-! ## Insertion -/

variable {t' : DiskHashTable} {chains' : Nat → List Nat} {n b : Nat} {slot : Slot}

theorem Inserted.owns (h : Inserted t t' n b slot chains chains') (b' : Nat) :
    t'.owns b' = t.owns b' := by
  funext slot'
  unfold DiskHashTable.owns Header.bucketIdForHash
  rw [h.header]

theorem Inserted.slots (h : Inserted t t' n b slot chains chains') (hb : b < n)
    (howns : t.owns b slot = true) :
    t'.ownSlots n chains' = slot ::ₘ t.ownSlots n chains := by
  rw [← Multiset.singleton_add]
  refine sum_range_change hb ?_ fun b' hb' hne => ?_
  · unfold bucketSlots
    rw [h.owns b, Multiset.coe_eq_coe.mpr (h.here.filter _), List.filter_cons_of_pos howns,
      ← Multiset.cons_coe, Multiset.singleton_add]
  · obtain ⟨hchain, hpages⟩ := h.other b' hb' hne
    unfold bucketSlots
    rw [h.owns b', hchain, slotsOf_congr hpages]

/-- A slot goes to the bucket of its hash. -/
theorem Stores.insert (h : Stores t s chains m) (keyHash : UInt32) {e : Entry}
    (he : e.size ≤ 91) :
    ∃ t' chains', Stores t' s chains' (⟨true, keyHash, e⟩ ::ₘ m) ∧
      t'.persisted = t.persisted ∧ t.header.nextOverflowPage ≤ t'.header.nextOverflowPage ∧
      ∀ fuel, t.enough ≤ fuel → t.insertPayloadIntoBucket fuel
        (t.header.bucketIdForHash keyHash) keyHash e = some t' := by
  have hb := h.address_lt keyHash
  obtain ⟨t', chains', hins, hrun⟩ := h.layout.insert hb keyHash he
  have howns : t.owns (t.header.bucketIdForHash keyHash) ⟨true, keyHash, e⟩ = true :=
    Bool.and_eq_true_iff.mpr ⟨rfl, beq_self_eq_true _⟩
  refine ⟨t', chains', ⟨?_, ?_, ?_, hins.layout, ?_⟩, hins.persisted, hins.grows,
    fun fuel hfuel => hrun fuel (Nat.lt_of_lt_of_le (h.length_lt hb) hfuel)⟩
  · rw [hins.header]
    exact h.level
  · rw [hins.header]
    exact h.split
  · rw [hins.header]
    exact h.count
  · rw [hins.slots hb howns, h.slots]

/-! ## Removal -/

/-- The slot is one that `erase` may set free. -/
def erasable (env : Env) (key : Bytes) (expectedValue : Option UInt64) (slot : Slot) : Bool :=
  slot.isMatch env key (env.hash key) && expectedValue.all (slot.entry.value == ·)

theorem tryErase_none {key : Bytes} {expectedValue : Option UInt64} {slots : List Slot}
    (h : tryEraseInSlots env key (env.hash key) expectedValue slots = none) :
    ∀ slot ∈ slots, erasable env key expectedValue slot = false := by
  induction slots with
  | nil => exact fun slot hslot => absurd hslot List.not_mem_nil
  | cons first slots ih =>
    rw [tryEraseInSlots] at h
    split at h
    · cases h
    · next hfirst =>
      intro slot hslot
      rcases List.mem_cons.mp hslot with rfl | hrest
      · exact Bool.eq_false_iff.mpr hfirst
      · exact ih (Option.map_eq_none_iff.mp h) slot hrest

theorem tryErase_some {key : Bytes} {expectedValue : Option UInt64} {slots slots' : List Slot}
    (h : tryEraseInSlots env key (env.hash key) expectedValue slots = some slots') :
    ∃ l₁ slot l₂, slots = l₁ ++ slot :: l₂ ∧ erasable env key expectedValue slot = true ∧
      slots' = l₁ ++ { slot with used := false } :: l₂ := by
  induction slots generalizing slots' with
  | nil => cases h
  | cons first slots ih =>
    rw [tryEraseInSlots] at h
    split at h
    · next hfirst =>
      cases h
      exact ⟨[], first, slots, rfl, hfirst, rfl⟩
    · obtain ⟨rest, hrest, rfl⟩ := Option.map_eq_some_iff.mp h
      obtain ⟨l₁, slot, l₂, rfl, hslot, rfl⟩ := ih hrest
      exact ⟨first :: l₁, slot, l₂, rfl, hslot, rfl⟩

/-- Where the loop of `erase` ends. -/
theorem eraseFrom_cases {id : Nat} {ids : List Nat} (hlinked : Linked Page.overflow t.pages id ids)
    (key : Bytes) (expectedValue : Option UInt64) :
    ((∀ slot ∈ t.slotsOf ids, erasable env key expectedValue slot = false) ∧
      ∀ fuel, ids.length < fuel → eraseFrom env key expectedValue t fuel id = some (false, t)) ∨
    ∃ ids₁ x ids₂ page l₁ slot l₂, ids = ids₁ ++ x :: ids₂ ∧ t.pages x = some page ∧
      page.slots = l₁ ++ slot :: l₂ ∧ erasable env key expectedValue slot = true ∧
      ∀ fuel, ids.length < fuel → eraseFrom env key expectedValue t fuel id =
        some (true, { t.writePage x { page with slots := l₁ ++ { slot with used := false } :: l₂ } with
          entryCount := t.entryCount - 1 }) := by
  induction hlinked with
  | nil =>
    refine .inl ⟨fun slot hslot => absurd hslot List.not_mem_nil, fun fuel hfuel => ?_⟩
    obtain ⟨fuel, rfl⟩ := Nat.exists_eq_succ_of_ne_zero (Nat.ne_zero_of_lt hfuel)
    rfl
  | @cons id page rest hid hpage _ ih =>
    cases herase : tryEraseInSlots env key (env.hash key) expectedValue page.slots with
    | some slots =>
      obtain ⟨l₁, slot, l₂, hslots, hslot, rfl⟩ := tryErase_some herase
      refine .inr ⟨[], id, rest, page, l₁, slot, l₂, rfl, hpage, hslots, hslot, fun fuel hlt => ?_⟩
      obtain ⟨k, rfl, -⟩ := PageChain.fuel_cons hlt
      simp only [eraseFrom, if_neg hid, hpage, Option.bind_eq_bind, Option.bind_some, herase]
    | none =>
      rcases ih with ⟨hnone, hrun⟩ | ⟨ids₁, x, ids₂, page', l₁, slot, l₂, rfl, hx, hslots, hslot, hrun⟩
      · refine .inl ⟨fun slot hslot => ?_, fun fuel hlt => ?_⟩
        · rw [slotsOf_cons _ hpage] at hslot
          rcases List.mem_append.mp hslot with hfirst | hrest
          · exact tryErase_none herase slot hfirst
          · exact hnone slot hrest
        · obtain ⟨k, rfl, hk⟩ := PageChain.fuel_cons hlt
          simp only [eraseFrom, if_neg hid, hpage, Option.bind_eq_bind, Option.bind_some, herase]
          exact hrun k hk
      · refine .inr ⟨id :: ids₁, x, ids₂, page', l₁, slot, l₂, rfl, hx, hslots, hslot,
          fun fuel hlt => ?_⟩
        obtain ⟨k, rfl, hk⟩ := PageChain.fuel_cons hlt
        simp only [eraseFrom, if_neg hid, hpage, Option.bind_eq_bind, Option.bind_some, herase]
        exact hrun k hk

/-- A slot set free is a slot less. -/
theorem Stores.free (h : Stores t s chains m) {b : Nat} (hb : b < s.count)
    {ids₁ ids₂ : List Nat} {x : Nat} (hchain : chains b = ids₁ ++ x :: ids₂) {page : Page}
    (hpage : t.pages x = some page) {l₁ l₂ : List Slot} {slot : Slot}
    (hslots : page.slots = l₁ ++ slot :: l₂) (howns : t.owns b slot = true) :
    slot ∈ m ∧
      Stores (t.writePage x { page with slots := l₁ ++ { slot with used := false } :: l₂ }) s
        chains (m.erase slot) := by
  have hfits : ∀ slot' ∈ page.slots, slot'.Fits := by
    intro slot' hslot'
    refine h.layout.fits b hb slot' ?_
    rw [hchain, slotsOf_append, slotsOf_cons _ hpage]
    exact List.mem_append_right _ (List.mem_append_left _ hslot')
  have hslot : slot.Fits := hfits slot (by
    rw [hslots]
    exact List.mem_append_right _ List.mem_cons_self)
  obtain ⟨hlayout, hbefore, hafter, hother⟩ := h.layout.writePage hb hchain hpage
    (rfl : ({ page with slots := l₁ ++ { slot with used := false } :: l₂ } : Page).overflow = _) (by
      intro slot' hslot'
      rcases List.mem_append.mp hslot' with hmem | hmem
      · exact hfits slot' (by rw [hslots]; exact List.mem_append_left _ hmem)
      · rcases List.mem_cons.mp hmem with rfl | hmem
        · exact hslot
        · exact hfits slot' (by
            rw [hslots]
            exact List.mem_append_right _ (List.mem_cons_of_mem _ hmem)))
  generalize hnew : t.writePage x { page with slots := l₁ ++ { slot with used := false } :: l₂ } = t'
    at hlayout hafter hother
  have howns' : ∀ b', t'.owns b' = t.owns b' := fun b' => by rw [← hnew]; rfl
  have hfree : t.owns b { slot with used := false } = false := rfl
  have hsum : t.ownSlots s.count chains = slot ::ₘ t'.ownSlots s.count chains := by
    rw [← Multiset.singleton_add]
    refine sum_range_change hb ?_ fun b' hb' hne => ?_
    · unfold bucketSlots
      rw [howns' b, hbefore, hafter, hslots]
      simp only [List.filter_append, List.filter_cons_of_pos howns, List.filter_cons, hfree,
        ← Multiset.coe_add, ← Multiset.cons_coe, Bool.false_eq_true, if_false]
      simp only [← Multiset.singleton_add]
      abel
    · unfold bucketSlots
      rw [howns' b', slotsOf_congr (hother b' hb' hne)]
  rw [h.slots] at hsum
  have hheader : t'.header = t.header := by rw [← hnew]; rfl
  rw [hsum, Multiset.erase_cons_head]
  refine ⟨Multiset.mem_cons_self .., ?_, ?_, ?_, ?_, rfl⟩
  · rw [hheader]
    exact h.level
  · rw [hheader]
    exact h.split
  · rw [hheader]
    exact h.count
  · rwa [hheader]

/-- **`erase`** sets one slot free that matches and has the value asked for, if there is one. -/
theorem Stores.erase (h : Stores t s chains m) (env : Env) (key : Bytes)
    (expectedValue : Option UInt64) :
    ∃ erased t', (∀ fuel, t.enough ≤ fuel →
        t.erase env fuel key expectedValue = some (erased, t')) ∧
      t'.persisted = t.persisted ∧ t'.header = t.header ∧
      ((erased = false ∧ t' = t ∧ ∀ slot ∈ m, erasable env key expectedValue slot = false) ∨
        ∃ slot ∈ m, erased = true ∧ erasable env key expectedValue slot = true ∧
          Stores t' s chains (m.erase slot)) := by
  have hb := h.address_lt (env.hash key)
  have hfuel : ∀ fuel, t.enough ≤ fuel →
      (chains (t.header.bucketIdForHash (env.hash key))).length < fuel :=
    fun fuel hfuel => Nat.lt_of_lt_of_le (h.length_lt hb) hfuel
  rcases eraseFrom_cases (h.layout.linked _ hb) key expectedValue with
    ⟨hnone, hrun⟩ | ⟨ids₁, x, ids₂, page, l₁, slot, l₂, hchain, hpage, hslots, hslot, hrun⟩
  · refine ⟨false, t, fun fuel hle => hrun fuel (hfuel fuel hle), rfl, rfl,
      .inl ⟨rfl, rfl, fun slot hmem => ?_⟩⟩
    rw [Bool.eq_false_iff]
    intro herasable
    -- a slot that matches would be in this bucket
    have hmatch := (Bool.and_eq_true_iff.mp herasable).1
    have hmine : slot ∈ m.filter (Slot.isMatch env key (env.hash key) · = true) :=
      Multiset.mem_filter.mpr ⟨hmem, hmatch⟩
    rw [h.filter_isMatch key rfl] at hmine
    have hfalse := hnone slot (List.mem_filter.mp hmine).1
    rw [herasable] at hfalse
    exact Bool.false_ne_true hfalse.symm
  · have hmatch := (Bool.and_eq_true_iff.mp hslot).1
    obtain ⟨hmem, hstores⟩ := h.free hb hchain hpage hslots ((owns_of_isMatch hmatch _).mpr rfl)
    refine ⟨true, _, fun fuel hle => hrun fuel (hfuel fuel hle), rfl, rfl,
      .inr ⟨slot, hmem, rfl, hslot, hstores.of_pages rfl rfl⟩⟩

end DiskHashTable

end Index
end Otterbrix
