/-
  Otterbrix.Index.DiskHashMultimap

  `disk_hash_table_t` is a multimap.  `put` adds a slot, and the rehash changes none.  As
  long as the key loader knows the keys that are not stored whole, the slots stand for
  pairs of a key and a reference, and `get_all`, `erase` and `for_each` answer by them.
-/
import Otterbrix.Index.DiskHashSplit

namespace Otterbrix
namespace Index

open PageChain

namespace DiskHashTable

variable {t t' : DiskHashTable} {s : LinearHash} {chains : Nat → List Nat}
  {m : Multiset Slot}

/-! ## Rehash -/

/-- The addressing state in the header page is the one in memory, and its page counter is not
    ahead. -/
structure Addressed (t : DiskHashTable) : Prop where
  state : t.persisted = { t.header with nextOverflowPage := t.persisted.nextOverflowPage }
  base : overflowPageIdBase ≤ t.persisted.nextOverflowPage
  behind : t.persisted.nextOverflowPage ≤ t.header.nextOverflowPage

/-- The header page has just been written. -/
theorem Stores.addressed (h : Stores t s chains m) (hsame : t.persisted = t.header) :
    t.Addressed :=
  ⟨by rw [hsame], by rw [hsame]; exact h.layout.base, by rw [hsame]⟩

theorem Stores.splitTimes (h : Stores t s chains m) (durableCommit : Bool) (k : Nat) :
    ∃ t' s' chains' N, Stores t' s' chains' m ∧ t'.entryCount = t.entryCount ∧
      t'.suppressAutoRehash = t.suppressAutoRehash ∧
      (durableCommit = true → t.Addressed → t'.Addressed) ∧
      ∀ fuel, N ≤ fuel → t.splitTimes fuel durableCommit k = some t' := by
  induction k generalizing t s chains with
  | zero => exact ⟨t, s, chains, 0, h, rfl, rfl, fun _ ha => ha, fun _ _ => rfl⟩
  | succ k ih =>
    by_cases hmax : s.count = 2 ^ 32 - 1
    · -- no more buckets: nothing happens
      obtain ⟨t', s', chains', N, hstores, hentries, hsuppressed, haddressed, hrun⟩ := ih h
      refine ⟨t', s', chains', N, hstores, hentries, hsuppressed, haddressed, fun fuel hfuel => ?_⟩
      have hnone : t.splitOneBucket fuel durableCommit = some t :=
        if_pos (by rw [h.count]; exact hmax)
      rw [DiskHashTable.splitTimes, hnone]
      exact hrun fuel hfuel
    · obtain ⟨t₁, chains₁, N₁, hstores₁, hentries₁, hsuppressed₁, hpersisted₁, hrun₁⟩ :=
        h.splitOneBucket hmax durableCommit
      obtain ⟨t', s', chains', N, hstores, hentries, hsuppressed, haddressed, hrun⟩ := ih hstores₁
      refine ⟨t', s', chains', max N₁ N, hstores, hentries.trans hentries₁,
        hsuppressed.trans hsuppressed₁, fun hdurable _ => haddressed hdurable ?_,
        fun fuel hfuel => ?_⟩
      · rw [hdurable, if_pos rfl] at hpersisted₁
        exact hstores₁.addressed hpersisted₁
      · rw [DiskHashTable.splitTimes, hrun₁ fuel (by omega)]
        exact hrun fuel (by omega)

/-- **The automatic rehash** changes no slot. -/
theorem Stores.maybeRehash (h : Stores t s chains m) (env : Env) :
    ∃ t' s' chains' N, Stores t' s' chains' m ∧ t'.entryCount = t.entryCount ∧
      (t.Addressed → t'.Addressed) ∧
      ∀ fuel, N ≤ fuel → t.maybeRehash env fuel = some t' := by
  by_cases hidle : t.suppressAutoRehash ∨ t.header.bucketCount = 2 ^ 32 - 1 ∨
      env.overloaded t.entryCount t.header.bucketCount = false
  · exact ⟨t, s, chains, 0, h, rfl, fun ha => ha, fun _ _ => if_pos hidle⟩
  · obtain ⟨k, hk⟩ : ∃ k, min (env.targetBuckets t.entryCount) (2 ^ 32 - 1) -
        t.header.bucketCount = k := ⟨_, rfl⟩
    by_cases hzero : k = 0
    · refine ⟨t, s, chains, 0, h, rfl, fun ha => ha, fun fuel _ => ?_⟩
      unfold DiskHashTable.maybeRehash
      rw [if_neg hidle, hk, if_pos hzero]
    · obtain ⟨t', s', chains', N, hstores, hentries, -, -, hrun⟩ := h.splitTimes false k
      have hpersisted : Stores t'.persistHeader s' chains' m :=
        hstores.of_pages rfl rfl
      refine ⟨t'.persistHeader, s', chains', N, hpersisted, hentries,
        fun _ => hpersisted.addressed rfl, fun fuel hfuel => ?_⟩
      unfold DiskHashTable.maybeRehash
      rw [if_neg hidle, hk, if_neg hzero, hrun fuel hfuel]
      rfl

/-! ## Put -/

/-- An entry always fits on a page. -/
theorem makeEntryPayload_size (key : Bytes) (value : UInt64) (logFileId : UInt32)
    (logOffset : UInt64) : (makeEntryPayload key value logFileId logOffset).size ≤ 91 := by
  have hkey : (makeEntryPayload key value logFileId logOffset).storedKey.length ≤ 64 := by
    show (if inlineKeyLimit < key.length then key.take _ else key).length ≤ 64
    split
    · rw [List.length_take]
      exact Nat.le_trans (Nat.min_le_left ..) (Nat.le_trans (Nat.min_le_left ..) (by decide))
    · next hshort => exact Nat.le_of_not_lt hshort
  unfold Entry.size
  omega

/-- The slot that `put` stores. -/
def putSlot (env : Env) (key : Bytes) (value : UInt64) (logFileId : UInt32) (logOffset : UInt64) :
    Slot :=
  ⟨true, env.hash key, makeEntryPayload key value logFileId logOffset⟩

/-- **`put`** adds a slot. -/
theorem Stores.put (h : Stores t s chains m) (env : Env) (key : Bytes) (value : UInt64)
    (logFileId : UInt32) (logOffset : UInt64) :
    ∃ t' s' chains' N, Stores t' s' chains' (putSlot env key value logFileId logOffset ::ₘ m) ∧
      (t.Addressed → t'.Addressed) ∧
      ∀ fuel, N ≤ fuel → t.put env fuel key value logFileId logOffset = some t' := by
  obtain ⟨t₁, chains₁, hstores₁, hpersisted₁, hgrows, hrun₁⟩ :=
    h.insert (env.hash key) (makeEntryPayload_size key value logFileId logOffset)
  have hcounted : Stores { t₁ with entryCount := t₁.entryCount + 1 } s chains₁
      (putSlot env key value logFileId logOffset ::ₘ m) :=
    hstores₁.of_pages rfl rfl
  obtain ⟨t', s', chains', N, hstores, -, haddressed, hrun⟩ := hcounted.maybeRehash env
  refine ⟨t', s', chains', max N t.enough, hstores, fun ha => haddressed ?_, fun fuel hfuel => ?_⟩
  · -- an insertion leaves the addressing state alone
    have hheader : ({ t₁.header with nextOverflowPage := t₁.persisted.nextOverflowPage } : Header) =
        { t.header with nextOverflowPage := t.persisted.nextOverflowPage } := by
      rw [Header.mk.injEq]
      exact ⟨hstores₁.count.trans h.count.symm, by rw [hpersisted₁],
        hstores₁.level.trans h.level.symm, hstores₁.split.trans h.split.symm⟩
    refine ⟨?_, ?_, ?_⟩
    · exact hpersisted₁.trans (ha.state.trans hheader.symm)
    · show overflowPageIdBase ≤ t₁.persisted.nextOverflowPage
      rw [hpersisted₁]
      exact ha.base
    · show t₁.persisted.nextOverflowPage ≤ t₁.header.nextOverflowPage
      rw [hpersisted₁]
      exact Nat.le_trans ha.behind hgrows
  · unfold DiskHashTable.put
    dsimp only
    rw [hrun₁ fuel (by omega)]
    exact hrun fuel (by omega)

/-! ## A new table -/

/-- Every bucket of a new table is one empty page. -/
theorem layout_create {n : Nat} (hn : n < 2 ^ 32) :
    Layout (create n) n overflowPageIdBase fun b => [bucketPrimaryPageId b] := by
  have hpage : ∀ b < n, (create n).pages (bucketPrimaryPageId b) = some .empty := by
    intro b hb
    refine if_pos ?_
    unfold bucketPrimaryPageId
    omega
  refine ⟨hn, fun b hb => ?_, fun b _ => List.nodup_singleton _, ?_, ?_, Nat.le_refl _, ?_, ?_⟩
  · exact .cons (Nat.ne_of_gt (Nat.add_pos_left Nat.one_pos b)) (hpage b hb) .nil
  · intro b _ b' _ x hx hx'
    rw [List.mem_singleton] at hx hx'
    unfold bucketPrimaryPageId at hx hx'
    omega
  · intro b hb x hx
    rw [List.mem_singleton] at hx
    unfold bucketPrimaryPageId at hx
    exact .inl (by omega)
  · intro x hge hlt
    omega
  · intro b hb slot hslot
    rw [slotsOf_cons _ (hpage b hb)] at hslot
    exact absurd hslot List.not_mem_nil

theorem addressed_create (n : Nat) : (create n).Addressed :=
  ⟨rfl, Nat.le_refl _, Nat.le_refl _⟩

theorem stores_create {n : Nat} (hpos : n ≠ 0) (hn : n < 2 ^ 32) :
    ∃ chains, Stores (create n) (.ofCount n) chains 0 := by
  have hcount := LinearHash.count_ofCount hpos
  refine ⟨fun b => [bucketPrimaryPageId b], rfl, rfl, hcount.symm, ?_, ?_⟩
  · rw [hcount]
    exact layout_create hn
  · rw [hcount]
    refine Finset.sum_eq_zero fun b hb => ?_
    have hpage : (create n).pages (bucketPrimaryPageId b) = some .empty := by
      refine if_pos ?_
      have hlt := Finset.mem_range.mp hb
      unfold bucketPrimaryPageId
      omega
    unfold bucketSlots
    rw [slotsOf_cons _ hpage]
    rfl

section Pairs

variable {env : Env} {p : Multiset (Bytes × ValueRef)}

/-- The key loader finds the key of an entry that only has a part of it. -/
def Loadable (env : Env) (key : Bytes) (logFileId : UInt32) (logOffset : UInt64) : Prop :=
  inlineKeyLimit < key.length → env.keyLoader logFileId logOffset = some key

theorem makeEntryPayload_sound {key : Bytes} {logFileId : UInt32} {logOffset : UInt64}
    (hload : Loadable env key logFileId logOffset) (value : UInt64) :
    (makeEntryPayload key value logFileId logOffset).Sound env ∧
      (makeEntryPayload key value logFileId logOffset).fullKey env = key := by
  by_cases hlong : inlineKeyLimit < key.length
  · have hkey := hload hlong
    refine ⟨⟨fun ht => absurd hlong (of_decide_eq_false ht), fun _ => ⟨key, hkey, hlong, ?_⟩⟩, ?_⟩
    · have hmin : min truncatedPrefixLen key.length = truncatedPrefixLen :=
        Nat.min_eq_left (Nat.le_of_lt (Nat.lt_trans (by decide) hlong))
      show (if inlineKeyLimit < key.length then _ else _) = _
      rw [if_pos hlong, hmin]
    · show (if decide (inlineKeyLimit < key.length) = true then _ else _) = _
      rw [if_pos (decide_eq_true hlong)]
      show (env.keyLoader logFileId logOffset).getD [] = key
      rw [hkey]
      rfl
  · have hstored : (makeEntryPayload key value logFileId logOffset).storedKey = key := if_neg hlong
    refine ⟨⟨fun _ => ?_, fun ht => absurd (of_decide_eq_true ht) hlong⟩, ?_⟩
    · rw [hstored]
      refine ⟨Nat.le_of_not_lt hlong, Nat.min_eq_left ?_⟩
      exact Nat.le_trans (Nat.le_of_not_lt hlong) (by decide)
    · show (if decide (inlineKeyLimit < key.length) = true then _ else _) = _
      rw [if_neg (by rw [decide_eq_true_iff]; exact hlong)]
      exact hstored

/-- The reference that `put` stores. -/
def putRef (key : Bytes) (value : UInt64) (logFileId : UInt32) (logOffset : UInt64) : ValueRef :=
  ⟨value, logFileId, logOffset, decide (inlineKeyLimit < key.length)⟩

theorem putSlot_pair {key : Bytes} {logFileId : UInt32} {logOffset : UInt64}
    (hload : Loadable env key logFileId logOffset) (value : UInt64) :
    (putSlot env key value logFileId logOffset).Sound env ∧
      (putSlot env key value logFileId logOffset).pair env =
        (key, putRef key value logFileId logOffset) := by
  obtain ⟨hsound, hkey⟩ := makeEntryPayload_sound hload value
  exact ⟨⟨hsound, congrArg env.hash hkey.symm⟩, Prod.ext hkey rfl⟩

/-- The table is well formed, its addressing state is `s`, all its keys can be loaded, and its
    pairs are `p`. -/
def Holds (env : Env) (t : DiskHashTable) (s : LinearHash) (chains : Nat → List Nat)
    (p : Multiset (Bytes × ValueRef)) : Prop :=
  ∃ m, t.Stores s chains m ∧ (∀ slot ∈ m, slot.used = true ∧ slot.Sound env) ∧
    m.map (Slot.pair env) = p

theorem Holds.of_pages {t' : DiskHashTable} (h : Holds env t s chains p)
    (hpages : t'.pages = t.pages) (hheader : t'.header = t.header) : Holds env t' s chains p := by
  obtain ⟨m, hstores, hpairs⟩ := h
  exact ⟨m, hstores.of_pages hpages hheader, hpairs⟩

theorem Holds.getAll (h : Holds env t s chains p) (key : Bytes) :
    ∃ refs, (∀ fuel, t.enough ≤ fuel → t.getAll env fuel key = some refs) ∧
      (refs : Multiset ValueRef) = (p.filter (·.1 = key)).map Prod.snd := by
  obtain ⟨m, hstores, hsound, rfl⟩ := h
  obtain ⟨refs, hrun, hrefs⟩ := hstores.getAll env key
  refine ⟨refs, hrun, ?_⟩
  rw [hrefs, Multiset.filter_map, Multiset.map_map]
  refine congrArg _ (Multiset.filter_congr fun slot hslot => ?_)
  obtain ⟨hused, hslot⟩ := hsound slot hslot
  rw [hslot.isMatch_iff]
  exact ⟨And.right, fun hkey => ⟨hused, hkey⟩⟩

theorem Holds.forEach (h : Holds env t s chains p) :
    ∃ refs, (∀ fuel, t.enough ≤ fuel → t.forEach fuel = some refs) ∧
      (refs : Multiset ValueRef) = p.map Prod.snd := by
  obtain ⟨m, hstores, -, rfl⟩ := h
  obtain ⟨refs, hrun, hrefs⟩ := hstores.forEach
  exact ⟨refs, hrun, by rw [hrefs, Multiset.map_map]; rfl⟩

theorem Holds.put (h : Holds env t s chains p) {key : Bytes} {logFileId : UInt32}
    {logOffset : UInt64} (hload : Loadable env key logFileId logOffset) (value : UInt64) :
    ∃ t' s' chains' N,
      Holds env t' s' chains' ((key, putRef key value logFileId logOffset) ::ₘ p) ∧
      (t.Addressed → t'.Addressed) ∧
      ∀ fuel, N ≤ fuel → t.put env fuel key value logFileId logOffset = some t' := by
  obtain ⟨m, hstores, hsound, rfl⟩ := h
  obtain ⟨t', s', chains', N, hstores', haddressed, hrun⟩ :=
    hstores.put env key value logFileId logOffset
  obtain ⟨hslot, hpair⟩ := putSlot_pair hload value
  refine ⟨t', s', chains', N, ⟨_, hstores', fun slot hmem => ?_, ?_⟩, haddressed, hrun⟩
  · rcases Multiset.mem_cons.mp hmem with rfl | hmem
    · exact ⟨rfl, hslot⟩
    · exact hsound slot hmem
  · rw [Multiset.map_cons, hpair]

/-- **`erase`** removes one pair of the key, if there is one with the value asked for. -/
theorem Holds.erase (h : Holds env t s chains p) (key : Bytes) (expectedValue : Option UInt64) :
    ∃ erased t', (∀ fuel, t.enough ≤ fuel →
        t.erase env fuel key expectedValue = some (erased, t')) ∧
      t'.persisted = t.persisted ∧ t'.header = t.header ∧
      ((erased = false ∧ t' = t ∧ ∀ ref, (key, ref) ∈ p → expectedValue.all (ref.value == ·) = false) ∨
        ∃ ref, erased = true ∧ (key, ref) ∈ p ∧ expectedValue.all (ref.value == ·) = true ∧
          Holds env t' s chains (p.erase (key, ref))) := by
  obtain ⟨m, hstores, hsound, rfl⟩ := h
  obtain ⟨erased, t', hrun, hpersisted, hheader, hcases⟩ := hstores.erase env key expectedValue
  refine ⟨erased, t', hrun, hpersisted, hheader, ?_⟩
  rcases hcases with ⟨herased, hsame, hnone⟩ | ⟨slot, hmem, herased, herasable, hstores'⟩
  · refine .inl ⟨herased, hsame, fun ref href => ?_⟩
    obtain ⟨slot, hslot, hpair⟩ := Multiset.mem_map.mp href
    obtain ⟨hkey, rfl⟩ := Prod.mk.inj hpair
    obtain ⟨hused, hslotSound⟩ := hsound slot hslot
    have herasable := hnone slot hslot
    unfold erasable at herasable
    rwa [(hslotSound.isMatch_iff key).mpr ⟨hused, hkey⟩, Bool.true_and] at herasable
  · obtain ⟨hmatch, hvalue⟩ := Bool.and_eq_true_iff.mp herasable
    obtain ⟨-, hslot⟩ := hsound slot hmem
    have hpair : slot.pair env = (key, slot.entry.ref) :=
      Prod.ext ((hslot.isMatch_iff key).mp hmatch).2 rfl
    refine .inr ⟨slot.entry.ref, herased, ?_, hvalue, m.erase slot, hstores',
      fun slot' hmem' => hsound slot' (Multiset.mem_of_mem_erase hmem'), ?_⟩
    · rw [← hpair]
      exact Multiset.mem_map_of_mem _ hmem
    · rw [← hpair, Multiset.map_erase_of_mem _ _ hmem]

theorem Holds.splitTimes (h : Holds env t s chains p) (durableCommit : Bool) (k : Nat) :
    ∃ t' s' chains' N, Holds env t' s' chains' p ∧ t'.entryCount = t.entryCount ∧
      t'.suppressAutoRehash = t.suppressAutoRehash ∧
      (durableCommit = true → t.Addressed → t'.Addressed) ∧
      ∀ fuel, N ≤ fuel → t.splitTimes fuel durableCommit k = some t' := by
  obtain ⟨m, hstores, hpairs⟩ := h
  obtain ⟨t', s', chains', N, hstores', hrest⟩ := hstores.splitTimes durableCommit k
  exact ⟨t', s', chains', N, ⟨m, hstores', hpairs⟩, hrest⟩

theorem Holds.maybeRehash (h : Holds env t s chains p) :
    ∃ t' s' chains' N, Holds env t' s' chains' p ∧ t'.entryCount = t.entryCount ∧
      (t.Addressed → t'.Addressed) ∧
      ∀ fuel, N ≤ fuel → t.maybeRehash env fuel = some t' := by
  obtain ⟨m, hstores, hpairs⟩ := h
  obtain ⟨t', s', chains', N, hstores', hrest⟩ := hstores.maybeRehash env
  exact ⟨t', s', chains', N, ⟨m, hstores', hpairs⟩, hrest⟩

theorem holds_create (env : Env) {n : Nat} (hpos : n ≠ 0) (hn : n < 2 ^ 32) :
    ∃ chains, Holds env (create n) (.ofCount n) chains 0 := by
  obtain ⟨chains, hstores⟩ := stores_create hpos hn
  exact ⟨chains, 0, hstores, fun slot hslot => absurd hslot (Multiset.notMem_zero slot), rfl⟩

end Pairs

end DiskHashTable

end Index
end Otterbrix
