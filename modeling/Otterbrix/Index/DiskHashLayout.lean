/-
  Otterbrix.Index.DiskHashLayout

  The pages of a linear hash file.  In a well-formed file the buckets are disjoint chains
  without repetition, all overflow pages are below the allocator's counter, and no entry is
  too large for a page.  An insertion puts one slot into one bucket, in place or on a new
  page behind its chain, and leaves the other buckets alone.
-/
import Mathlib.Data.List.Perm.Subperm
import Otterbrix.Lib.PageChain
import Otterbrix.Index.DiskHashTable

namespace Otterbrix
namespace Index

open PageChain

variable {env : Env}

/-! ## Entries and their keys -/

/-- The key an entry was put under. -/
def Entry.fullKey (env : Env) (e : Entry) : Bytes :=
  if e.truncated then (env.keyLoader e.logFileId e.logOffset).getD [] else e.storedKey

/-- The entry is of the form `make_entry_payload` gives it, and its key can be loaded. -/
structure Entry.Sound (env : Env) (e : Entry) : Prop where
  inline : e.truncated = false →
    e.storedKey.length ≤ inlineKeyLimit ∧ e.fullKeyLen = e.storedKey.length
  loaded : e.truncated = true → ∃ full, env.keyLoader e.logFileId e.logOffset = some full ∧
    inlineKeyLimit < full.length ∧ e.storedKey = full.take truncatedPrefixLen

/-- An entry with a key that may be stored whole, or a part of a longer one. -/
def Slot.Fits (s : Slot) : Prop := s.entry.size ≤ 91

/-- The comparison of keys is exact, also for a key of which only a part is stored. -/
theorem Entry.Sound.keysEqual_iff {e : Entry} (h : e.Sound env) (key : Bytes) :
    keysEqual env key e = true ↔ e.fullKey env = key := by
  unfold keysEqual Entry.fullKey
  cases ht : e.truncated with
  | false =>
    obtain ⟨-, hlen⟩ := h.inline ht
    simp only [Bool.false_eq_true, if_false, Bool.and_eq_true, beq_iff_eq]
    constructor
    · rintro ⟨-, rfl⟩
      rfl
    · rintro rfl
      exact ⟨hlen.symm, rfl⟩
  | true =>
    obtain ⟨full, hload, hlong, hstored⟩ := h.loaded ht
    have hlen : e.storedKey.length = 32 := by
      rw [hstored, List.length_take]
      exact Nat.min_eq_left (Nat.le_of_lt (Nat.lt_trans (by decide) hlong))
    simp only [if_true, hload, Option.getD_some]
    constructor
    · intro heq
      split at heq
      · exact absurd heq Bool.false_ne_true
      · exact beq_iff_eq.mp heq
    · rintro rfl
      rw [if_neg, beq_self_eq_true]
      rw [not_or, not_lt, not_not, hlen, hstored]
      exact ⟨Nat.le_of_lt (Nat.lt_trans (by decide) hlong), rfl⟩

/-- A slot with the hash of its key. -/
structure Slot.Sound (env : Env) (s : Slot) : Prop where
  entry : s.entry.Sound env
  hash : s.keyHash = env.hash (s.entry.fullKey env)

/-- The key and the reference that a slot stands for. -/
def Slot.pair (env : Env) (s : Slot) : Bytes × ValueRef := (s.entry.fullKey env, s.entry.ref)

theorem Slot.Sound.isMatch_iff {s : Slot} (h : s.Sound env) (key : Bytes) :
    s.isMatch env key (env.hash key) = true ↔ s.used = true ∧ (s.pair env).1 = key := by
  unfold Slot.isMatch Slot.pair
  rw [Bool.and_eq_true, Bool.and_eq_true, h.entry.keysEqual_iff, beq_iff_eq, h.hash]
  constructor
  · rintro ⟨⟨hused, -⟩, hkey⟩
    exact ⟨hused, hkey⟩
  · rintro ⟨hused, hkey⟩
    exact ⟨⟨hused, congrArg env.hash hkey⟩, hkey⟩

/-! ## Pages -/

theorem tryInsert_slots {page page' : Page} {keyHash : UInt32} {e : Entry}
    (h : tryInsertPayloadInPage page keyHash e = some page') :
    page'.slots = page.slots ++ [⟨true, keyHash, e⟩] ∧ page'.overflow = page.overflow := by
  unfold tryInsertPayloadInPage at h
  dsimp only at h
  split at h
  · cases h
  · cases h
    exact ⟨rfl, rfl⟩

/-- An entry always fits on an empty page. -/
theorem tryInsert_empty {e : Entry} (hsize : e.size ≤ 91) (keyHash : UInt32) :
    ∃ page, tryInsertPayloadInPage .empty keyHash e = some page := by
  refine ⟨_, if_neg ?_⟩
  show ¬(4096 - 9 * 1 + 9 < 12 + e.size + 9)
  omega

namespace DiskHashTable

variable {t : DiskHashTable}

/-- The slots of the pages `ids`, in order. -/
def slotsOf (t : DiskHashTable) (ids : List Nat) : List Slot :=
  ids.flatMap fun id => ((t.pages id).map Page.slots).getD []

theorem slotsOf_append (t : DiskHashTable) (ids ids' : List Nat) :
    t.slotsOf (ids ++ ids') = t.slotsOf ids ++ t.slotsOf ids' := List.flatMap_append

theorem slotsOf_cons {id : Nat} {page : Page} (ids : List Nat) (h : t.pages id = some page) :
    t.slotsOf (id :: ids) = page.slots ++ t.slotsOf ids := by
  unfold slotsOf
  rw [List.flatMap_cons, h]
  rfl

theorem slotsOf_congr {t' : DiskHashTable} {ids : List Nat}
    (h : ∀ id ∈ ids, t'.pages id = t.pages id) : t'.slotsOf ids = t.slotsOf ids :=
  List.flatMap_congr fun id hid => by rw [h id hid]

@[simp] theorem writePage_self (t : DiskHashTable) (id : Nat) (page : Page) :
    (t.writePage id page).pages id = some page := Function.update_self ..

theorem writePage_of_ne (t : DiskHashTable) {id x : Nat} (page : Page) (h : x ≠ id) :
    (t.writePage id page).pages x = t.pages x := Function.update_of_ne h ..

/-! ## Well-formed files -/

/-- `n` buckets in pages: bucket `b` is the chain `chains b`, and the overflow pages of all
    of them together are those below `top`. -/
structure Layout (t : DiskHashTable) (n top : Nat) (chains : Nat → List Nat) : Prop where
  few : n < 2 ^ 32
  linked : ∀ b < n, Linked Page.overflow t.pages (bucketPrimaryPageId b) (chains b)
  nodup : ∀ b < n, (chains b).Nodup
  disjoint : ∀ b < n, ∀ b' < n, ∀ x ∈ chains b, x ∈ chains b' → b = b'
  below : ∀ b < n, ∀ x ∈ chains b, x ≤ n ∨ overflowPageIdBase ≤ x ∧ x < top
  base : overflowPageIdBase ≤ top
  filled : ∀ x, overflowPageIdBase ≤ x → x < top → ∃ b < n, x ∈ chains b
  fits : ∀ b < n, ∀ s ∈ t.slotsOf (chains b), s.Fits

variable {n top : Nat} {chains : Nat → List Nat}

/-- The first page above is on no chain. -/
theorem Layout.fresh (h : Layout t n top chains) {b : Nat} (hb : b < n) :
    top ∉ chains b := by
  intro hmem
  have hfew := h.few
  have hbase := h.base
  unfold overflowPageIdBase at hbase
  rcases h.below b hb _ hmem with hle | ⟨-, hlt⟩ <;> omega

/-- A chain has at most all pages there are. -/
theorem Layout.length_le (h : Layout t n top chains) {b : Nat} (hb : b < n) :
    (chains b).length ≤ n + 1 + (top - overflowPageIdBase) := by
  have hsubset : chains b ⊆
      List.range (n + 1) ++ List.range' overflowPageIdBase (top - overflowPageIdBase) := by
    intro x hx
    rcases h.below b hb x hx with hle | ⟨hge, hlt⟩
    · exact List.mem_append_left _ (List.mem_range.mpr (Nat.lt_succ_of_le hle))
    · refine List.mem_append_right _ (List.mem_range'_1.mpr ⟨hge, ?_⟩)
      omega
  have hle := ((h.nodup b hb).subperm hsubset).length_le
  rwa [List.length_append, List.length_range, List.length_range'] at hle

/-- **A page is rewritten** in place, with its link as it was. -/
theorem Layout.writePage (h : Layout t n top chains) {b : Nat} (hb : b < n) {ids₁ ids₂ : List Nat}
    {x : Nat} (hchain : chains b = ids₁ ++ x :: ids₂) {page page' : Page}
    (hpage : t.pages x = some page) (hlink : page'.overflow = page.overflow)
    (hfits : ∀ s ∈ page'.slots, s.Fits) :
    Layout (t.writePage x page') n top chains ∧
      t.slotsOf (chains b) = t.slotsOf ids₁ ++ (page.slots ++ t.slotsOf ids₂) ∧
      (t.writePage x page').slotsOf (chains b) =
        t.slotsOf ids₁ ++ (page'.slots ++ t.slotsOf ids₂) ∧
      ∀ b' < n, b' ≠ b → ∀ y ∈ chains b', (t.writePage x page').pages y = t.pages y := by
  have hnodup := h.nodup b hb
  rw [hchain] at hnodup
  obtain ⟨-, hnodup₂, hdisjoint⟩ := List.nodup_append'.mp hnodup
  have hnot₁ : ∀ id ∈ ids₁, id ≠ x := by
    rintro id hid rfl
    exact hdisjoint hid List.mem_cons_self
  have hnot₂ : ∀ id ∈ ids₂, id ≠ x := by
    rintro id hid rfl
    exact (List.nodup_cons.mp hnodup₂).1 hid
  have hx : x ∈ chains b := by
    rw [hchain]
    exact List.mem_append_right _ List.mem_cons_self
  have hold : t.slotsOf (chains b) = t.slotsOf ids₁ ++ (page.slots ++ t.slotsOf ids₂) := by
    rw [hchain, slotsOf_append, slotsOf_cons _ hpage]
  have hnew : (t.writePage x page').slotsOf (chains b) =
      t.slotsOf ids₁ ++ (page'.slots ++ t.slotsOf ids₂) := by
    rw [hchain, slotsOf_append, slotsOf_cons _ (writePage_self ..),
      slotsOf_congr fun id hid => writePage_of_ne t page' (hnot₁ id hid),
      slotsOf_congr fun id hid => writePage_of_ne t page' (hnot₂ id hid)]
  have hother : ∀ b' < n, b' ≠ b → ∀ y ∈ chains b', (t.writePage x page').pages y = t.pages y := by
    intro b' hb' hne y hy
    refine writePage_of_ne t page' ?_
    rintro rfl
    exact hne (h.disjoint b' hb' b hb y hy hx)
  refine ⟨{ h with
    linked := fun b' hb' => (h.linked b' hb').update_of_next hpage hlink
    fits := fun b' hb' s hs => ?_ }, hold, hnew, hother⟩
  by_cases hb'' : b' = b
  · subst hb''
    rw [hnew] at hs
    rcases List.mem_append.mp hs with hs₁ | hs₂
    · exact h.fits b' hb s (by rw [hold]; exact List.mem_append_left _ hs₁)
    · rcases List.mem_append.mp hs₂ with hs' | hs₂
      · exact hfits s hs'
      · exact h.fits b' hb s (by
          rw [hold]
          exact List.mem_append_right _ (List.mem_append_right _ hs₂))
  · rw [slotsOf_congr (hother b' hb' hb'')] at hs
    exact h.fits b' hb' s hs

/-- **A page is added** behind the chain of a bucket, with one slot on it. -/
theorem Layout.extend (h : Layout t n t.header.nextOverflowPage chains) {b : Nat} (hb : b < n)
    {x : Nat} (hx : x ∈ chains b) {page new : Page} (hpage : t.pages x = some page)
    (hlast : page.overflow = 0) (hend : new.overflow = 0) (hfits : ∀ s ∈ new.slots, s.Fits) :
    let top := t.header.nextOverflowPage
    let t' := (t.allocateOverflowPage.2.writePage x { page with overflow := top }).writePage top new
    let chains' := Function.update chains b (chains b ++ [top])
    Layout t' n (top + 1) chains' ∧
      t'.slotsOf (chains' b) = t.slotsOf (chains b) ++ new.slots ∧
      ∀ b' < n, b' ≠ b → chains' b' = chains b' ∧ ∀ y ∈ chains b', t'.pages y = t.pages y := by
  intro top t' chains'
  have hfresh : ∀ b' < n, top ∉ chains b' := fun b' hb' => h.fresh hb'
  have hne : top ≠ x := fun heq => hfresh b hb (heq ▸ hx)
  have hzero : top ≠ 0 := by
    have hbase := h.base
    unfold overflowPageIdBase at hbase
    omega
  -- the new page, then the link
  have hpages : t'.pages = Function.update (Function.update t.pages top (some new)) x
      (some { page with overflow := top }) := by
    show Function.update (Function.update (Function.update t.pages top _) x _) top _ = _
    rw [Function.update_comm hne, Function.update_idem, Function.update_comm hne]
  have hchain : chains' b = chains b ++ [top] := Function.update_self ..
  have hchains : ∀ b' ≠ b, chains' b' = chains b' := fun b' hb' => Function.update_of_ne hb' ..
  have hkept : ∀ y, y ≠ top → y ≠ x → t'.pages y = t.pages y := by
    intro y hy hyx
    rw [hpages, Function.update_of_ne hyx, Function.update_of_ne hy]
  have hslots : t'.slotsOf (chains b) = t.slotsOf (chains b) := by
    refine List.flatMap_congr fun y hy => ?_
    by_cases hyx : y = x
    · rw [hpages, hyx, Function.update_self, hpage]
      rfl
    · rw [hkept y (fun heq => hfresh b hb (heq ▸ hy)) hyx]
  have hnew : t'.slotsOf (chains' b) = t.slotsOf (chains b) ++ new.slots := by
    rw [hchain, slotsOf_append, hslots, slotsOf_cons [] (writePage_self ..)]
    exact congrArg _ (List.append_nil _)
  have hother : ∀ b' < n, b' ≠ b →
      chains' b' = chains b' ∧ ∀ y ∈ chains b', t'.pages y = t.pages y := by
    intro b' hb' hbb
    refine ⟨hchains b' hbb, fun y hy => hkept y (fun heq => hfresh b' hb' (heq ▸ hy)) ?_⟩
    rintro rfl
    exact hbb (h.disjoint b' hb' b hb y hy hx)
  have hmem : ∀ b' < n, ∀ y ∈ chains' b', y ∈ chains b' ∨ b' = b ∧ y = top := by
    intro b' hb' y hy
    by_cases hbb : b' = b
    · subst hbb
      rw [hchain] at hy
      rcases List.mem_append.mp hy with hold | hlast
      · exact .inl hold
      · exact .inr ⟨rfl, List.mem_singleton.mp hlast⟩
    · rw [hchains b' hbb] at hy
      exact .inl hy
  refine ⟨⟨h.few, fun b' hb' => ?_, fun b' hb' => ?_, ?_, ?_, Nat.le_succ_of_le h.base, ?_, ?_⟩,
    hnew, hother⟩
  · rw [hpages]
    have hold := (h.linked b' hb').update_of_notMem (hfresh b' hb') (some new)
    by_cases hbb : b' = b
    · subst hbb
      rw [hchain]
      refine hold.snoc (h.nodup b' hb) hx ?_ hlast rfl hzero (hfresh b' hb)
        (Function.update_self ..) hend
      rw [Function.update_of_ne hne.symm]
      exact hpage
    · rw [hchains b' hbb]
      exact hold.update_of_notMem (fun hmem => hbb (h.disjoint b' hb' b hb x hmem hx)) _
  · by_cases hbb : b' = b
    · subst hbb
      rw [hchain]
      refine List.nodup_append'.mpr ⟨h.nodup b' hb, List.nodup_singleton _, ?_⟩
      exact List.disjoint_singleton.mpr (hfresh b' hb)
    · rw [hchains b' hbb]
      exact h.nodup b' hb'
  · intro b₁ hb₁ b₂ hb₂ y hy₁ hy₂
    rcases hmem b₁ hb₁ y hy₁ with hold₁ | ⟨rfl, rfl⟩
    · rcases hmem b₂ hb₂ y hy₂ with hold₂ | ⟨rfl, rfl⟩
      · exact h.disjoint b₁ hb₁ b₂ hb₂ y hold₁ hold₂
      · exact absurd hold₁ (hfresh b₁ hb₁)
    · rcases hmem b₂ hb₂ top hy₂ with hold₂ | ⟨rfl, -⟩
      · exact absurd hold₂ (hfresh b₂ hb₂)
      · rfl
  · intro b' hb' y hy
    rcases hmem b' hb' y hy with hold | ⟨-, rfl⟩
    · rcases h.below b' hb' y hold with hle | ⟨hge, hlt⟩
      · exact .inl hle
      · exact .inr ⟨hge, Nat.lt_succ_of_lt hlt⟩
    · exact .inr ⟨h.base, Nat.lt_succ_self _⟩
  · intro y hge hlt
    rcases Nat.lt_or_eq_of_le (Nat.le_of_lt_succ hlt) with hbelow | rfl
    · obtain ⟨b', hb', hy⟩ := h.filled y hge hbelow
      refine ⟨b', hb', ?_⟩
      by_cases hbb : b' = b
      · subst hbb
        rw [hchain]
        exact List.mem_append_left _ hy
      · rw [hchains b' hbb]
        exact hy
    · refine ⟨b, hb, ?_⟩
      rw [hchain]
      exact List.mem_append_right _ (List.mem_singleton_self _)
  · intro b' hb' s hs
    by_cases hbb : b' = b
    · subst hbb
      rw [hnew] at hs
      rcases List.mem_append.mp hs with hold | hnew
      · exact h.fits b' hb s hold
      · exact hfits s hnew
    · rw [hchains b' hbb, slotsOf_congr (hother b' hb' hbb).2] at hs
      exact h.fits b' hb' s hs

/-! ## Insertion -/

/-- Where the insertion loop ends: at the first page with room, or behind the last. -/
theorem insertPayloadFrom_cases {pageId : Nat} {ids : List Nat}
    (hlinked : Linked Page.overflow t.pages pageId ids) (hid : pageId ≠ 0)
    (hfresh : t.header.nextOverflowPage ∉ ids) (keyHash : UInt32) {e : Entry} (he : e.size ≤ 91) :
    ∃ x ∈ ids, ∃ page, t.pages x = some page ∧
      ((∃ page', tryInsertPayloadInPage page keyHash e = some page' ∧
        ∀ fuel, ids.length < fuel →
          insertPayloadFrom keyHash e fuel t pageId = some (t.writePage x page')) ∨
      (page.overflow = 0 ∧ ∃ new, tryInsertPayloadInPage .empty keyHash e = some new ∧
        ∀ fuel, ids.length < fuel →
          insertPayloadFrom keyHash e fuel t pageId =
            some ((t.allocateOverflowPage.2.writePage x
              { page with overflow := t.header.nextOverflowPage }).writePage
                t.header.nextOverflowPage new))) := by
  induction hlinked with
  | nil => exact absurd rfl hid
  | @cons id page rest hid hpage hrest ih =>
    obtain ⟨hne, hfresh⟩ := List.ne_and_not_mem_of_not_mem_cons hfresh
    cases hfit : tryInsertPayloadInPage page keyHash e with
    | some page' =>
      refine ⟨id, List.mem_cons_self, page, hpage, .inl ⟨page', hfit, fun fuel hfuel => ?_⟩⟩
      obtain ⟨fuel, rfl⟩ := Nat.exists_eq_succ_of_ne_zero (Nat.ne_zero_of_lt hfuel)
      simp only [insertPayloadFrom, hpage, hfit, Option.bind_eq_bind, Option.bind_some]
    | none =>
      by_cases hlast : page.overflow = 0
      · -- a new page is linked, and the entry goes there
        obtain ⟨new, hnew⟩ := tryInsert_empty he keyHash
        refine ⟨id, List.mem_cons_self, page, hpage, .inr ⟨hlast, new, hnew, fun fuel hfuel => ?_⟩⟩
        rw [List.length_cons] at hfuel
        obtain ⟨fuel, rfl⟩ : ∃ k, fuel = k + 2 := ⟨fuel - 2, by omega⟩
        have hread : (t.allocateOverflowPage.2.writePage id
            { page with overflow := t.header.nextOverflowPage }).pages t.header.nextOverflowPage =
              some .empty :=
          (writePage_of_ne _ _ hne).trans (writePage_self ..)
        have hstep : insertPayloadFrom keyHash e (fuel + 2) t id =
            insertPayloadFrom keyHash e (fuel + 1) (t.allocateOverflowPage.2.writePage id
              { page with overflow := t.header.nextOverflowPage }) t.header.nextOverflowPage := by
          rw [insertPayloadFrom]
          simp only [hpage, hfit, hlast, Option.bind_eq_bind, Option.bind_some, if_true]
          rfl
        rw [hstep]
        simp only [insertPayloadFrom, hread, hnew, Option.bind_eq_bind, Option.bind_some]
      · obtain ⟨x, hx, page', hpage', hcases⟩ := ih hlast hfresh
        have hstep : ∀ fuel, insertPayloadFrom keyHash e (fuel + 1) t id =
            insertPayloadFrom keyHash e fuel t page.overflow := by
          intro fuel
          simp only [insertPayloadFrom, hpage, hfit, hlast, Option.bind_eq_bind,
            Option.bind_some, if_false]
        refine ⟨x, List.mem_cons_of_mem _ hx, page', hpage', ?_⟩
        rcases hcases with ⟨page'', hfits, hrun⟩ | ⟨hend, new, hnew, hrun⟩
        · refine .inl ⟨page'', hfits, fun fuel hlt => ?_⟩
          obtain ⟨k, rfl, hk⟩ := PageChain.fuel_cons hlt
          rw [hstep, hrun k hk]
        · refine .inr ⟨hend, new, hnew, fun fuel hlt => ?_⟩
          obtain ⟨k, rfl, hk⟩ := PageChain.fuel_cons hlt
          rw [hstep, hrun k hk]

/-- `t'` is `t` with one more slot in bucket `b`. -/
structure Inserted (t t' : DiskHashTable) (n b : Nat) (s : Slot)
    (chains chains' : Nat → List Nat) : Prop where
  layout : Layout t' n t'.header.nextOverflowPage chains'
  here : (t'.slotsOf (chains' b)).Perm (s :: t.slotsOf (chains b))
  other : ∀ b' < n, b' ≠ b → chains' b' = chains b' ∧ ∀ y ∈ chains b', t'.pages y = t.pages y
  header : t'.header = { t.header with nextOverflowPage := t'.header.nextOverflowPage }
  grows : t.header.nextOverflowPage ≤ t'.header.nextOverflowPage
  persisted : t'.persisted = t.persisted
  entryCount : t'.entryCount = t.entryCount
  suppressed : t'.suppressAutoRehash = t.suppressAutoRehash

/-- **Insertion.** -/
theorem Layout.insert (h : Layout t n t.header.nextOverflowPage chains) {b : Nat} (hb : b < n)
    (keyHash : UInt32) {e : Entry} (hs : e.size ≤ 91) :
    ∃ t' chains', Inserted t t' n b ⟨true, keyHash, e⟩ chains chains' ∧
      ∀ fuel, (chains b).length < fuel →
        t.insertPayloadIntoBucket fuel b keyHash e = some t' := by
  have hprimary : bucketPrimaryPageId b ≠ 0 := Nat.ne_of_gt (Nat.add_pos_left Nat.one_pos b)
  obtain ⟨x, hx, page, hpage, hcases⟩ :=
    insertPayloadFrom_cases (h.linked b hb) hprimary (h.fresh hb) keyHash hs
  obtain ⟨ids₁, ids₂, hchain⟩ := List.append_of_mem hx
  have hold : ∀ s' ∈ page.slots, s'.Fits := by
    intro s' hs'
    refine h.fits b hb s' ?_
    rw [hchain, slotsOf_append, slotsOf_cons _ hpage]
    exact List.mem_append_right _ (List.mem_append_left _ hs')
  rcases hcases with ⟨page', hfit, hrun⟩ | ⟨hlast, new, hnew, hrun⟩
  · obtain ⟨hslots, hlink⟩ := tryInsert_slots hfit
    obtain ⟨hlayout, hbefore, hafter, hother⟩ := h.writePage hb hchain hpage hlink (by
      intro s' hs'
      rw [hslots] at hs'
      rcases List.mem_append.mp hs' with hmem | hmem
      · exact hold s' hmem
      · rw [List.mem_singleton.mp hmem]
        exact hs)
    refine ⟨_, chains, ⟨hlayout, ?_, fun b' hb' hne => ⟨rfl, hother b' hb' hne⟩,
      rfl, Nat.le_refl _, rfl, rfl, rfl⟩, hrun⟩
    rw [hbefore, hafter, hslots, List.append_assoc page.slots, List.singleton_append,
      ← List.append_assoc, ← List.append_assoc]
    exact List.perm_middle
  · obtain ⟨hslots, hlink⟩ := tryInsert_slots hnew
    obtain ⟨hlayout, hafter, hother⟩ := h.extend hb hx hpage hlast hlink (by
      intro s' hs'
      rw [hslots] at hs'
      rw [List.mem_singleton.mp hs']
      exact hs)
    refine ⟨_, _, ⟨hlayout, ?_, hother, rfl, Nat.le_succ _, rfl, rfl, rfl⟩, hrun⟩
    rw [hafter, hslots]
    exact List.perm_append_singleton ..

end DiskHashTable

end Index
end Otterbrix
