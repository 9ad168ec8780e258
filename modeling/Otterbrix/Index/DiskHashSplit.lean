/-
  Otterbrix.Index.DiskHashSplit

  Splits of a linear hash file.  A split adds a bucket, copies to it the slots of the
  bucket at the split pointer that now belong there, and moves the pointer on.  The copies
  left behind are no longer in the bucket of their hash, so the contents stay the same.
-/
import Otterbrix.Index.DiskHashSlots

namespace Otterbrix
namespace Index

open PageChain

namespace DiskHashTable

variable {t t' t'' : DiskHashTable} {s : LinearHash} {chains chains' chains'' : Nat → List Nat}
  {m : Multiset Slot} {n top : Nat}

/-! ## A new bucket -/

/-- **An empty bucket is added.** -/
theorem Layout.addBucket (h : Layout t n top chains) (hn : n + 1 < 2 ^ 32) :
    Layout (t.writePage (bucketPrimaryPageId n) .empty) (n + 1) top
        (Function.update chains n [bucketPrimaryPageId n]) ∧
      ∀ b < n, ∀ y ∈ chains b, (t.writePage (bucketPrimaryPageId n) .empty).pages y = t.pages y := by
  have hid : bucketPrimaryPageId n = n + 1 := Nat.add_comm 1 n
  have hbase := h.base
  unfold overflowPageIdBase at hbase
  have hfresh : ∀ b < n, bucketPrimaryPageId n ∉ chains b := by
    intro b hb hmem
    rw [hid] at hmem
    rcases h.below b hb _ hmem with hle | ⟨hge, -⟩
    · omega
    · unfold overflowPageIdBase at hge
      omega
  have hold : ∀ b < n, Function.update chains n [bucketPrimaryPageId n] b = chains b :=
    fun b hb => Function.update_of_ne (Nat.ne_of_lt hb) ..
  have hnew : Function.update chains n [bucketPrimaryPageId n] n = [bucketPrimaryPageId n] :=
    Function.update_self ..
  have hpages : ∀ b < n, ∀ y ∈ chains b,
      (t.writePage (bucketPrimaryPageId n) .empty).pages y = t.pages y := by
    intro b hb y hy
    refine writePage_of_ne t _ ?_
    rintro rfl
    exact hfresh b hb hy
  have hcases : ∀ b < n + 1, b < n ∨ b = n := fun b hb => Nat.lt_succ_iff_lt_or_eq.mp hb
  refine ⟨⟨hn, fun b hb => ?_, fun b hb => ?_, ?_, ?_, h.base, ?_, ?_⟩, hpages⟩
  · rcases hcases b hb with hb | rfl
    · rw [hold b hb]
      exact (h.linked b hb).update_of_notMem (hfresh b hb) _
    · rw [hnew]
      refine .cons ?_ (writePage_self ..) .nil
      rw [hid]
      exact Nat.succ_ne_zero b
  · rcases hcases b hb with hb | rfl
    · rw [hold b hb]
      exact h.nodup b hb
    · rw [hnew]
      exact List.nodup_singleton _
  · intro b hb b' hb' x hx hx'
    rcases hcases b hb with hb | rfl <;> rcases hcases b' hb' with hb' | rfl
    · rw [hold b hb] at hx
      rw [hold b' hb'] at hx'
      exact h.disjoint b hb b' hb' x hx hx'
    · rw [hold b hb] at hx
      rw [hnew, List.mem_singleton] at hx'
      exact absurd (hx' ▸ hx) (hfresh b hb)
    · rw [hold b' hb'] at hx'
      rw [hnew, List.mem_singleton] at hx
      exact absurd (hx ▸ hx') (hfresh b' hb')
    · rfl
  · intro b hb x hx
    rcases hcases b hb with hb | rfl
    · rw [hold b hb] at hx
      rcases h.below b hb x hx with hle | hover
      · exact .inl (Nat.le_succ_of_le hle)
      · exact .inr hover
    · rw [hnew, List.mem_singleton] at hx
      exact .inl (by rw [hx, hid])
  · intro x hge hlt
    obtain ⟨b, hb, hx⟩ := h.filled x hge hlt
    exact ⟨b, Nat.lt_succ_of_lt hb, by rwa [hold b hb]⟩
  · intro b hb slot hslot
    rcases hcases b hb with hb | rfl
    · rw [hold b hb, slotsOf_congr (hpages b hb)] at hslot
      exact h.fits b hb slot hslot
    · rw [hnew, slotsOf_cons _ (writePage_self ..)] at hslot
      exact absurd hslot List.not_mem_nil

/-! ## Copies -/

/-- `t'` is `t` with the slots `moved` copied to bucket `n`. -/
structure Copied (t t' : DiskHashTable) (n : Nat) (moved : List Slot)
    (chains chains' : Nat → List Nat) : Prop where
  layout : Layout t' (n + 1) t'.header.nextOverflowPage chains'
  here : (t'.slotsOf (chains' n)).Perm (moved ++ t.slotsOf (chains n))
  other : ∀ b < n, chains' b = chains b ∧ ∀ y ∈ chains b, t'.pages y = t.pages y
  header : t'.header = { t.header with nextOverflowPage := t'.header.nextOverflowPage }
  persisted : t'.persisted = t.persisted
  entryCount : t'.entryCount = t.entryCount
  suppressed : t'.suppressAutoRehash = t.suppressAutoRehash

theorem Copied.refl (h : Layout t (n + 1) t.header.nextOverflowPage chains) :
    Copied t t n [] chains chains :=
  ⟨h, .refl _, fun _ _ => ⟨rfl, fun _ _ => rfl⟩, rfl, rfl, rfl, rfl⟩

theorem Copied.trans {moved moved' : List Slot} (h : Copied t t' n moved chains chains')
    (h' : Copied t' t'' n moved' chains' chains'') :
    Copied t t'' n (moved ++ moved') chains chains'' where
  layout := h'.layout
  here := by
    have hperm := h'.here.trans (h.here.append_left moved')
    rw [← List.append_assoc] at hperm
    exact hperm.trans (List.perm_append_comm.append_right _)
  other b hb := by
    obtain ⟨hchain, hpages⟩ := h.other b hb
    obtain ⟨hchain', hpages'⟩ := h'.other b hb
    rw [hchain] at hchain' hpages'
    exact ⟨hchain', fun y hy => (hpages' y hy).trans (hpages y hy)⟩
  header := by rw [h'.header, h.header]
  persisted := h'.persisted.trans h.persisted
  entryCount := h'.entryCount.trans h.entryCount
  suppressed := h'.suppressed.trans h.suppressed

theorem Inserted.copied {slot : Slot} (h : Inserted t t' (n + 1) n slot chains chains') :
    Copied t t' n [slot] chains chains' :=
  ⟨h.layout, h.here, fun b hb => h.other b (Nat.lt_succ_of_lt hb) (Nat.ne_of_lt hb), h.header,
    h.persisted, h.entryCount, h.suppressed⟩

/-- The slots of a page are copied one by one. -/
theorem copySlots_spec (h : Layout t (n + 1) t.header.nextOverflowPage chains)
    {moves : Slot → Bool} {slots : List Slot} (hfits : ∀ slot ∈ slots, slot.Fits)
    (hused : ∀ slot, moves slot = true → slot.used = true) :
    ∃ t' chains' N, Copied t t' n (slots.filter moves) chains chains' ∧
      ∀ fuel, N ≤ fuel → t.copySlots fuel n moves slots = some t' := by
  induction slots generalizing t chains with
  | nil => exact ⟨t, chains, 0, .refl h, fun _ _ => rfl⟩
  | cons slot slots ih =>
    have hrest : ∀ slot' ∈ slots, slot'.Fits :=
      fun slot' hslot' => hfits slot' (List.mem_cons_of_mem _ hslot')
    by_cases hmoves : moves slot = true
    · have hself : (⟨true, slot.keyHash, slot.entry⟩ : Slot) = slot := by
        rw [← hused slot hmoves]
      obtain ⟨t₁, chains₁, hins, hrun⟩ := h.insert (Nat.lt_succ_self n) slot.keyHash
        (hfits slot List.mem_cons_self)
      rw [hself] at hins
      obtain ⟨t₂, chains₂, N, hcopied, hloop⟩ := ih hins.layout hrest
      refine ⟨t₂, chains₂, max N ((chains n).length + 1), ?_, fun fuel hfuel => ?_⟩
      · rw [List.filter_cons_of_pos hmoves]
        exact hins.copied.trans hcopied
      · rw [copySlots, if_pos hmoves, hrun fuel (by omega)]
        exact hloop fuel (by omega)
    · obtain ⟨t₁, chains₁, N, hcopied, hloop⟩ := ih h hrest
      refine ⟨t₁, chains₁, N, ?_, fun fuel hfuel => ?_⟩
      · rwa [List.filter_cons_of_neg hmoves]
      · rw [copySlots, if_neg hmoves]
        exact hloop fuel hfuel

/-- The pages of the split bucket are copied one by one; they do not change meanwhile. -/
theorem copyChain_spec (h : Layout t (n + 1) t.header.nextOverflowPage chains)
    {moves : Slot → Bool} (hused : ∀ slot, moves slot = true → slot.used = true) {b : Nat}
    (hb : b < n) {pageId : Nat} {ids : List Nat} (hids : ∀ x ∈ ids, x ∈ chains b)
    (hlinked : Linked Page.overflow t.pages pageId ids) :
    ∃ t' chains' N, Copied t t' n ((t.slotsOf ids).filter moves) chains chains' ∧
      ∀ fuel steps, N ≤ fuel → ids.length < steps →
        t.copyChain fuel n moves steps pageId = some t' := by
  induction ids generalizing t chains pageId with
  | nil =>
    cases hlinked
    refine ⟨t, chains, 0, .refl h, fun fuel steps _ hsteps => ?_⟩
    obtain ⟨steps, rfl⟩ := Nat.exists_eq_succ_of_ne_zero (Nat.ne_zero_of_lt hsteps)
    rfl
  | cons id ids ih =>
    cases hlinked with
    | @cons _ page _ hid hpage hrest =>
      have hfits : ∀ slot ∈ page.slots, slot.Fits := by
        intro slot hslot
        refine h.fits b (Nat.lt_succ_of_lt hb) slot ?_
        refine List.mem_flatMap.mpr ⟨id, hids id List.mem_cons_self, ?_⟩
        rw [hpage]
        exact hslot
      obtain ⟨t₁, chains₁, N₁, hcopied₁, hslots⟩ := copySlots_spec h hfits hused
      obtain ⟨hchain, hpages⟩ := hcopied₁.other b hb
      have hrestIds : ∀ x ∈ ids, x ∈ chains b := fun x hx => hids x (List.mem_cons_of_mem _ hx)
      have hsame : ∀ x ∈ ids, t₁.pages x = t.pages x := fun x hx => hpages x (hrestIds x hx)
      obtain ⟨t₂, chains₂, N₂, hcopied₂, hloop⟩ := ih hcopied₁.layout
        (fun x hx => by rw [hchain]; exact hrestIds x hx)
        (hrest.congr fun x hx => by rw [hsame x hx])
      rw [slotsOf_congr hsame] at hcopied₂
      refine ⟨t₂, chains₂, max N₁ N₂, ?_, fun fuel steps hfuel hsteps => ?_⟩
      · rw [slotsOf_cons _ hpage, List.filter_append]
        exact hcopied₁.trans hcopied₂
      · obtain ⟨steps, rfl⟩ := Nat.exists_eq_succ_of_ne_zero (Nat.ne_zero_of_lt hsteps)
        rw [copyChain, if_neg hid, hpage, Option.bind_eq_bind, Option.bind_some,
          hslots fuel (by omega)]
        exact hloop fuel steps (by omega) (Nat.lt_of_succ_lt_succ hsteps)

/-! ## One split -/

theorem publishSplit_header (hlevel : t.header.level = s.level)
    (hsplit : t.header.splitBucket = s.split) (hcount : t.header.bucketCount = s.count) :
    t.publishSplit.header.level = s.advance.level ∧
      t.publishSplit.header.splitBucket = s.advance.split ∧
      t.publishSplit.header.bucketCount = s.advance.count ∧
      t.publishSplit.header.nextOverflowPage = t.header.nextOverflowPage := by
  have hlt := s.split_lt
  have hadvance := s.count_advance
  unfold publishSplit
  rw [hlevel, hsplit, hadvance, ← hcount]
  unfold LinearHash.advance
  by_cases hlast : s.split + 1 = 2 ^ s.level
  · rw [if_pos hlast, dif_neg (by omega)]
    exact ⟨rfl, rfl, rfl, rfl⟩
  · rw [if_neg hlast, dif_pos (by omega)]
    exact ⟨hlevel, rfl, rfl, rfl⟩

theorem owns_iff (hlevel : t.header.level = s.level) (hsplit : t.header.splitBucket = s.split)
    (b : Nat) (slot : Slot) :
    t.owns b slot = true ↔ slot.used = true ∧ s.address slot.keyHash.toNat = b := by
  unfold owns Header.bucketIdForHash LinearHash.address
  rw [Bool.and_eq_true, beq_iff_eq, hlevel, hsplit, Nat.pow_succ]

/-- The slots that a split copies are those that the new state addresses to the new bucket. -/
theorem Stores.leaves_iff (h : Stores t s chains m) (slot : Slot) :
    t.leaves slot = true ↔ slot.used = true ∧ s.address slot.keyHash.toNat = s.split ∧
      slot.keyHash.toNat % 2 ^ (s.level + 1) ≠ s.split := by
  unfold leaves
  rw [Bool.and_eq_true, owns_iff h.level h.split, h.split, h.level, bne_iff_ne, ← Nat.pow_succ,
    and_assoc]

/-- The slots of the split bucket are those that stay and those that leave. -/
theorem Stores.filter_split (h : Stores t s chains m) {ids : List Nat}
    (hlevel : t''.header.level = s.advance.level)
    (hsplit : t''.header.splitBucket = s.advance.split) :
    ((t.slotsOf ids).filter (t.owns s.split) : Multiset Slot) =
      ((t.slotsOf ids).filter t.leaves : List Slot) +
        ((t.slotsOf ids).filter (t''.owns s.split) : List Slot) := by
  rw [Multiset.coe_add]
  refine Multiset.coe_eq_coe.mpr ?_
  induction t.slotsOf ids with
  | nil => exact .refl _
  | cons slot slots ih =>
    have howns := owns_iff h.level h.split s.split slot
    have hleaves := h.leaves_iff slot
    have howns' := owns_iff hlevel hsplit s.split slot
    rw [LinearHash.address_advance] at howns'
    by_cases hmine : t.owns s.split slot = true
    · obtain ⟨hused, haddress⟩ := howns.mp hmine
      rw [if_pos haddress] at howns'
      by_cases hstay : slot.keyHash.toNat % 2 ^ (s.level + 1) = s.split
      · rw [List.filter_cons_of_pos hmine, List.filter_cons_of_pos (howns'.mpr ⟨hused, hstay⟩),
          List.filter_cons_of_neg (fun hl => (hleaves.mp hl).2.2 hstay)]
        exact (ih.cons slot).trans List.perm_middle.symm
      · rw [List.filter_cons_of_pos hmine,
          List.filter_cons_of_pos (hleaves.mpr ⟨hused, haddress, hstay⟩),
          List.filter_cons_of_neg (fun ho => hstay (howns'.mp ho).2)]
        exact ih.cons slot
    · rw [List.filter_cons_of_neg hmine, List.filter_cons_of_neg (fun hl => hmine
        (howns.mpr ⟨(hleaves.mp hl).1, (hleaves.mp hl).2.1⟩)), List.filter_cons_of_neg]
      · exact ih
      · intro ho
        obtain ⟨hused, haddress⟩ := howns'.mp ho
        split at haddress
        · next hsplit => exact hmine (howns.mpr ⟨hused, hsplit⟩)
        · next hsplit => exact hsplit haddress

theorem Stores.slots_split (h : Stores t s chains m)
    (hlevel : t'.header.level = s.advance.level) (hsplit : t'.header.splitBucket = s.advance.split)
    (hold : ∀ b < s.count, t'.slotsOf (chains' b) = t.slotsOf (chains b))
    (hnew : (t'.slotsOf (chains' s.count)).Perm ((t.slotsOf (chains s.split)).filter t.leaves)) :
    t'.ownSlots (s.count + 1) chains' = m := by
  have haddress := s.address_advance
  -- the copies are all in the bucket they belong to
  have hcopies : t'.bucketSlots (chains' s.count) s.count =
      ((t.slotsOf (chains s.split)).filter t.leaves : List Slot) := by
    have hall : ((t.slotsOf (chains s.split)).filter t.leaves).filter (t'.owns s.count) =
        (t.slotsOf (chains s.split)).filter t.leaves := by
      refine List.filter_eq_self.mpr fun slot hslot => ?_
      obtain ⟨hused, hmine, hmoved⟩ := (h.leaves_iff slot).mp (List.mem_filter.mp hslot).2
      refine (owns_iff hlevel hsplit s.count slot).mpr ⟨hused, ?_⟩
      rw [haddress, if_pos hmine]
      exact s.mod_eq_count _ hmine hmoved
    unfold bucketSlots
    rw [Multiset.coe_eq_coe.mpr (hnew.filter _), hall]
  rw [← h.slots, DiskHashTable.ownSlots, Finset.sum_range_succ, hcopies, add_comm]
  refine (sum_range_change s.split_lt_count ?_ fun b hb hne => ?_).symm
  · unfold bucketSlots
    rw [hold _ s.split_lt_count]
    exact h.filter_split hlevel hsplit
  · unfold bucketSlots
    rw [hold b hb]
    refine congrArg _ (List.filter_congr fun slot _ => ?_)
    rw [Bool.eq_iff_iff, owns_iff h.level h.split, owns_iff hlevel hsplit, haddress]
    split
    · next hmine =>
      -- neither of the two buckets in question
      refine iff_of_false (fun hb => hne (hb.2.symm.trans hmine)) fun hb' => ?_
      by_cases hstay : slot.keyHash.toNat % 2 ^ (s.level + 1) = s.split
      · exact hne (hb'.2.symm.trans hstay)
      · have hcount := s.mod_eq_count _ hmine hstay
        omega
    · exact Iff.rfl

/-- **One split** changes no slot. -/
theorem Stores.splitOneBucket (h : Stores t s chains m) (hmax : s.count ≠ 2 ^ 32 - 1)
    (durableCommit : Bool) :
    ∃ t' chains' N, Stores t' s.advance chains' m ∧ t'.entryCount = t.entryCount ∧
      t'.suppressAutoRehash = t.suppressAutoRehash ∧
      t'.persisted = (if durableCommit then t'.header else t.persisted) ∧
      ∀ fuel, N ≤ fuel → t.splitOneBucket fuel durableCommit = some t' := by
  have hfew := h.layout.few
  have hsplit := s.split_lt_count
  obtain ⟨hlayout, hpages⟩ := h.layout.addBucket (by omega)
  generalize hadded : t.writePage (bucketPrimaryPageId s.count) .empty = t₀ at hlayout hpages
  have hheader₀ : t₀.header = t.header := by rw [← hadded]; rfl
  rw [← hheader₀] at hlayout
  have hold : ∀ b < s.count, Function.update chains s.count [bucketPrimaryPageId s.count] b =
      chains b := fun b hb => Function.update_of_ne (Nat.ne_of_lt hb) ..
  obtain ⟨t₁, chains₁, N, hcopied, hrun⟩ := copyChain_spec hlayout
    (fun slot hl => ((h.leaves_iff slot).mp hl).1) hsplit
    (fun x hx => by rw [hold _ hsplit]; exact hx)
    ((h.layout.linked _ hsplit).congr fun x hx => by rw [hpages _ hsplit x hx])
  rw [slotsOf_congr (hpages _ hsplit)] at hcopied
  have hheader₁ : t₁.header =
      { t.header with nextOverflowPage := t₁.header.nextOverflowPage } := by
    rw [hcopied.header, hheader₀]
  obtain ⟨hlevel', hsplit', hcount', hnext'⟩ := publishSplit_header (t := t₁) (s := s)
    (by rw [hheader₁]; exact h.level) (by rw [hheader₁]; exact h.split)
    (by rw [hheader₁]; exact h.count)
  have hpublished : t₁.publishSplit.pages = t₁.pages ∧ t₁.publishSplit.persisted = t₁.persisted ∧
      t₁.publishSplit.entryCount = t₁.entryCount ∧
      t₁.publishSplit.suppressAutoRehash = t₁.suppressAutoRehash := by
    unfold publishSplit
    split <;> exact ⟨rfl, rfl, rfl, rfl⟩
  obtain ⟨hsamePages, hpersisted, hentries, hsuppressed⟩ := hpublished
  have hslots : ∀ ids, t₁.publishSplit.slotsOf ids = t₁.slotsOf ids :=
    fun ids => slotsOf_congr fun id _ => by rw [hsamePages]
  have hown : t₁.publishSplit.ownSlots (s.count + 1) chains₁ = m := by
    refine h.slots_split hlevel' hsplit' (fun b hb => ?_) ?_
    · obtain ⟨hchain, hsame⟩ := hcopied.other b hb
      rw [hold b hb] at hchain hsame
      rw [hslots, hchain]
      exact slotsOf_congr fun y hy => (hsame y hy).trans (hpages b hb y hy)
    · have hempty : t₀.slotsOf (Function.update chains s.count [bucketPrimaryPageId s.count]
          s.count) = [] := by
        rw [Function.update_self, ← hadded, slotsOf_cons _ (writePage_self ..)]
        rfl
      have hhere := hcopied.here
      rw [hempty, List.append_nil] at hhere
      rw [hslots]
      exact hhere
  have hstores : Stores t₁.publishSplit s.advance chains₁ m := by
    refine ⟨hlevel', hsplit', hcount', ?_, by rw [s.count_advance]; exact hown⟩
    rw [s.count_advance, hnext']
    have hlayout₁ := hcopied.layout
    exact { hlayout₁ with
      linked := fun b hb => by rw [hsamePages]; exact hlayout₁.linked b hb
      fits := fun b hb slot hslot => hlayout₁.fits b hb slot (by rwa [hslots] at hslot) }
  have hlength : (chains s.split).length < t.enough := h.length_lt hsplit
  have hsplitRun : ∀ fuel, max N t.enough ≤ fuel → t.splitOneBucket fuel durableCommit =
      some (if durableCommit then t₁.publishSplit.persistHeader else t₁.publishSplit) := by
    intro fuel hfuel
    have hnew : 2 ^ t.header.level + t.header.splitBucket = s.count := by
      rw [h.level, h.split]
      rfl
    have hvalid : ¬(2 ^ t.header.level ≤ t.header.splitBucket ∨
        2 ^ t.header.level + t.header.splitBucket ≠ t.header.bucketCount) := by
      rw [hnew, h.count, h.level, h.split]
      have hlt := s.split_lt
      omega
    unfold DiskHashTable.splitOneBucket
    rw [if_neg (by rw [h.count]; exact hmax)]
    dsimp only
    rw [if_neg hvalid, hnew, hadded, hheader₀, h.split, hrun fuel fuel (by omega) (by omega)]
    rfl
  cases durableCommit with
  | true =>
    refine ⟨t₁.publishSplit.persistHeader, chains₁, _, ?_, ?_, ?_, rfl, hsplitRun⟩
    · exact hstores.of_pages rfl rfl
    · rw [← hadded] at hcopied
      exact hentries.trans hcopied.entryCount
    · rw [← hadded] at hcopied
      exact hsuppressed.trans hcopied.suppressed
  | false =>
    rw [← hadded] at hcopied
    exact ⟨t₁.publishSplit, chains₁, _, hstores, hentries.trans hcopied.entryCount,
      hsuppressed.trans hcopied.suppressed, hpersisted.trans hcopied.persisted, hsplitRun⟩

end DiskHashTable

end Index
end Otterbrix
