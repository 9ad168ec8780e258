/-
  Otterbrix.Index.IndexRegistry

  The books `index_engine_t` keeps of the indexes of a table: the list that owns them, and three
  maps to them, by keys, by name and by id.  `size()` counts the entries of the map by keys, and
  compaction asks it whether a table has indexes (`tables_without_indexes`).

  `emplace` keeps the entry that is there, and `erase` takes the entry of the key away, whoever
  it belongs to.  So the books are right exactly as long as no two stored indexes share an entry
  that one of them loses; and the map by id is never cleaned.
-/
import Mathlib.Algebra.Group.Nat.Defs
import Mathlib.Data.List.AList
import Otterbrix.Lib.Lists

namespace Otterbrix
namespace Index

/-! ## The engine -/

inductive IndexType where
  | single
  | composite
  | multikey
  | hashed
  | wildcard
  | noValid
deriving DecidableEq

/-- What the books use of an index. -/
structure IndexInfo (K : Type) where
  name : String
  keys : K
  type : IndexType

/-- An index that is stored: the object, which pointers to it are compared by, and the index. -/
structure StoredIndex (K : Type) where
  object : Nat
  info : IndexInfo K

/-- `index_engine_t`. -/
structure EngineBooks (K : Type) where
  storage : List (StoredIndex K) := []
  mapper : AList fun _ : K => Nat := ∅
  indexToMapper : AList fun _ : Nat => Nat := ∅
  indexToName : AList fun _ : String => Nat := ∅

/-- `emplace`: an entry that is there stays. -/
def emplace {κ : Type} [DecidableEq κ] (m : AList fun _ : κ => Nat) (k : κ) (object : Nat) :
    AList fun _ : κ => Nat :=
  if k ∈ m then m else m.insert k object

namespace EngineBooks

variable {K : Type} [DecidableEq K]

/-- `add_index`; ids are `uint32_t`. -/
def addIndex (e : EngineBooks K) (object : Nat) (info : IndexInfo K) : EngineBooks K × Nat :=
  let newId := e.indexToMapper.keys.length % 2 ^ 32
  ({ storage := e.storage ++ [⟨object, info⟩]
     mapper := emplace e.mapper info.keys object
     indexToMapper := emplace e.indexToMapper newId object
     indexToName := emplace e.indexToName info.name object }, newId)

/-- `drop_index`; the entry by id stays. -/
def dropIndex (e : EngineBooks K) (index : StoredIndex K) : EngineBooks K where
  storage := e.storage.filter fun s => s.object != index.object
  mapper := e.mapper.erase index.info.keys
  indexToMapper := e.indexToMapper
  indexToName := e.indexToName.erase index.info.name

def size (e : EngineBooks K) : Nat := e.mapper.keys.length

/-- `matching`, by id; for an id that was never given the source reads past the end (`none`). -/
def matchingId (e : EngineBooks K) (id : Nat) : Option Nat := e.indexToMapper.lookup id

/-- `matching`, by keys. -/
def matchingKeys (e : EngineBooks K) (query : K) : Option Nat := e.mapper.lookup query

/-- `matching`, by keys and type: over the list. -/
def matchingTyped (e : EngineBooks K) (query : K) (type : IndexType) : Option Nat :=
  (e.storage.find? fun s => s.info.type = type ∧ s.info.keys = query).map (·.object)

/-- `matching`, by name. -/
def matchingName (e : EngineBooks K) (name : String) : Option Nat := e.indexToName.lookup name

end EngineBooks

/-- `tables_without_indexes`. -/
def tablesWithoutIndexes {K : Type} (engines : Nat → Option (EngineBooks K))
    (tableOids : List Nat) : List Nat :=
  tableOids.filter fun oid =>
    match engines oid with
    | none => true
    | some e => e.size == 0

/-! ## Runs -/

/-- An index that was added, the id it was given, and whether it is still there. -/
structure AddedIndex (K : Type) where
  info : IndexInfo K
  id : Nat
  alive : Bool

/-- The engine and every index ever added to it, whose places serve as the objects. -/
structure Registry (K : Type) where
  engine : EngineBooks K := {}
  added : List (AddedIndex K) := []

inductive RegistryOp (K : Type) where
  | add (info : IndexInfo K)
  | drop (object : Nat)

namespace Registry

variable {K : Type} [DecidableEq K]

/-- One call; there is no call with a pointer to an index that is not stored. -/
def step (r : Registry K) : RegistryOp K → Registry K
  | .add info =>
    let (engine, id) := r.engine.addIndex r.added.length info
    ⟨engine, r.added ++ [⟨info, id, true⟩]⟩
  | .drop object =>
    match r.engine.storage.find? fun s => s.object == object with
    | none => r
    | some index =>
      ⟨r.engine.dropIndex index, r.added.modify object fun a => { a with alive := false }⟩

/-- The state after a run that starts with no index. -/
def after (ops : List (RegistryOp K)) : Registry K := ops.foldl step {}

/-! ## What the books are to say -/

/-- Size and lookups by keys and by name agree with the indexes stored. -/
structure LookupsAgree (e : EngineBooks K) : Prop where
  size : e.size = e.storage.length
  keys : ∀ query, (e.matchingKeys query).isSome ↔ ∃ s ∈ e.storage, s.info.keys = query
  keys_stored : ∀ query object, e.matchingKeys query = some object →
    ∃ s ∈ e.storage, s.object = object ∧ s.info.keys = query
  typed : ∀ query type, (e.matchingTyped query type).isSome ↔
    ∃ s ∈ e.storage, s.info.keys = query ∧ s.info.type = type
  name : ∀ name, (e.matchingName name).isSome ↔ ∃ s ∈ e.storage, s.info.name = name
  name_stored : ∀ name object, e.matchingName name = some object →
    ∃ s ∈ e.storage, s.object = object ∧ s.info.name = name
  tables : ∀ engines oid oids, engines oid = some e → e.storage ≠ [] →
    oid ∉ tablesWithoutIndexes engines oids

/-- The lookup by id gives the index that was given the id, and nothing once it is dropped. -/
def IdsAgree (r : Registry K) : Prop :=
  ∀ (object : Nat) (a : AddedIndex K), r.added[object]? = some a →
    r.engine.matchingId a.id = if a.alive then some object else none

/-- The books are right. -/
def Bookkept (r : Registry K) : Prop := LookupsAgree r.engine ∧ r.IdsAgree

/-! ## When they are -/

/-- The call leaves size and lookups by keys and by name right: an index is added on keys no
    stored index has, and dropped only when no other has its name. -/
def KeepsLookups (r : Registry K) : RegistryOp K → Prop
  | .add info => ∀ s ∈ r.engine.storage, s.info.keys ≠ info.keys
  | .drop object => ∀ s ∈ r.engine.storage, s.object = object →
      ∀ t ∈ r.engine.storage, t.info.name = s.info.name → t.object = object

/-- The call leaves the lookup by id right: ids have not run out, and nothing is dropped. -/
def KeepsIds (r : Registry K) : RegistryOp K → Prop
  | .add _ => r.added.length < 2 ^ 32
  | .drop object => ∀ s ∈ r.engine.storage, s.object ≠ object

section Maps

variable {κ : Type} [DecidableEq κ] {m : AList fun _ : κ => Nat} {k k' : κ} {object : Nat}

theorem emplace_of_mem (h : k ∈ m) : emplace m k object = m := if_pos h

theorem emplace_of_notMem (h : k ∉ m) : emplace m k object = m.insert k object := if_neg h

theorem lookup_emplace_of_notMem (h : k ∉ m) :
    (emplace m k object).lookup k' = if k' = k then some object else m.lookup k' := by
  rw [emplace_of_notMem h]
  by_cases hk : k' = k
  · subst hk
    rw [AList.lookup_insert, if_pos rfl]
  · rw [AList.lookup_insert_ne hk, if_neg hk]

theorem length_emplace_of_notMem (h : k ∉ m) :
    (emplace m k object).keys.length = m.keys.length + 1 := by
  rw [emplace_of_notMem h, AList.keys_insert, List.length_cons,
    List.erase_of_not_mem (mt AList.mem_keys.mpr h)]

theorem lookup_erase_cases :
    (m.erase k).lookup k' = if k' = k then none else m.lookup k' := by
  by_cases hk : k' = k
  · subst hk
    rw [AList.lookup_erase, if_pos rfl]
  · rw [AList.lookup_erase_ne hk, if_neg hk]

theorem length_erase_of_mem (h : k ∈ m) : (m.erase k).keys.length + 1 = m.keys.length := by
  have hmem : k ∈ m.keys := AList.mem_keys.mp h
  have hpos := List.length_pos_of_mem hmem
  rw [AList.keys_erase, List.length_erase_of_mem hmem]
  omega

end Maps

/-! ## The list and its objects -/

/-- What holds after any run: every stored index is an object of its own that was added and not
    dropped. -/
structure Owned (r : Registry K) : Prop where
  objects : (r.engine.storage.map (·.object)).Nodup
  lt : ∀ s ∈ r.engine.storage, s.object < r.added.length
  alive : ∀ (n : Nat) (a : AddedIndex K), r.added[n]? = some a →
    (a.alive = true ↔ ∃ s ∈ r.engine.storage, s.object = n)

/-- What holds after any run: the map by id holds every id ever given. -/
structure IdsGiven (r : Registry K) : Prop where
  ids : ∀ (n : Nat) (a : AddedIndex K), r.added[n]? = some a → a.id = if n < 2 ^ 32 then n else 0
  count : r.engine.indexToMapper.keys.length = min r.added.length (2 ^ 32)
  lookup : ∀ n, r.engine.indexToMapper.lookup n =
    if n < min r.added.length (2 ^ 32) then some n else none

section Steps

variable {r : Registry K}

theorem Owned.add (h : Owned r) (info : IndexInfo K) : Owned (r.step (.add info)) where
  objects := by
    show ((r.engine.storage ++ [(⟨r.added.length, info⟩ : StoredIndex K)]).map (·.object)).Nodup
    rw [List.map_append, List.nodup_append]
    refine ⟨h.objects, List.nodup_singleton _, ?_⟩
    intro a ha b hb
    obtain ⟨s, hs, rfl⟩ := List.mem_map.mp ha
    obtain rfl := List.mem_singleton.mp hb
    exact Nat.ne_of_lt (h.lt s hs)
  lt s hs := by
    show s.object < (r.added ++ [_]).length
    rw [List.length_append, List.length_singleton]
    rcases List.mem_append.mp hs with hs | hs
    · exact Nat.lt_succ_of_lt (h.lt s hs)
    · obtain rfl := List.mem_singleton.mp hs
      exact Nat.lt_succ_self _
  alive n a ha := by
    show a.alive = true ↔ ∃ s ∈ r.engine.storage ++ [⟨r.added.length, info⟩], s.object = n
    rcases List.getElem?_concat_cases ha with ha | ⟨rfl, rfl⟩
    · obtain ⟨hn, -⟩ := List.getElem?_eq_some_iff.mp ha
      rw [h.alive n a ha]
      constructor
      · rintro ⟨s, hs, hsn⟩
        exact ⟨s, List.mem_append_left _ hs, hsn⟩
      · rintro ⟨s, hs, hsn⟩
        rcases List.mem_append.mp hs with hs | hs
        · exact ⟨s, hs, hsn⟩
        · obtain rfl := List.mem_singleton.mp hs
          exact absurd hsn (Nat.ne_of_gt hn)
    · exact ⟨fun _ => ⟨_, List.mem_append_right _ (List.mem_singleton_self _), rfl⟩, fun _ => rfl⟩

theorem IdsGiven.add (h : IdsGiven r) (info : IndexInfo K) : IdsGiven (r.step (.add info)) := by
  have hid : r.engine.indexToMapper.keys.length % 2 ^ 32 =
      if r.added.length < 2 ^ 32 then r.added.length else 0 := by
    rw [h.count]
    split
    next hlt => rw [Nat.min_eq_left (Nat.le_of_lt hlt), Nat.mod_eq_of_lt hlt]
    next hge => rw [Nat.min_eq_right (Nat.le_of_not_lt hge), Nat.mod_self]
  have hids : ∀ (n : Nat) (a : AddedIndex K), (r.step (.add info)).added[n]? = some a →
      a.id = if n < 2 ^ 32 then n else 0 := by
    intro n a ha
    rcases List.getElem?_concat_cases ha with ha | ⟨rfl, rfl⟩
    · exact h.ids n a ha
    · exact hid
  have hlen : (r.step (.add info)).added.length = r.added.length + 1 := List.length_append ..
  have hmap : (r.step (.add info)).engine.indexToMapper = emplace r.engine.indexToMapper
      (if r.added.length < 2 ^ 32 then r.added.length else 0) r.added.length := by
    rw [← hid]
    rfl
  have hmem : ∀ n, n ∈ r.engine.indexToMapper ↔ n < min r.added.length (2 ^ 32) := by
    intro n
    rw [← AList.lookup_isSome, h.lookup]
    split
    next hn => exact iff_of_true rfl hn
    next hn => exact iff_of_false Bool.false_ne_true hn
  by_cases hlt : r.added.length < 2 ^ 32
  · -- a new id
    have hnew : r.added.length ∉ r.engine.indexToMapper := fun hbad => by
      have := (hmem _).mp hbad
      omega
    rw [if_pos hlt] at hmap
    refine ⟨hids, ?_, fun n => ?_⟩
    · rw [hmap, length_emplace_of_notMem hnew, h.count, hlen]
      omega
    · rw [hmap, lookup_emplace_of_notMem hnew, h.lookup, hlen]
      by_cases hn : n = r.added.length
      · rw [if_pos hn, if_pos (by omega), hn]
      · rw [if_neg hn]
        refine if_congr ?_ rfl rfl
        omega
  · -- ids have run out: 0 is given again, and its entry stays
    have hold : 0 ∈ r.engine.indexToMapper := (hmem 0).mpr (by omega)
    rw [if_neg hlt, emplace_of_mem hold] at hmap
    refine ⟨hids, ?_, fun n => ?_⟩
    · rw [hmap, h.count, hlen]
      omega
    · rw [hmap, h.lookup, hlen]
      refine if_congr ?_ rfl rfl
      omega

theorem Owned.drop (h : Owned r) {index : StoredIndex K} :
    Owned (⟨r.engine.dropIndex index,
      r.added.modify index.object fun a => { a with alive := false }⟩ : Registry K) where
  objects := h.objects.sublist (List.filter_sublist.map _)
  lt s hs := by
    show s.object < (r.added.modify _ _).length
    rw [List.length_modify]
    exact h.lt s (List.mem_filter.mp hs).1
  alive n a ha := by
    show a.alive = true ↔ ∃ s ∈ r.engine.storage.filter (fun s => s.object != index.object),
      s.object = n
    simp only [List.mem_filter, bne_iff_ne, ne_eq]
    change (r.added.modify _ _)[n]? = some a at ha
    rw [List.getElem?_modify] at ha
    obtain ⟨b, hb, hab⟩ := Option.map_eq_some_iff.mp ha
    by_cases hn : index.object = n
    · rw [if_pos hn] at hab
      subst hab
      refine ⟨fun hbad => (nomatch hbad), ?_⟩
      rintro ⟨s, ⟨-, hne⟩, hs⟩
      exact absurd (hs.trans hn.symm) hne
    · rw [if_neg hn] at hab
      subst hab
      show b.alive = true ↔ _
      rw [h.alive n b hb]
      constructor
      · rintro ⟨s, hs, hsn⟩
        exact ⟨s, ⟨hs, fun heq => hn (heq ▸ hsn)⟩, hsn⟩
      · rintro ⟨s, ⟨hs, -⟩, hsn⟩
        exact ⟨s, hs, hsn⟩

theorem IdsGiven.drop (h : IdsGiven r) {index : StoredIndex K} :
    IdsGiven (⟨r.engine.dropIndex index,
      r.added.modify index.object fun a => { a with alive := false }⟩ : Registry K) where
  ids n a ha := by
    change (r.added.modify _ _)[n]? = some a at ha
    rw [List.getElem?_modify] at ha
    obtain ⟨b, hb, hab⟩ := Option.map_eq_some_iff.mp ha
    rw [← h.ids n b hb, ← hab]
    split <;> rfl
  count := by
    show _ = min (r.added.modify _ _).length (2 ^ 32)
    rw [List.length_modify]
    exact h.count
  lookup n := by
    show _ = if n < min (r.added.modify _ _).length (2 ^ 32) then some n else none
    rw [List.length_modify]
    exact h.lookup n

/-- What a drop does: nothing, or it takes one stored index away. -/
theorem step_drop (r : Registry K) (object : Nat) :
    ((∀ s ∈ r.engine.storage, s.object ≠ object) ∧ r.step (.drop object) = r) ∨
      ∃ index ∈ r.engine.storage, index.object = object ∧
        r.step (.drop object) = ⟨r.engine.dropIndex index,
          r.added.modify index.object fun a => { a with alive := false }⟩ := by
  rw [step]
  cases hfind : r.engine.storage.find? fun s => s.object == object with
  | none =>
    refine .inl ⟨fun s hs => ?_, rfl⟩
    simpa using List.find?_eq_none.mp hfind s hs
  | some index =>
    have hobject : index.object = object := by simpa using List.find?_some hfind
    refine .inr ⟨index, List.mem_of_find?_eq_some hfind, hobject, ?_⟩
    rw [hobject]

theorem owned_after (ops : List (RegistryOp K)) : Owned (after ops) ∧ IdsGiven (after ops) := by
  have hstep : ∀ (r : Registry K) (op : RegistryOp K), Owned r ∧ IdsGiven r →
      Owned (r.step op) ∧ IdsGiven (r.step op) := by
    rintro r (info | object) ⟨howned, hids⟩
    · exact ⟨howned.add info, hids.add info⟩
    · rcases step_drop r object with ⟨-, heq⟩ | ⟨index, -, -, heq⟩
      · rw [heq]
        exact ⟨howned, hids⟩
      · rw [heq]
        exact ⟨howned.drop, hids.drop⟩
  have hinitial : Owned ({} : Registry K) ∧ IdsGiven ({} : Registry K) :=
    ⟨⟨List.nodup_nil, nofun, nofun⟩, ⟨nofun, rfl, fun _ => rfl⟩⟩
  exact List.foldlRecOn ops step hinitial fun r hr op _ => hstep r op hr

/-! ## Size and lookups by keys and by name -/

theorem matchingTyped_isSome (e : EngineBooks K) (query : K) (type : IndexType) :
    (e.matchingTyped query type).isSome ↔
      ∃ s ∈ e.storage, s.info.keys = query ∧ s.info.type = type := by
  rw [EngineBooks.matchingTyped, Option.isSome_map, List.find?_isSome]
  simp only [decide_eq_true_iff]
  exact exists_congr fun s => and_congr_right fun _ => and_comm

omit [DecidableEq K] in
/-- A size that counts the stored indexes keeps an indexed table from compaction. -/
theorem notMem_tablesWithoutIndexes {e : EngineBooks K} (hsize : e.size = e.storage.length)
    {engines : Nat → Option (EngineBooks K)} {oid : Nat} (oids : List Nat)
    (hengine : engines oid = some e) (hne : e.storage ≠ []) :
    oid ∉ tablesWithoutIndexes engines oids := by
  intro hmem
  have hzero := (List.mem_filter.mp hmem).2
  rw [hengine] at hzero
  have hlen : e.storage.length = 0 := hsize ▸ eq_of_beq hzero
  exact hne (List.length_eq_zero_iff.mp hlen)

/-- A map to the stored indexes, by a field of theirs: it has the values they have, and leads to
    one that has the value. -/
structure MapAgrees {κ : Type} [DecidableEq κ] (m : AList fun _ : κ => Nat)
    (field : StoredIndex K → κ) (storage : List (StoredIndex K)) : Prop where
  found : ∀ k, (m.lookup k).isSome ↔ ∃ s ∈ storage, field s = k
  stored : ∀ k object, m.lookup k = some object →
    ∃ s ∈ storage, s.object = object ∧ field s = k

namespace MapAgrees

variable {κ : Type} [DecidableEq κ] {m : AList fun _ : κ => Nat} {field : StoredIndex K → κ}
  {storage : List (StoredIndex K)} {index : StoredIndex K}

omit [DecidableEq K]

/-- One more stored index: its value is entered, or is there already. -/
theorem emplace (h : MapAgrees m field storage) (index : StoredIndex K) :
    MapAgrees (emplace m (field index) index.object) field (storage ++ [index]) := by
  have hlast : index ∈ storage ++ [index] := List.mem_append_right _ (List.mem_singleton_self _)
  by_cases hmem : field index ∈ m
  · rw [emplace_of_mem hmem]
    refine ⟨fun k => ⟨fun hk => ?_, ?_⟩, fun k object hk => ?_⟩
    · obtain ⟨s, hs, hsk⟩ := (h.found k).mp hk
      exact ⟨s, List.mem_append_left _ hs, hsk⟩
    · rintro ⟨s, hs, rfl⟩
      rcases List.mem_append.mp hs with hs | hs
      · exact (h.found _).mpr ⟨s, hs, rfl⟩
      · obtain rfl := List.mem_singleton.mp hs
        exact AList.lookup_isSome.mpr hmem
    · obtain ⟨s, hs, hso⟩ := h.stored k object hk
      exact ⟨s, List.mem_append_left _ hs, hso⟩
  · refine ⟨fun k => ?_, fun k object hk => ?_⟩
    · rw [lookup_emplace_of_notMem hmem]
      by_cases hk : k = field index
      · rw [if_pos hk]
        exact ⟨fun _ => ⟨index, hlast, hk.symm⟩, fun _ => rfl⟩
      · rw [if_neg hk, h.found]
        simp only [List.mem_append, List.mem_singleton, or_and_right, exists_or, exists_eq_left]
        exact ⟨.inl, fun hor => hor.resolve_right (Ne.symm hk)⟩
    · rw [lookup_emplace_of_notMem hmem] at hk
      by_cases hki : k = field index
      · rw [if_pos hki] at hk
        exact ⟨index, hlast, Option.some.inj hk, hki.symm⟩
      · rw [if_neg hki] at hk
        obtain ⟨s, hs, hso⟩ := h.stored k object hk
        exact ⟨s, List.mem_append_left _ hs, hso⟩

/-- **One less.**  The entry of a dropped index can go exactly if no other one needs it. -/
theorem erase_iff (h : MapAgrees m field storage)
    (hsame : ∀ t ∈ storage, t.object = index.object → t = index) :
    MapAgrees (m.erase (field index)) field
        (storage.filter fun s => s.object != index.object) ↔
      ∀ t ∈ storage, field t = field index → t.object = index.object := by
  constructor
  · intro hafter t ht hfield
    by_contra hne
    have hfound := (hafter.found (field index)).mpr
      ⟨t, List.mem_filter.mpr ⟨ht, by simpa using hne⟩, hfield⟩
    rw [AList.lookup_erase] at hfound
    exact nomatch hfound
  · intro halone
    have hkept : ∀ t ∈ storage, field t ≠ field index →
        t ∈ storage.filter fun s => s.object != index.object := by
      intro t ht hne
      refine List.mem_filter.mpr ⟨ht, ?_⟩
      simpa using fun heq => hne (congrArg field (hsame t ht heq))
    refine ⟨fun k => ?_, fun k object hk => ?_⟩
    · rw [lookup_erase_cases]
      by_cases hk : k = field index
      · rw [if_pos hk]
        refine ⟨fun hbad => (nomatch hbad), ?_⟩
        rintro ⟨s, hs, hsk⟩
        obtain ⟨hs, hne⟩ := List.mem_filter.mp hs
        exact absurd (halone s hs (hsk.trans hk)) (by simpa using hne)
      · rw [if_neg hk, h.found]
        constructor
        · rintro ⟨s, hs, rfl⟩
          exact ⟨s, hkept s hs hk, rfl⟩
        · rintro ⟨s, hs, hsk⟩
          exact ⟨s, (List.mem_filter.mp hs).1, hsk⟩
    · rw [lookup_erase_cases] at hk
      by_cases hki : k = field index
      · rw [if_pos hki] at hk
        exact nomatch hk
      · rw [if_neg hki] at hk
        obtain ⟨s, hs, hso, rfl⟩ := h.stored k object hk
        exact ⟨s, hkept s hs hki, hso, rfl⟩

end MapAgrees

theorem lookupsAgree_iff {e : EngineBooks K} : LookupsAgree e ↔
    e.size = e.storage.length ∧ MapAgrees e.mapper (·.info.keys) e.storage ∧
      MapAgrees e.indexToName (·.info.name) e.storage := by
  constructor
  · intro h
    exact ⟨h.size, ⟨h.keys, h.keys_stored⟩, ⟨h.name, h.name_stored⟩⟩
  · rintro ⟨hsize, hkeys, hname⟩
    exact ⟨hsize, hkeys.found, hkeys.stored, matchingTyped_isSome e, hname.found, hname.stored,
      fun _ _ oids => notMem_tablesWithoutIndexes hsize oids⟩

/-- No two stored indexes have the same keys. -/
theorem LookupsAgree.nodup_keys {e : EngineBooks K} (h : LookupsAgree e) :
    (e.storage.map (·.info.keys)).Nodup := by
  have hnodup : e.mapper.keys.Nodup := e.mapper.nodupKeys
  have hsub : e.mapper.keys ⊆ e.storage.map (·.info.keys) := by
    intro query hquery
    obtain ⟨s, hs, rfl⟩ := (h.keys query).mp (AList.lookup_isSome.mpr (AList.mem_keys.mpr hquery))
    exact List.mem_map_of_mem hs
  have hlen : (e.storage.map (·.info.keys)).length ≤ e.mapper.keys.length := by
    rw [List.length_map, ← h.size]
    exact Nat.le_refl _
  exact ((List.subperm_of_subset hnodup hsub).perm_of_length_le hlen).nodup_iff.mp hnodup

theorem lookups_add_iff (h : LookupsAgree r.engine) (info : IndexInfo K) :
    LookupsAgree (r.step (.add info)).engine ↔ r.KeepsLookups (.add info) := by
  have hstorage : (r.step (.add info)).engine.storage =
      r.engine.storage ++ [⟨r.added.length, info⟩] := rfl
  constructor
  · -- an entry that is there stays, and the size falls behind
    intro hafter s hs heq
    have hmem : info.keys ∈ r.engine.mapper :=
      AList.lookup_isSome.mp ((h.keys info.keys).mpr ⟨s, hs, heq⟩)
    have hmap : (r.step (.add info)).engine.mapper = r.engine.mapper := emplace_of_mem hmem
    have hsize := hafter.size
    rw [EngineBooks.size, hmap, hstorage, List.length_append, List.length_singleton,
      ← h.size, EngineBooks.size] at hsize
    omega
  · intro hfresh
    obtain ⟨hsize, hkeys, hname⟩ := lookupsAgree_iff.mp h
    have hnew : info.keys ∉ r.engine.mapper := by
      intro hbad
      obtain ⟨s, hs, heq⟩ := (h.keys info.keys).mp (AList.lookup_isSome.mpr hbad)
      exact hfresh s hs heq
    refine lookupsAgree_iff.mpr ⟨?_, hkeys.emplace ⟨_, info⟩, hname.emplace ⟨_, info⟩⟩
    rw [hstorage, List.length_append, List.length_singleton, ← hsize]
    exact length_emplace_of_notMem hnew

omit [DecidableEq K] in
theorem Owned.same (h : Owned r) {s t : StoredIndex K} (hs : s ∈ r.engine.storage)
    (ht : t ∈ r.engine.storage) (heq : t.object = s.object) : t = s :=
  List.inj_on_of_nodup_map h.objects ht hs heq

omit [DecidableEq K] in
/-- A stored index is stored once. -/
theorem Owned.length_filter (h : Owned r) {index : StoredIndex K}
    (hindex : index ∈ r.engine.storage) :
    (r.engine.storage.filter fun s => s.object != index.object).length + 1 =
      r.engine.storage.length := by
  have hmem : index.object ∈ r.engine.storage.map (·.object) := List.mem_map_of_mem hindex
  have hmap : (r.engine.storage.filter fun s => s.object != index.object).map (·.object) =
      (r.engine.storage.map (·.object)).erase index.object := by
    rw [h.objects.erase_eq_filter, List.filter_map]
    rfl
  have hlen := congrArg List.length hmap
  rw [List.length_map, List.length_erase_of_mem hmem, List.length_map] at hlen
  have hpos := List.length_pos_of_mem hindex
  omega

theorem lookups_drop_iff (h : LookupsAgree r.engine) (howned : Owned r) (object : Nat) :
    LookupsAgree (r.step (.drop object)).engine ↔ r.KeepsLookups (.drop object) := by
  obtain ⟨hsize, hkeys, hname⟩ := lookupsAgree_iff.mp h
  rcases step_drop r object with ⟨hnone, heq⟩ | ⟨index, hindex, rfl, heq⟩
  · rw [heq]
    exact ⟨fun _ s hs hso => absurd hso (hnone s hs), fun _ => h⟩
  · have hsame : ∀ t ∈ r.engine.storage, t.object = index.object → t = index :=
      fun t ht hto => howned.same hindex ht hto
    -- its keys are its own, its name may not be
    have hkeys' := (hkeys.erase_iff hsame).mpr fun t ht hfield =>
      congrArg StoredIndex.object (List.inj_on_of_nodup_map h.nodup_keys ht hindex hfield)
    have hmem : index.info.keys ∈ r.engine.mapper :=
      AList.lookup_isSome.mp ((hkeys.found _).mpr ⟨index, hindex, rfl⟩)
    have hsize' : (r.engine.dropIndex index).size = (r.engine.dropIndex index).storage.length := by
      have hlen := length_erase_of_mem hmem
      have hfilter := howned.length_filter hindex
      show (r.engine.mapper.erase index.info.keys).keys.length = _
      show _ = (r.engine.storage.filter fun s => s.object != index.object).length
      have hsize'' : r.engine.mapper.keys.length = r.engine.storage.length := hsize
      omega
    rw [heq, lookupsAgree_iff]
    have hname' := hname.erase_iff hsame
    constructor
    · rintro ⟨-, -, hafter⟩ s hs hso t ht hfield
      obtain rfl := howned.same hindex hs hso
      exact hname'.mp hafter t ht hfield
    · intro hkeeps
      exact ⟨hsize', hkeys', hname'.mpr (hkeeps index hindex rfl)⟩

/-! ## Lookups by id -/

omit [DecidableEq K] in
theorem IdsGiven.matchingId (h : IdsGiven r) {object : Nat} {a : AddedIndex K}
    (ha : r.added[object]? = some a) :
    r.engine.matchingId a.id = some (if object < 2 ^ 32 then object else 0) := by
  obtain ⟨hlt, -⟩ := List.getElem?_eq_some_iff.mp ha
  rw [EngineBooks.matchingId, h.ids object a ha, h.lookup]
  split
  next hsmall => rw [if_pos (by omega)]
  next hlarge => rw [if_pos (by omega)]

omit [DecidableEq K] in
/-- The lookup by id is right exactly if nothing was dropped and ids have not run out. -/
theorem IdsGiven.agree_iff (h : IdsGiven r) : r.IdsAgree ↔
    r.added.length ≤ 2 ^ 32 ∧ ∀ (n : Nat) (a : AddedIndex K), r.added[n]? = some a → a.alive = true := by
  constructor
  · intro hagree
    have halive : ∀ (n : Nat) (a : AddedIndex K), r.added[n]? = some a → a.alive = true := by
      intro n a ha
      by_contra hdead
      have hid := hagree n a ha
      rw [h.matchingId ha, if_neg hdead] at hid
      exact nomatch hid
    refine ⟨?_, halive⟩
    by_contra hmany
    obtain ⟨a, ha⟩ : ∃ a, r.added[2 ^ 32]? = some a :=
      ⟨_, List.getElem?_eq_getElem (Nat.lt_of_not_le hmany)⟩
    have hid := hagree (2 ^ 32) a ha
    rw [h.matchingId ha, if_pos (halive _ a ha), if_neg (Nat.lt_irrefl _)] at hid
    exact absurd (Option.some.inj hid) (by decide)
  · rintro ⟨hfew, halive⟩ n a ha
    obtain ⟨hlt, -⟩ := List.getElem?_eq_some_iff.mp ha
    rw [h.matchingId ha, if_pos (halive n a ha), if_pos (by omega)]

theorem ids_step_iff (hagree : r.IdsAgree) (h : IdsGiven r) (howned : Owned r)
    (op : RegistryOp K) : (r.step op).IdsAgree ↔ r.KeepsIds op := by
  obtain ⟨hfew, halive⟩ := h.agree_iff.mp hagree
  cases op with
  | add info =>
    rw [(h.add info).agree_iff]
    have hlen : (r.step (.add info)).added.length = r.added.length + 1 := List.length_append ..
    rw [hlen]
    constructor
    · rintro ⟨hfew', -⟩
      exact hfew'
    · intro hkeeps
      refine ⟨hkeeps, fun n a ha => ?_⟩
      rcases List.getElem?_concat_cases ha with ha | ⟨-, rfl⟩
      · exact halive n a ha
      · rfl
  | drop object =>
    rcases step_drop r object with ⟨hnone, heq⟩ | ⟨index, hindex, rfl, heq⟩
    · rw [heq]
      exact ⟨fun _ => hnone, fun _ => hagree⟩
    · -- the entry of the dropped index is still there
      refine ⟨fun hafter => ?_, fun hkeeps => absurd rfl (hkeeps index hindex)⟩
      rw [heq, h.drop.agree_iff] at hafter
      have hlt := howned.lt index hindex
      have hdead := hafter.2 index.object { r.added[index.object] with alive := false } (by
        show (r.added.modify _ _)[index.object]? = _
        rw [List.getElem?_modify, List.getElem?_eq_getElem hlt]
        simp)
      exact nomatch hdead

end Steps

/-! ## Runs -/

theorem lookups_step_iff {r : Registry K} (h : LookupsAgree r.engine) (howned : Owned r)
    (op : RegistryOp K) : LookupsAgree (r.step op).engine ↔ r.KeepsLookups op := by
  cases op with
  | add info => exact lookups_add_iff h info
  | drop object => exact lookups_drop_iff h howned object

theorem after_append (ops : List (RegistryOp K)) (op : RegistryOp K) :
    after (ops ++ [op]) = (after ops).step op := by
  rw [after, List.foldl_append]
  rfl

theorem bookkept_initial : Bookkept ({} : Registry K) := by
  refine ⟨lookupsAgree_iff.mpr ⟨rfl, ⟨fun k => ?_, nofun⟩, ⟨fun k => ?_, nofun⟩⟩, nofun⟩
  · exact ⟨nofun, fun ⟨_, hs, _⟩ => nomatch hs⟩
  · exact ⟨nofun, fun ⟨_, hs, _⟩ => nomatch hs⟩

/-- **Runs.**  The books are right after every call of a run exactly if every call keeps them. -/
theorem index_engine_bookkept_iff (ops : List (RegistryOp K)) :
    (∀ k, (after (ops.take k)).Bookkept) ↔
      ∀ k op, ops[k]? = some op →
        (after (ops.take k)).KeepsLookups op ∧ (after (ops.take k)).KeepsIds op := by
  refine List.forall_take_iff (P := fun done => (after done).Bookkept)
    (C := fun done op => (after done).KeepsLookups op ∧ (after done).KeepsIds op)
    bookkept_initial (fun done op hkept => ?_) ops
  obtain ⟨howned, hids⟩ := owned_after done
  rw [after_append]
  exact and_congr (lookups_step_iff hkept.1 howned op) (ids_step_iff hkept.2 hids howned op)

/-- Two indexes of different types on the column `a`, and the second dropped: the first is stored
    and the table counts as one without indexes. -/
theorem dropped_sibling_hides_index :
    let r : Registry String := after [.add ⟨"a_tree", "a", .single⟩, .add ⟨"a_hash", "a", .hashed⟩,
      .drop 1]
    r.engine.storage.map (·.info.name) = ["a_tree"] ∧ r.engine.size = 0 ∧
      tablesWithoutIndexes (fun _ => some r.engine) [7] = [7] := by
  refine ⟨?_, ?_, ?_⟩ <;> decide +kernel

end Registry

end Index
end Otterbrix
