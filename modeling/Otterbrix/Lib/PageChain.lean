/-
  Otterbrix.Lib.PageChain

  Chains of pages in a store.  Every page names the next one, and 0 ends a chain.  A
  chain is described by the list of its ids; it stays the same under writes elsewhere and
  under writes that keep the link of a page, and it grows by one page when its last link
  is set to a new one.
-/
import Mathlib.Data.List.Nodup
import Mathlib.Logic.Function.Basic

namespace PageChain

variable {P : Type} (next : P → Nat)

/-- The pages from `id` on are `ids`. -/
inductive Linked (store : Nat → Option P) : Nat → List Nat → Prop
  | nil : Linked store 0 []
  | cons {id : Nat} {page : P} {ids : List Nat} (hid : id ≠ 0) (hpage : store id = some page)
      (hrest : Linked store (next page) ids) : Linked store id (id :: ids)

variable {next} {store store' : Nat → Option P} {id : Nat} {ids : List Nat}

theorem Linked.unique {ids' : List Nat} (h : Linked next store id ids)
    (h' : Linked next store id ids') : ids = ids' := by
  induction h generalizing ids' with
  | nil =>
    cases h' with
    | nil => rfl
    | cons hid _ _ => exact absurd rfl hid
  | cons hid hpage _ ih =>
    cases h' with
    | nil => exact absurd rfl hid
    | cons _ hpage' hrest' =>
      obtain rfl := Option.some.inj (hpage.symm.trans hpage')
      rw [ih hrest']

/-- Fuel for a walk along a chain is more than its pages: a step, and fuel for the rest. -/
theorem fuel_cons {fuel : Nat} (h : (id :: ids).length < fuel) :
    ∃ k, fuel = k + 1 ∧ ids.length < k := by
  rw [List.length_cons] at h
  exact ⟨fuel - 1, by omega, by omega⟩

/-- A chain depends on the links of its pages only. -/
theorem Linked.congr (h : Linked next store id ids)
    (hsame : ∀ x ∈ ids, (store' x).map next = (store x).map next) :
    Linked next store' id ids := by
  induction h with
  | nil => exact .nil
  | cons hid hpage _ ih =>
    have hlink := hsame _ List.mem_cons_self
    rw [hpage] at hlink
    obtain ⟨page', hpage', hnext⟩ := Option.map_eq_some_iff.mp hlink
    have hrest := ih fun x hx => hsame x (List.mem_cons_of_mem _ hx)
    rw [← hnext] at hrest
    exact .cons hid hpage' hrest

theorem Linked.update_of_notMem (h : Linked next store id ids) {x : Nat} (hx : x ∉ ids)
    (page : Option P) : Linked next (Function.update store x page) id ids :=
  h.congr fun y hy => by
    rw [Function.update_of_ne]
    rintro rfl
    exact hx hy

/-- A write that keeps the link of a page keeps all chains. -/
theorem Linked.update_of_next (h : Linked next store id ids) {x : Nat} {page page' : P}
    (hpage : store x = some page) (hnext : next page' = next page) :
    Linked next (Function.update store x (some page')) id ids :=
  h.congr fun y _ => by
    by_cases hy : y = x
    · rw [hy, Function.update_self, hpage, Option.map_some, Option.map_some, hnext]
    · rw [Function.update_of_ne hy]

/-- A chain is extended behind its last page. -/
theorem Linked.snoc (h : Linked next store id ids) (hnodup : ids.Nodup) {x n : Nat}
    {page page' : P} (hx : x ∈ ids) (hpage : store x = some page) (hlast : next page = 0)
    (hlink : next page' = n) (hn : n ≠ 0) (hfresh : n ∉ ids) {new : P} (hnew : store n = some new)
    (hend : next new = 0) :
    Linked next (Function.update store x (some page')) id (ids ++ [n]) := by
  induction h with
  | nil => exact absurd hx List.not_mem_nil
  | @cons y z rest hy hz hrest ih =>
    obtain ⟨hnot, hnodup⟩ := List.nodup_cons.mp hnodup
    obtain ⟨hne, hfresh⟩ := List.ne_and_not_mem_of_not_mem_cons hfresh
    by_cases hxy : x = y
    · -- the last page: nothing follows it
      subst hxy
      obtain rfl := Option.some.inj (hz.symm.trans hpage)
      rw [hlast] at hrest
      obtain rfl := hrest.unique .nil
      refine .cons hy (Function.update_self ..) ?_
      rw [hlink]
      refine .cons hn ?_ (by rw [hend]; exact .nil)
      rw [Function.update_of_ne hne]
      exact hnew
    · have hmem : x ∈ rest := (List.mem_cons.mp hx).resolve_left hxy
      refine .cons hy ?_ (ih hnodup hmem hfresh)
      rw [Function.update_of_ne (Ne.symm hxy)]
      exact hz

/-! ## Pages that can be reached -/

variable (next) in
/-- Page `x` is reached from `id` along the links. -/
inductive Reachable (store : Nat → Option P) : Nat → Nat → Prop
  | here {id : Nat} (hid : id ≠ 0) : Reachable store id id
  | next {id x : Nat} {page : P} (hid : id ≠ 0) (hpage : store id = some page)
      (hrest : Reachable store (next page) x) : Reachable store id x

theorem Linked.reachable_iff (h : Linked next store id ids) {x : Nat} :
    Reachable next store id x ↔ x ∈ ids := by
  induction h with
  | nil =>
    refine ⟨fun hx => ?_, fun hx => absurd hx List.not_mem_nil⟩
    cases hx with
    | here hid => exact absurd rfl hid
    | next hid _ _ => exact absurd rfl hid
  | @cons y page rest hy hpage _ ih =>
    constructor
    · intro hx
      cases hx with
      | here _ => exact List.mem_cons_self
      | next _ hpage' hrest =>
        obtain rfl := Option.some.inj (hpage.symm.trans hpage')
        exact List.mem_cons_of_mem _ (ih.mp hrest)
    · intro hx
      rcases List.mem_cons.mp hx with rfl | hrest
      · exact .here hy
      · exact .next hy hpage (ih.mpr hrest)

/-- A page of a chain that ends does not lead to itself. -/
theorem Linked.next_ne (h : Linked next store id ids) {x : Nat} (hx : x ∈ ids) {page : P}
    (hpage : store x = some page) : next page ≠ x := by
  induction h with
  | nil => exact absurd hx List.not_mem_nil
  | @cons y page' rest hy hpage' hrest ih =>
    rcases List.mem_cons.mp hx with rfl | hmem
    · intro hself
      obtain rfl := Option.some.inj (hpage'.symm.trans hpage)
      have hwhole : Linked next store x (x :: rest) := .cons hy hpage' hrest
      rw [hself] at hrest
      exact absurd (congrArg List.length (hwhole.unique hrest)) (by simp)
    · exact ih hmem

end PageChain
