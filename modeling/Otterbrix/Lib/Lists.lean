/-
  Otterbrix.Lib.Lists

  Facts about places of lists and about loops over them that more than one component uses.
-/
import Mathlib.Data.List.Forall2

/-- A place of a list with one more element: one of the list, or the last. -/
theorem List.getElem?_concat_cases {α : Type} {l : List α} {a b : α} {i : Nat}
    (h : (l ++ [a])[i]? = some b) : l[i]? = some b ∨ i = l.length ∧ b = a := by
  rcases Nat.lt_or_ge i l.length with hlt | hge
  · rw [List.getElem?_append_left hlt] at h
    exact .inl h
  · rw [List.getElem?_append_right hge] at h
    obtain ⟨hlast, hget⟩ := List.getElem?_eq_some_iff.mp h
    rw [List.getElem_singleton] at hget
    rw [List.length_singleton] at hlast
    exact .inr ⟨by omega, hget.symm⟩

/-- A loop that may fail and does not: one result for each element. -/
theorem List.forall₂_of_mapM_eq_some {α β : Type} {f : α → Option β} {l : List α} {l' : List β}
    (h : l.mapM f = some l') : List.Forall₂ (fun a b => f a = some b) l l' := by
  induction l generalizing l' with
  | nil =>
    obtain rfl := Option.some.inj h
    exact .nil
  | cons a l ih =>
    rw [List.mapM_cons] at h
    obtain ⟨c, hc, h⟩ := Option.bind_eq_some_iff.mp h
    obtain ⟨cs, hcs, h⟩ := Option.bind_eq_some_iff.mp h
    obtain rfl := Option.some.inj h
    exact .cons hc (ih hcs)

theorem List.mem_of_mapM_eq_some {α β : Type} {f : α → Option β} {l : List α} {l' : List β}
    (h : l.mapM f = some l') {b : β} (hb : b ∈ l') : ∃ a ∈ l, f a = some b := by
  have hrel := List.forall₂_of_mapM_eq_some h
  obtain ⟨i, hi, rfl⟩ := List.getElem_of_mem hb
  have hi' : i < l.length := hrel.length_eq ▸ hi
  exact ⟨l[i], List.getElem_mem hi', hrel.get hi' hi⟩

/-- The joined results of a loop over parts are as expected exactly if each part's are, when a part
    yields as many results as expected. -/
theorem List.flatten_mapM_eq_iff {α β : Type} {f : α → Option (List β)} {g : α → List β}
    (hlength : ∀ a l, f a = some l → l.length = (g a).length) (as : List α) :
    (as.mapM f).map List.flatten = some (as.flatMap g) ↔ ∀ a ∈ as, f a = some (g a) := by
  induction as with
  | nil => simp
  | cons a as ih =>
    rw [List.mapM_cons, List.forall_mem_cons, ← ih, List.flatMap_cons]
    constructor
    · intro h
      obtain ⟨parts, hparts, hjoined⟩ := Option.map_eq_some_iff.mp h
      obtain ⟨part, hpart, hparts⟩ := Option.bind_eq_some_iff.mp hparts
      obtain ⟨rest, hrest, hparts⟩ := Option.bind_eq_some_iff.mp hparts
      obtain rfl := Option.some.inj hparts
      rw [List.flatten_cons] at hjoined
      obtain ⟨hhead, htail⟩ := List.append_inj hjoined (hlength a part hpart)
      exact ⟨hhead ▸ hpart, by rw [hrest, Option.map_some, htail]⟩
    · rintro ⟨hpart, hrest⟩
      obtain ⟨rest, hrest, hjoined⟩ := Option.map_eq_some_iff.mp hrest
      rw [hpart, hrest]
      show some (g a ++ rest.flatten) = _
      rw [hjoined]

/-- **Prefixes of a run.**  If a property of what was done so far passes the next step exactly if
    the step meets a condition, it holds of every prefix of a run exactly if every step met it. -/
theorem List.forall_take_iff {α : Type} {P : List α → Prop} {C : List α → α → Prop} (hnil : P [])
    (hstep : ∀ done next, P done → (P (done ++ [next]) ↔ C done next)) (l : List α) :
    (∀ n, P (l.take n)) ↔ ∀ n a, l[n]? = some a → C (l.take n) a := by
  have hsucc : ∀ n a, l[n]? = some a → l.take (n + 1) = l.take n ++ [a] := by
    intro n a h
    rw [List.take_add_one, h, Option.toList_some]
  constructor
  · intro hall n a h
    have hnext := hall (n + 1)
    rw [hsucc n a h] at hnext
    exact (hstep (l.take n) a (hall n)).mp hnext
  · intro hmet n
    induction n with
    | zero => exact hnil
    | succ n ih =>
      cases h : l[n]? with
      | none =>
        rw [List.take_add_one, h, Option.toList_none, List.append_nil]
        exact ih
      | some a =>
        rw [hsucc n a h]
        exact (hstep (l.take n) a ih).mpr (hmet n a h)

/-- If replacing `e` by `e'` and `b` by `b'` in two arrangements of the same elements gives the same
    elements again, and the new ones are not `e`, then `e` was `b`. -/
theorem List.eq_of_perm_replace {α : Type} [DecidableEq α] {e b e' b' : α} {l l' : List α}
    (h : (e :: l).Perm (b :: l')) (h' : (e' :: l).Perm (b' :: l')) (he : e ≠ e') (hb : e ≠ b') :
    e = b := by
  by_contra hne
  have hcount := h.count_eq e
  have hcount' := h'.count_eq e
  rw [List.count_cons_self, List.count_cons_of_ne (Ne.symm hne)] at hcount
  rw [List.count_cons_of_ne he.symm, List.count_cons_of_ne hb.symm] at hcount'
  omega

/-- Two tests, one stricter, that accept equally many elements accept the same. -/
theorem List.forall_of_countP_le {α : Type} {p q : α → Bool}
    (himp : ∀ a, p a = true → q a = true) {l : List α} (h : l.countP q ≤ l.countP p) :
    ∀ a ∈ l, q a = true → p a = true := by
  induction l with
  | nil => exact nofun
  | cons b l ih =>
    have hrest : l.countP p ≤ l.countP q := List.countP_mono_left fun a _ => himp a
    rw [List.countP_cons, List.countP_cons] at h
    have hb : q b = true → p b = true := by
      intro hq
      by_contra hp
      rw [if_pos hq, if_neg hp] at h
      omega
    have hle : l.countP q ≤ l.countP p := by
      by_cases hp : p b = true
      · rw [if_pos hp, if_pos (himp b hp)] at h
        omega
      · rw [if_neg hp] at h
        omega
    intro a ha
    rcases List.mem_cons.mp ha with rfl | ha
    · exact hb
    · exact ih hle a ha

/-! ## Lists related place by place -/
