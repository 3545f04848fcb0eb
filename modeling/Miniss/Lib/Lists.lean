import Mathlib.Data.List.Basic

/-! Lists as bags of things on their way, where one is taken out at a given place, as rows of
places, where one is filled anew, and as histories, where each event is judged by what came
before it. -/

/-- The element at a place splits the list, and erasing it joins the two parts. -/
theorem exists_split_of_getElem? {α : Type*} {l : List α} {k : Nat} {a : α}
    (h : l[k]? = some a) :
    ∃ pre post, l = pre ++ a :: post ∧ l.eraseIdx k = pre ++ post ∧ pre.length = k := by
  obtain ⟨hlt, hget⟩ := List.getElem?_eq_some_iff.mp h
  refine ⟨l.take k, l.drop (k + 1), ?_, List.eraseIdx_eq_take_drop_succ l k,
    List.length_take_of_le (Nat.le_of_lt hlt)⟩
  rw [← hget, List.getElem_cons_drop, List.take_append_drop]

/-- What a list shows when one element of it is replaced. -/
theorem map_set_eq_modify {α β : Type*} {f : α → β} {g : β → β} {l : List α} {i : Nat} {a b : α}
    (h : l[i]? = some a) (hb : f b = g (f a)) : (l.set i b).map f = (l.map f).modify i g := by
  have hlt := (List.getElem?_eq_some_iff.mp h).1
  refine List.ext_getElem? fun j => ?_
  by_cases hij : i = j
  · subst hij
    rw [List.getElem?_modify_eq, List.getElem?_map, List.getElem?_map,
      List.getElem?_set_self hlt, h]
    exact congrArg some hb
  · rw [List.getElem?_modify_ne _ _ hij, List.getElem?_map, List.getElem?_map,
      List.getElem?_set_ne hij]

theorem map_set_eq_self {α β : Type*} {f : α → β} {l : List α} {i : Nat} {a b : α}
    (h : l[i]? = some a) (hb : f b = f a) : (l.set i b).map f = l.map f := by
  rw [map_set_eq_modify (g := id) h hb, List.modify_id]

/-- What a list shows of one of its elements, beside what it shows of the others, and what it
shows of an element that takes its place. -/
theorem filterMap_set_perm {α β : Type*} (g : α → Option β) {l : List α} {i : Nat} {a : α}
    (h : l[i]? = some a) : ∃ rest, (l.filterMap g).Perm ((g a).toList ++ rest) ∧
      ∀ b, ((l.set i b).filterMap g).Perm ((g b).toList ++ rest) := by
  obtain ⟨pre, post, rfl, -, rfl⟩ := exists_split_of_getElem? h
  have hshow (b : α) : ((pre ++ b :: post).filterMap g).Perm
      ((g b).toList ++ (pre.filterMap g ++ post.filterMap g)) := by
    have hb : (b :: post).filterMap g = (g b).toList ++ post.filterMap g := by
      cases hg : g b <;> simp [hg]
    rw [List.filterMap_append, hb, ← List.append_assoc, ← List.append_assoc]
    exact List.perm_append_comm.append_right _
  refine ⟨_, hshow a, fun b => ?_⟩
  rw [List.set_append_right _ _ (Nat.le_refl _), Nat.sub_self, List.set_cons_zero]
  exact hshow b

theorem forall_mem_concat {α : Type*} {P : α → Prop} {l : List α} {a : α}
    (h : ∀ x ∈ l, P x) (ha : P a) : ∀ x ∈ l ++ [a], P x :=
  List.forall_mem_append.mpr ⟨h, List.forall_mem_singleton.mpr ha⟩

/-- A place in a list with one more element is the last one or a place in the list. -/
theorem concat_eq_append_cons {α : Type*} {l pre post : List α} {a b : α}
    (h : l ++ [b] = pre ++ a :: post) :
    l = pre ∧ b = a ∧ post = [] ∨ ∃ post', post = post' ++ [b] ∧ l = pre ++ a :: post' := by
  obtain rfl | ⟨post, c, rfl⟩ := List.eq_nil_or_concat post
  · obtain ⟨rfl, hb⟩ := List.append_inj' h rfl
    exact .inl ⟨rfl, List.head_eq_of_cons_eq hb, rfl⟩
  · rw [List.concat_eq_append, ← List.cons_append, ← List.append_assoc] at h
    obtain ⟨rfl, hb⟩ := List.append_inj' h rfl
    obtain rfl := List.head_eq_of_cons_eq hb
    exact .inr ⟨post, List.concat_eq_append, rfl⟩

/-- Each element of the list is right after what precedes it. -/
def EachAfter {α : Type*} (P : List α → α → Prop) (l : List α) : Prop :=
  ∀ pre a post, l = pre ++ a :: post → P pre a

theorem eachAfter_nil {α : Type*} {P : List α → α → Prop} : EachAfter P [] :=
  fun _ _ _ h => absurd h.symm (List.append_ne_nil_of_right_ne_nil _ (List.cons_ne_nil _ _))

theorem EachAfter.concat {α : Type*} {P : List α → α → Prop} {l : List α} {a : α}
    (h : EachAfter P l) (ha : P l a) : EachAfter P (l ++ [a]) := by
  intro pre b post he
  obtain ⟨rfl, rfl, -⟩ | ⟨post, -, rfl⟩ := concat_eq_append_cons he
  · exact ha
  · exact h pre b post rfl

/-- An event that is added to a history leaves the earlier ones where they were. -/
theorem EachAfter.of_append {α : Type*} {P : List α → α → Prop} {l l' : List α}
    (h : EachAfter P (l ++ l')) : EachAfter P l := by
  intro pre a post he
  exact h pre a (post ++ l') (by rw [he, List.append_assoc, List.cons_append])
