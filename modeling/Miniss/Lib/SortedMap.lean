import Mathlib.Order.Lattice
import Mathlib.Data.List.Pairwise

/-! Maps from ordered keys to lists, as an ordered container of queues: an element is put
behind the others of its key, and the keys up to a bound are taken out together. The listing
of such a map has all its elements, the keys in order and the elements of a key in theirs. -/

structure SortedMap (κ α : Type*) [LinearOrder κ] where
  entries : List (κ × List α)
  sorted : (entries.map Prod.fst).Pairwise (· < ·)

namespace SortedMap

section Entries
variable {κ α : Type*}

/-- The elements of some entries, each with its key. -/
def elements (l : List (κ × List α)) : List (κ × α) := l.flatMap fun e => e.2.map (e.1, ·)

@[simp] theorem elements_nil : elements ([] : List (κ × List α)) = [] := rfl

@[simp] theorem elements_cons (k : κ) (as : List α) (l : List (κ × List α)) :
    elements ((k, as) :: l) = as.map (k, ·) ++ elements l := rfl

theorem key_of_mem_elements {l : List (κ × List α)} {p : κ × α} (h : p ∈ elements l) :
    p.1 ∈ l.map Prod.fst := by
  obtain ⟨e, he, hp⟩ := List.mem_flatMap.mp h
  obtain ⟨a, -, rfl⟩ := List.mem_map.mp hp
  exact List.mem_map_of_mem he

theorem map_snd_elements (l : List (κ × List α)) :
    (elements l).map Prod.snd = l.flatMap Prod.snd := by
  simp [elements, List.map_flatMap, Function.comp_def]

end Entries

variable {κ α : Type*} [LinearOrder κ]

def empty : SortedMap κ α := ⟨[], List.Pairwise.nil⟩

def firstKey? (m : SortedMap κ α) : Option κ := m.entries.head?.map Prod.fst

/-- The entries with `a` behind the others of `k`. -/
def pushEntry (k : κ) (a : α) : List (κ × List α) → List (κ × List α)
  | [] => [(k, [a])]
  | (j, as) :: rest =>
    if k < j then (k, [a]) :: (j, as) :: rest
    else if j < k then (j, as) :: pushEntry k a rest
    else (j, as ++ [a]) :: rest

theorem mem_keys_pushEntry {k j : κ} {a : α} {l : List (κ × List α)}
    (h : j ∈ (pushEntry k a l).map Prod.fst) : j = k ∨ j ∈ l.map Prod.fst := by
  induction l with
  | nil => simpa [pushEntry] using h
  | cons e rest ih =>
    obtain ⟨i, as⟩ := e
    unfold pushEntry at h
    split_ifs at h with hki hik
    · simpa using h
    · rw [List.map_cons, List.mem_cons] at h ⊢
      obtain rfl | h := h
      · exact .inr (.inl rfl)
      · exact (ih h).imp id .inr
    · exact .inr h

theorem pushEntry_sorted {k : κ} {a : α} {l : List (κ × List α)}
    (h : (l.map Prod.fst).Pairwise (· < ·)) :
    ((pushEntry k a l).map Prod.fst).Pairwise (· < ·) := by
  induction l with
  | nil => simp [pushEntry]
  | cons e rest ih =>
    obtain ⟨i, as⟩ := e
    rw [List.map_cons, List.pairwise_cons] at h
    obtain ⟨hlt, hrest⟩ := h
    unfold pushEntry
    split_ifs with hki hik
    · simp only [List.map_cons, List.pairwise_cons, List.mem_cons, forall_eq_or_imp]
      exact ⟨⟨hki, fun j hj => hki.trans (hlt j hj)⟩, hlt, hrest⟩
    · rw [List.map_cons, List.pairwise_cons]
      refine ⟨fun j hj => ?_, ih hrest⟩
      obtain rfl | hj := mem_keys_pushEntry hj
      · exact hik
      · exact hlt j hj
    · rw [List.map_cons, List.pairwise_cons]
      exact ⟨hlt, hrest⟩

/-- `a` behind the others of `k`. -/
def pushBack (m : SortedMap κ α) (k : κ) (a : α) : SortedMap κ α :=
  ⟨pushEntry k a m.entries, pushEntry_sorted m.sorted⟩

/-- The entries up to the first key above `k`. -/
def upTo (m : SortedMap κ α) (k : κ) : List (κ × List α) := m.entries.takeWhile (·.1 ≤ k)

/-- The map without them. -/
def after (m : SortedMap κ α) (k : κ) : SortedMap κ α where
  entries := m.entries.dropWhile (·.1 ≤ k)
  sorted := m.sorted.sublist ((List.dropWhile_sublist _).map _)

theorem pushBack_entries (m : SortedMap κ α) (k : κ) (a : α) :
    (m.pushBack k a).entries = pushEntry k a m.entries := rfl

theorem after_entries (m : SortedMap κ α) (k : κ) :
    (m.after k).entries = m.entries.dropWhile (·.1 ≤ k) := rfl

/-- The elements of the map, each with its key. -/
def listing (m : SortedMap κ α) : List (κ × α) := elements m.entries

theorem listing_upTo_after (m : SortedMap κ α) (k : κ) :
    elements (m.upTo k) ++ (m.after k).listing = m.listing := by
  rw [listing, elements, elements, ← List.flatMap_append, upTo, after,
    List.takeWhile_append_dropWhile, listing, elements]

theorem key_le_of_mem_upTo {m : SortedMap κ α} {k : κ} {p : κ × α}
    (h : p ∈ elements (m.upTo k)) : p.1 ≤ k := by
  obtain ⟨e, he, hp⟩ := List.mem_map.mp (key_of_mem_elements h)
  rw [← hp]
  simpa using List.all_eq_true.mp List.all_takeWhile e he

/-- All keys left are above the bound. -/
theorem lt_key_of_mem_after {m : SortedMap κ α} {k j : κ}
    (h : j ∈ (m.after k).entries.map Prod.fst) : k < j := by
  have hs := (m.after k).sorted
  have hhead := List.head?_dropWhile_not (fun e : κ × List α => decide (e.1 ≤ k)) m.entries
  rw [after_entries] at h hs
  cases hd : m.entries.dropWhile (fun e => decide (e.1 ≤ k)) with
  | nil => simp [hd] at h
  | cons e rest =>
    rw [hd] at h hs hhead
    have hk : k < e.1 := by simpa using hhead
    rw [List.map_cons, List.pairwise_cons] at hs
    rw [List.map_cons, List.mem_cons] at h
    obtain rfl | h := h
    · exact hk
    · exact hk.trans (hs.1 j h)

theorem lt_key_of_mem_listing_after {m : SortedMap κ α} {k : κ} {p : κ × α}
    (h : p ∈ (m.after k).listing) : k < p.1 := lt_key_of_mem_after (key_of_mem_elements h)

theorem mem_keys_after {m : SortedMap κ α} {k j : κ}
    (h : j ∈ (m.after k).entries.map Prod.fst) : j ∈ m.entries.map Prod.fst :=
  ((List.dropWhile_sublist _).map _).subset h

/-- A new element goes between those of keys up to its own and those of greater keys. -/
theorem elements_pushEntry (k : κ) (a : α) {l : List (κ × List α)}
    (h : (l.map Prod.fst).Pairwise (· < ·)) :
    ∃ pre post, elements l = pre ++ post ∧ elements (pushEntry k a l) = pre ++ (k, a) :: post ∧
      (∀ p ∈ pre, p.1 ≤ k) ∧ ∀ p ∈ post, k < p.1 := by
  induction l with
  | nil => exact ⟨[], [], rfl, rfl, by simp, by simp⟩
  | cons e rest ih =>
    obtain ⟨j, as⟩ := e
    rw [List.map_cons, List.pairwise_cons] at h
    obtain ⟨hlt, hrest⟩ := h
    have hkey : ∀ p ∈ elements rest, j < p.1 := fun p hp => hlt p.1 (key_of_mem_elements hp)
    have has : ∀ p ∈ as.map (j, ·), p.1 = j := by
      intro p hp
      obtain ⟨b, -, rfl⟩ := List.mem_map.mp hp
      rfl
    unfold pushEntry
    split_ifs with hkj hjk
    · refine ⟨[], elements ((j, as) :: rest), rfl, rfl, by simp, fun p hp => ?_⟩
      obtain hp | hp := List.mem_append.mp hp
      · exact hkj.trans_eq (has p hp).symm
      · exact hkj.trans (hkey p hp)
    · obtain ⟨pre, post, hl, hl', hpre, hpost⟩ := ih hrest
      refine ⟨as.map (j, ·) ++ pre, post, ?_, ?_, fun p hp => ?_, hpost⟩
      · rw [elements_cons, hl, List.append_assoc]
      · rw [elements_cons, hl', List.append_assoc]
      · obtain hp | hp := List.mem_append.mp hp
        · exact (has p hp).le.trans hjk.le
        · exact hpre p hp
    · obtain rfl : j = k := le_antisymm (not_lt.mp hkj) (not_lt.mp hjk)
      refine ⟨as.map (j, ·), elements rest, rfl, ?_, fun p hp => (has p hp).le, hkey⟩
      rw [elements_cons, List.map_append, List.append_assoc]
      rfl

theorem listing_pushBack (m : SortedMap κ α) (k : κ) (a : α) :
    ∃ pre post, m.listing = pre ++ post ∧ (m.pushBack k a).listing = pre ++ (k, a) :: post ∧
      (∀ p ∈ pre, p.1 ≤ k) ∧ ∀ p ∈ post, k < p.1 := elements_pushEntry k a m.sorted

theorem firstKey_pushBack_isSome (m : SortedMap κ α) (k : κ) (a : α) :
    ∃ j, (m.pushBack k a).firstKey? = some j := by
  rw [firstKey?, pushBack_entries]
  cases m.entries with
  | nil => exact ⟨k, rfl⟩
  | cons e rest =>
    simp only [pushEntry]
    split_ifs
    · exact ⟨k, rfl⟩
    · exact ⟨e.1, rfl⟩
    · exact ⟨e.1, rfl⟩

/-- An element of a key that is not below the first key leaves that one in front. -/
theorem firstKey_pushBack_of_le {m : SortedMap κ α} {k j : κ} (h : m.firstKey? = some j)
    (hk : j ≤ k) (a : α) : (m.pushBack k a).firstKey? = some j := by
  rw [firstKey?] at h
  rw [firstKey?, pushBack_entries]
  cases hl : m.entries with
  | nil => simp [hl] at h
  | cons e rest =>
    obtain rfl : e.1 = j := by simpa [hl] using h
    simp only [pushEntry, hk.not_gt, if_false]
    split_ifs <;> rfl

theorem firstKey_mem {m : SortedMap κ α} {j : κ} (h : m.firstKey? = some j) :
    j ∈ m.entries.map Prod.fst := by
  unfold firstKey? at h
  rw [← List.head?_map] at h
  exact List.mem_of_head? h

end SortedMap
