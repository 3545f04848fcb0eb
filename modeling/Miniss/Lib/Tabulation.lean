import Mathlib.Data.List.Nodup
import Mathlib.Data.List.Perm.Basic
import Mathlib.Logic.Function.Basic

/-! Partial functions given by a list of their entries, such as a heap and the pointers
into it: an entry is inserted where the function is undefined, and erased by name. -/

/-- The entries of `m` are the pairs in `l`, each once. -/
structure Tabulates {α β : Type*} (m : α → Option β) (l : List (α × β)) : Prop where
  mem_iff : ∀ a b, m a = some b ↔ (a, b) ∈ l
  nodup : (l.map Prod.fst).Nodup

namespace Tabulates
variable {α β : Type*} {m : α → Option β} {l l' : List (α × β)} {a : α} {b : β}

theorem empty : Tabulates (fun _ : α => (none : Option β)) [] :=
  ⟨by simp, List.nodup_nil⟩

theorem get (h : Tabulates m l) (hm : (a, b) ∈ l) : m a = some b := (h.mem_iff a b).mpr hm

theorem perm (h : Tabulates m l) (hp : l.Perm l') : Tabulates m l' :=
  ⟨fun a b => (h.mem_iff a b).trans hp.mem_iff, ((hp.map Prod.fst).nodup_iff).mp h.nodup⟩

variable [DecidableEq α]

theorem insert (h : Tabulates m l) (ha : m a = none) (b : β) :
    Tabulates (Function.update m a (some b)) ((a, b) :: l) := by
  have hnot : ∀ c, (a, c) ∉ l := fun c hc => by
    have := h.get hc
    rw [ha] at this
    cases this
  refine ⟨fun x c => ?_, ?_⟩
  · by_cases hx : x = a
    · subst hx
      simp [hnot, eq_comm]
    · simp [h.mem_iff, hx]
  · rw [List.map_cons, List.nodup_cons]
    refine ⟨fun hmem => ?_, h.nodup⟩
    obtain ⟨⟨x, c⟩, hc, rfl⟩ := List.mem_map.mp hmem
    exact hnot c hc

theorem erase (h : Tabulates m ((a, b) :: l)) : Tabulates (Function.update m a none) l := by
  have hnd := h.nodup
  rw [List.map_cons, List.nodup_cons] at hnd
  refine ⟨fun x c => ?_, hnd.2⟩
  by_cases hx : x = a
  · subst hx
    rw [Function.update_self]
    refine ⟨by simp, fun hc => ?_⟩
    exact absurd (List.mem_map_of_mem hc) hnd.1
  · rw [Function.update_of_ne hx, h.mem_iff]
    simp [hx]

end Tabulates
