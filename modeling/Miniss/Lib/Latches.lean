import Miniss.Lib.Machine
import Mathlib.Algebra.BigOperators.Group.Finset.Basic
import Mathlib.Algebra.Order.BigOperators.Group.Finset
import Mathlib.Data.Fintype.BigOperators

/-! Parallel programs with latches. Each party has a list of commands of its own; a latch counts
down, and holds up whoever awaits it until its count is zero. What stands before an arrival is done
when somebody has got past the latch, and when the latches are ranked nobody is held up for good. -/
namespace Miniss
variable {ι α κ σ : Type*}

theorem sum_update {β : Type*} [Fintype ι] [DecidableEq ι] (f : ι → β) (g : β → ℕ) {i : ι} {b : β}
    {k : ℕ} (hg : g (f i) = g b + k) : ∑ j, g (f j) = ∑ j, g (Function.update f i b j) + k := by
  have hrest : ∑ j ∈ {i}ᶜ, g (f j) = ∑ j ∈ {i}ᶜ, g (Function.update f i b j) := by
    refine Finset.sum_congr rfl fun j hj => ?_
    rw [Function.update_of_ne (by simpa using hj)]
  rw [Fintype.sum_eq_add_sum_compl i, Fintype.sum_eq_add_sum_compl i, hrest, Function.update_self,
    hg]
  omega

inductive LatchCmd (α κ : Type*)
  | act (a : α)
  | arrive (l : κ)
  | await (l : κ)

/-- What each party has still to do, the counts of the latches, and what the acts work on. -/
structure Latches (ι α κ σ : Type*) where
  rest : ι → List (LatchCmd α κ)
  count : κ → ℕ
  shared : σ

namespace LatchCmd

/-- No arrival comes behind the wait for a latch of its rank or a higher one. -/
def Ranked (rank : κ → ℕ) (cs : List (LatchCmd α κ)) : Prop :=
  cs.Pairwise fun c d => ∀ l l', c = .await l → d = .arrive l' → rank l < rank l'

variable [DecidableEq κ]

def arrives (l : κ) : LatchCmd α κ → Bool
  | .arrive l' => decide (l' = l)
  | _ => false

theorem arrives_iff {l : κ} {c : LatchCmd α κ} : c.arrives l ↔ c = .arrive l := by
  cases c <;> simp [arrives]

end LatchCmd

namespace Latches
open LatchCmd

variable [DecidableEq κ] {perform : α → σ → Option σ} {s t : Latches ι α κ σ}

/-- What a command makes of the counts and of the rest. -/
inductive StepBy (perform : α → σ → Option σ) (s : Latches ι α κ σ) :
    LatchCmd α κ → (κ → ℕ) → σ → Prop
  | act {a v} (h : perform a s.shared = some v) : StepBy perform s (.act a) s.count v
  | arrive {l n} (h : s.count l = n + 1) :
      StepBy perform s (.arrive l) (Function.update s.count l n) s.shared
  | await {l} (h : s.count l = 0) : StepBy perform s (.await l) s.count s.shared

theorem StepBy.count_eq_zero {c : LatchCmd α κ} {n : κ → ℕ} {v : σ} (h : StepBy perform s c n v)
    {l : κ} (hl : s.count l = 0) : n l = 0 := by
  cases h with
  | act | await => exact hl
  | arrive hn =>
    rename_i l' n
    have hne : l ≠ l' := by
      rintro rfl
      omega
    rwa [Function.update_of_ne hne]

variable [Fintype ι]

/-- The count of a latch is the number of arrivals that are still to come. -/
def Counted (s : Latches ι α κ σ) : Prop :=
  ∀ l, s.count l = ∑ i, (s.rest i).countP (·.arrives l)

theorem Counted.eq_zero_iff (h : s.Counted) {l : κ} :
    s.count l = 0 ↔ ∀ i, .arrive l ∉ s.rest i := by
  rw [h l, Finset.sum_eq_zero_iff]
  simp only [Finset.mem_univ, List.countP_eq_zero, arrives_iff, forall_const]
  refine forall_congr' fun i => ⟨fun hi hmem => hi _ hmem rfl, ?_⟩
  rintro hi c hc rfl
  exact hi hc

/-- What each party has still to do is the rest of its program, and the latches that it has got
past are at zero. -/
structure Sound (prog : ι → List (LatchCmd α κ)) (s : Latches ι α κ σ) : Prop where
  counted : s.Counted
  suffix : ∀ i, s.rest i <:+ prog i
  past : ∀ i l, .await l ∈ prog i → .await l ∉ s.rest i → s.count l = 0

variable [DecidableEq ι] {i j : ι} {prog : ι → List (LatchCmd α κ)}
  {count : κ → ℕ} {v : σ}

/-- An arrival at a latch whose count is zero is not defined. -/
def step (perform : α → σ → Option σ) (s : Latches ι α κ σ) (i : ι) : Option (Latches ι α κ σ) :=
  match s.rest i with
  | [] => none
  | .act a :: cs => (perform a s.shared).map fun v =>
      { s with rest := Function.update s.rest i cs, shared := v }
  | .arrive l :: cs =>
    if s.count l = 0 then none
    else some
      { s with
        rest := Function.update s.rest i cs
        count := Function.update s.count l (s.count l - 1) }
  | .await l :: cs =>
    if s.count l = 0 then some { s with rest := Function.update s.rest i cs } else none

def machine (prog : ι → List (LatchCmd α κ)) (count : κ → ℕ) (v : σ)
    (perform : α → σ → Option σ) : Machine (Latches ι α κ σ) ι where
  init := ⟨prog, count, v⟩
  step := step perform

/-- Each latch counts the arrivals in all programs. -/
def Expected (prog : ι → List (LatchCmd α κ)) (count : κ → ℕ) : Prop :=
  ∀ l, count l = ∑ i, (prog i).countP (·.arrives l)

omit [Fintype ι] in
theorem step_cases (h : step perform s i = some t) : ∃ c cs n v, s.rest i = c :: cs ∧
    t = ⟨Function.update s.rest i cs, n, v⟩ ∧ StepBy perform s c n v := by
  unfold step at h
  split at h
  · cases h
  · obtain ⟨v, hv, rfl⟩ := Option.map_eq_some_iff.mp h
    exact ⟨_, _, _, _, ‹_›, rfl, .act hv⟩
  · split at h
    · cases h
    · cases h
      exact ⟨_, _, _, _, ‹_›, rfl, .arrive (Nat.succ_pred_eq_of_ne_zero ‹_›).symm⟩
  · split at h
    · cases h
      exact ⟨_, _, _, _, ‹_›, rfl, .await ‹_›⟩
    · cases h

theorem Counted.step (h : s.Counted) (hst : step perform s i = some t) : t.Counted := by
  obtain ⟨c, cs, n, v, hi, rfl, hby⟩ := step_cases hst
  intro l
  have hsum := sum_update s.rest (List.countP (·.arrives l)) (i := i) (b := cs)
    (by rw [hi, List.countP_cons])
  have hl := h l
  cases hby with
  | act | await => exact hl.trans hsum
  | arrive hn =>
    rename_i l' n
    by_cases he : l' = l
    · subst he
      rw [if_pos (arrives_iff.mpr rfl)] at hsum
      simp only [Function.update_self]
      omega
    · rw [if_neg (by simpa [arrives] using he)] at hsum
      simp only [Function.update_of_ne (Ne.symm he)]
      omega

omit [DecidableEq κ] [Fintype ι] in
theorem mem_of_mem_update {f : ι → List (LatchCmd α κ)} {c d : LatchCmd α κ}
    {cs : List (LatchCmd α κ)} (hi : f i = c :: cs) (hd : d ∈ f j)
    (hno : d ∉ Function.update f i cs j) : i = j ∧ d = c := by
  by_cases hij : j = i
  · subst hij
    rw [Function.update_self] at hno
    rw [hi, List.mem_cons] at hd
    exact ⟨rfl, hd.resolve_right hno⟩
  · rw [Function.update_of_ne hij] at hno
    exact absurd hd hno

omit [Fintype ι] in
theorem rest_suffix (hst : step perform s i = some t) (j : ι) : t.rest j <:+ s.rest j := by
  obtain ⟨c, cs, n, v, hi, rfl, -⟩ := step_cases hst
  by_cases hij : j = i
  · subst hij
    simpa only [Function.update_self, hi] using List.suffix_cons c cs
  · simpa only [Function.update_of_ne hij] using List.suffix_rfl

theorem Sound.step (hs : s.Sound prog) (hst : step perform s i = some t) : t.Sound prog := by
  obtain ⟨c, cs, n, v, hi, rfl, hby⟩ := step_cases hst
  refine ⟨hs.counted.step hst, fun j => (rest_suffix hst j).trans (hs.suffix j),
    fun j l hl hno => hby.count_eq_zero ?_⟩
  by_cases hmem : .await l ∈ s.rest j
  · obtain ⟨-, rfl⟩ := mem_of_mem_update hi hmem hno
    cases hby
    assumption
  · exact hs.past j l hl hmem

/-- Party `i` is at a command `d`, or past it. -/
def At (prog : ι → List (LatchCmd α κ)) (s : Latches ι α κ σ) (i : ι) (d : LatchCmd α κ) : Prop :=
  ∃ p q, prog i = p ++ d :: q ∧ s.rest i <:+ d :: q

omit [DecidableEq ι] in
theorem Sound.at_head (hs : s.Sound prog) {d : LatchCmd α κ} {ds : List (LatchCmd α κ)}
    (h : s.rest i = d :: ds) : s.At prog i d := by
  obtain ⟨p, hp⟩ := hs.suffix i
  rw [h] at hp
  exact ⟨p, ds, hp.symm, h ▸ List.suffix_rfl⟩

omit [DecidableEq ι] in
theorem Sound.at_of_not_mem (hs : s.Sound prog) {d : LatchCmd α κ} (hd : d ∈ prog i)
    (hno : d ∉ s.rest i) : s.At prog i d := by
  obtain ⟨r, hr⟩ := hs.suffix i
  rw [← hr, List.mem_append] at hd
  obtain ⟨p, q, rfl⟩ := List.append_of_mem (hd.resolve_right hno)
  exact ⟨p, q ++ s.rest i, by rw [← hr, List.append_assoc, List.cons_append],
    List.suffix_append (d :: q) _⟩

section Runs

variable {is : List ι}

theorem sound (hcount : Expected prog count) (h : (machine prog count v perform).Reaches is s) :
    s.Sound prog :=
  h.invariant (I := Sound prog)
    ⟨fun l => hcount l, fun _ => List.suffix_rfl, fun _ _ hl hno => absurd hl hno⟩
    fun _ _ _ hs hst => hs.step hst

omit [Fintype ι] in
theorem shared_invariant {P : σ → Prop} (hv : P v)
    (hact : ∀ a v v', P v → perform a v = some v' → P v')
    (h : (machine prog count v perform).Reaches is s) : P s.shared := by
  refine h.invariant (I := fun s => P s.shared) hv fun s i t hs hst => ?_
  obtain ⟨c, cs, n, w, -, rfl, hby⟩ := step_cases hst
  cases hby with
  | act hw => exact hact _ _ _ hs hw
  | arrive | await => exact hs

omit [Fintype ι] in
/-- What an act brings about and nothing undoes is there when the act is done. -/
theorem effect {P : σ → Prop} {a : α} (hdo : ∀ v v', perform a v = some v' → P v')
    (hkeep : ∀ b v v', P v → perform b v = some v' → P v')
    (h : (machine prog count v perform).Reaches is s) (ha : .act a ∈ prog j)
    (hno : .act a ∉ s.rest j) : P s.shared := by
  refine h.invariant (I := fun s => .act a ∉ s.rest j → P s.shared) (fun hno => absurd ha hno)
    (fun s i t hs hst hno => ?_) hno
  obtain ⟨c, cs, n, w, hi, rfl, hby⟩ := step_cases hst
  by_cases hmem : .act a ∈ s.rest j
  · obtain ⟨-, rfl⟩ := mem_of_mem_update hi hmem hno
    cases hby with | act hw
    exact hdo _ _ hw
  · cases hby with
    | act hw => exact hkeep _ _ _ (hs hmem) hw
    | arrive | await => exact hs hmem

/-- What only one act brings about is not there before that act. -/
theorem cause {P : σ → Prop} {a : α} (hv : ¬P v)
    (honly : ∀ b v v', ¬P v → perform b v = some v' → P v' → b = a) (hcount : Expected prog count)
    (h : (machine prog count v perform).Reaches is s) (hP : P s.shared) :
    ∃ j, s.At prog j (.act a) := by
  refine (h.invariant_of (I := fun s => P s.shared → ∃ j, s.At prog j (.act a))
    (J := Sound prog) (fun _ _ hr => sound hcount hr) (fun hP => absurd hP hv) ?_) hP
  intro s i t hs hI hst hP
  have hrest := rest_suffix hst
  by_cases hold : P s.shared
  · obtain ⟨j, p, q, he, hj⟩ := hI hold
    exact ⟨j, p, q, he, (hrest j).trans hj⟩
  · obtain ⟨c, cs, n, w, hi, rfl, hby⟩ := step_cases hst
    cases hby with
    | act hw =>
      obtain rfl := honly _ _ _ hold hw hP
      obtain ⟨p, q, he, hj⟩ := hs.at_head hi
      exact ⟨i, p, q, he, (hrest i).trans hj⟩
    | arrive | await => exact absurd hP hold

end Runs

section Staged

/-- The commands of every program come in the order of their stages. -/
def Staged (stage : LatchCmd α κ → ℕ) (prog : ι → List (LatchCmd α κ)) : Prop :=
  ∀ i, (prog i).Pairwise fun c d => stage c ≤ stage d

variable {stage : LatchCmd α κ → ℕ} {c d : LatchCmd α κ}

omit [Fintype ι] [DecidableEq κ] [DecidableEq ι] in
theorem At.earlier (hd : s.At prog i d) (hprog : Staged stage prog) (hcd : stage c < stage d) :
    c ∉ s.rest i := by
  intro hmem
  obtain ⟨p, q, he, hq⟩ := hd
  have hpair := hprog i
  rw [he] at hpair
  obtain rfl | hcq := List.mem_cons.mp (hq.subset hmem)
  · exact lt_irrefl _ hcd
  · exact hcd.not_ge ((List.pairwise_cons.mp (List.pairwise_append.mp hpair).2.1).1 c hcq)

omit [DecidableEq ι] in
/-- The order that a latch makes: what stands before an arrival is done when somebody is behind
the latch. -/
theorem Sound.synchronized (hs : s.Sound prog) (hprog : Staged stage prog) {l : κ}
    (harr : .arrive l ∈ prog j) (hawait : .await l ∈ prog i) (hcl : stage c < stage (.arrive l))
    (hld : stage (.await l) < stage d) (hd : s.At prog i d) : c ∉ s.rest j := by
  have hzero := hs.past i l hawait (hd.earlier hprog hld)
  exact (hs.at_of_not_mem harr (hs.counted.eq_zero_iff.mp hzero j)).earlier hprog hcl

omit [DecidableEq κ] [Fintype ι] [DecidableEq ι] in
theorem Staged.ranked (hprog : Staged stage prog)
    (hl : ∀ l, stage (.arrive l) < stage (.await l)) (i : ι) :
    Ranked (fun l => stage (.arrive l)) (prog i) := by
  refine (hprog i).imp ?_
  rintro _ _ hle l l' rfl rfl
  exact (hl l).trans_le hle

end Staged

/-- A party that has something left to do and cannot go on waits for an arrival. -/
theorem Sound.waits (hs : s.Sound prog)
    (hact : ∀ i a cs, s.rest i = .act a :: cs → (perform a s.shared).isSome)
    (hne : s.rest i ≠ []) (hstuck : Latches.step perform s i = none) :
    ∃ l cs j, s.rest i = .await l :: cs ∧ .arrive l ∈ s.rest j := by
  obtain ⟨c, cs, hi⟩ := List.exists_cons_of_ne_nil hne
  cases c with
  | act a =>
    obtain ⟨w, hw⟩ := Option.isSome_iff_exists.mp (hact i a cs hi)
    simp [Latches.step, hi, hw] at hstuck
  | arrive l =>
    have hcount : s.count l ≠ 0 := fun h0 =>
      hs.counted.eq_zero_iff.mp h0 i (hi ▸ List.mem_cons_self)
    simp [Latches.step, hi, hcount] at hstuck
  | await l =>
    have hcount : s.count l ≠ 0 := fun h0 => by simp [Latches.step, hi, h0] at hstuck
    obtain ⟨j, hj⟩ := not_forall_not.mp (mt hs.counted.eq_zero_iff.mpr hcount)
    exact ⟨l, cs, j, hi, hj⟩

/-- With ranked programs and acts that are defined where they stand, nobody waits for good. -/
theorem Sound.finished_of_stuck (hs : s.Sound prog) {rank : κ → ℕ}
    (hrank : ∀ i, Ranked rank (prog i))
    (hact : ∀ i a cs, s.rest i = .act a :: cs → (perform a s.shared).isSome)
    (hstuck : ∀ i, Latches.step perform s i = none) (i : ι) : s.rest i = [] := by
  by_contra hne
  obtain ⟨l, cs, j, hi, hj⟩ := hs.waits hact hne (hstuck i)
  -- Whoever is to arrive waits for a latch of a lower rank.
  induction hn : rank l using Nat.strong_induction_on generalizing i l cs j with
  | _ n ih =>
    obtain ⟨l', cs', j', hj', harr⟩ := hs.waits hact (List.ne_nil_of_mem hj) (hstuck j)
    have hpair := hj' ▸ (hrank j).sublist (hs.suffix j).sublist
    rw [hj', List.mem_cons] at hj
    have hlt := (List.pairwise_cons.mp hpair).1 _ (hj.resolve_left nofun) l' l rfl rfl
    exact ih _ (hn ▸ hlt) j (hj' ▸ List.cons_ne_nil _ _) l' cs' j' hj' harr rfl

theorem length_run {is : List ι} (h : (machine prog count v perform).Reaches is s) :
    is.length + ∑ i, (s.rest i).length = ∑ i, (prog i).length := by
  refine Machine.exec_measure (I := fun _ => True) (μ := fun s => ∑ i, (s.rest i).length)
    (fun s i t _ hst => ⟨trivial, ?_⟩) trivial h
  obtain ⟨c, cs, n, w, hi, rfl, -⟩ := step_cases hst
  exact sum_update s.rest List.length (by rw [hi, List.length_cons])

end Latches
end Miniss
