import Miniss.Lib.Latches
import Mathlib.Data.Fin.SuccPred
import Mathlib.Algebra.BigOperators.Fin
import Mathlib.Tactic.Ring

/-! `OS::init`: the main thread starts a thread for every CPU but its own and makes the queues
between them, and three latches keep each thread from going ahead of the others. -/
namespace Miniss
variable {n : ℕ}

/-- The latches of `init`, and the start of a thread, which nothing in the thread precedes. -/
inductive InitLatch (n : ℕ)
  | spawned (i : Fin (n + 1))
  | cpuConstructed
  | queueConstructed
  | started
  deriving DecidableEq

/-- The steps of the threads in `init`: `conf_` and `cpus_` are set up; `start_cpu_`; the array
`queues_` is made, then each of its rows and each queue; `init` returns; `run` is called. -/
inductive InitAct (n : ℕ)
  | setConf
  | startCpu (i : Fin (n + 1))
  | newQueues
  | newRow (i : Fin (n + 1))
  | newQueue (i j : Fin (n + 1))
  | return_
  | run (i : Fin (n + 1))
  deriving DecidableEq

/-- What `init` sets up for `n + 1` CPUs: `cpus_` and `queues_`, for each thread its `local_cpu_`
and the CPU that it runs. A CPU is known by its id, and a queue by the CPUs at its two ends. -/
structure OsInit (n : ℕ) where
  conf_ : Option ℕ
  cpus : Fin (n + 1) → Option (Fin (n + 1))
  localCpu : Fin (n + 1) → Option (Fin (n + 1))
  table : Bool
  rows : Fin (n + 1) → Bool
  queues : Fin (n + 1) → Fin (n + 1) → Option (Fin (n + 1) × Fin (n + 1))
  returned : Bool
  running : Fin (n + 1) → Option (Fin (n + 1))

/-- The objects that the threads share in `init`; `conf` is the caller's, and the vector `cpus_` is
apart from its elements. -/
inductive InitLoc (n : ℕ)
  | conf
  | conf_
  | cpus
  | cpu (i : Fin (n + 1))
  | queues
  | row (i : Fin (n + 1))
  | queue (i j : Fin (n + 1))

/-- What an act reads; `run` stands for its first `poll_queues`. -/
def InitAct.reads : InitAct n → InitLoc n → Prop
  | .setConf, .conf => True
  | .startCpu _, .conf | .startCpu _, .cpus => True
  | .newQueues, .conf => True
  | .newRow _, .conf | .newRow _, .cpus | .newRow _, .queues => True
  | .newRow i, .cpu k => k = i
  | .newQueue _ _, .conf | .newQueue _ _, .cpus | .newQueue _ _, .queues => True
  | .newQueue i _, .row k => k = i
  | .newQueue i j, .cpu k => k = i ∨ k = j
  | .run _, .conf_ | .run _, .queues | .run _, .row _ => True
  | .run i, .queue k l => k = i ∨ l = i
  | _, _ => False

/-- What an act writes, or takes away. -/
def InitAct.writes : InitAct n → InitLoc n → Prop
  | .setConf, .conf_ | .setConf, .cpus | .setConf, .cpu _ => True
  | .startCpu i, .cpu k => k = i
  | .newQueues, .queues => True
  | .newRow i, .row k => k = i
  | .newQueue i j, .queue k l => k = i ∧ l = j
  | .return_, .conf => True
  | _, _ => False

namespace OsInit

def init : OsInit n where
  conf_ := none
  cpus := fun _ => none
  localCpu := fun _ => none
  table := false
  rows := fun _ => false
  queues := fun _ _ => none
  returned := false
  running := fun _ => none

/-- What the first `poll_queues` of CPU `i` goes through. -/
def Pollable (v : OsInit n) (i : Fin (n + 1)) : Prop :=
  v.conf_.isSome ∧ v.table ∧
    ∀ j, j ≠ i → (v.rows i ∧ (v.queues i j).isSome) ∧ v.rows j ∧ (v.queues j i).isSome

instance (v : OsInit n) (i : Fin (n + 1)) : Decidable (v.Pollable i) :=
  inferInstanceAs (Decidable (_ ∧ _ ∧ ∀ j, j ≠ i → _))

/-- An act is not defined where an assertion fails or a pointer is null or dangling. -/
def perform : InitAct n → OsInit n → Option (OsInit n)
  | .setConf, v => some { v with conf_ := some (n + 1) }
  | .startCpu i, v =>
    -- `conf` is the caller's.
    if v.conf_.isSome ∧ v.returned = false then some
      { v with
        cpus := Function.update v.cpus i (some i)
        localCpu := Function.update v.localCpu i (some i) }
    else none
  | .newQueues, v => some { v with table := true }
  | .newRow i, v =>
    if v.table ∧ (v.cpus i).isSome then some { v with rows := Function.update v.rows i true }
    else none
  | .newQueue i j, v =>
    if v.rows i then
      (v.cpus i).bind fun a => (v.cpus j).map fun b =>
        { v with
          queues := Function.update v.queues i (Function.update (v.queues i) j (some (a, b))) }
    else none
  | .return_, v => some { v with returned := true }
  | .run i, v =>
    (v.localCpu i).bind fun c =>
      if v.Pollable c then some { v with running := Function.update v.running i (some c) } else none

open LatchCmd

def newRows (n : ℕ) : List (LatchCmd (InitAct n) (InitLatch n)) :=
  (List.finRange (n + 1)).flatMap fun i =>
    .act (.newRow i) :: (List.finRange (n + 1)).map fun j => .act (.newQueue i j)

/-- `init`, and the call of `run` behind it. -/
def main (n : ℕ) : List (LatchCmd (InitAct n) (InitLatch n)) :=
  .act .setConf :: (List.finRange n).map (fun i => .arrive (.spawned i.succ)) ++
    [.act (.startCpu 0), .arrive .cpuConstructed, .await .cpuConstructed, .act .newQueues] ++
    newRows n ++ [.arrive .queueConstructed, .await .queueConstructed, .arrive .started,
      .await .started, .act .return_, .act (.run 0)]

def thread (i : Fin (n + 1)) : List (LatchCmd (InitAct n) (InitLatch n)) :=
  [.await (.spawned i), .act (.startCpu i), .arrive .cpuConstructed, .await .cpuConstructed,
    .arrive .queueConstructed, .await .queueConstructed, .arrive .started, .await .started,
    .act (.run i)]

def prog : Fin (n + 1) → List (LatchCmd (InitAct n) (InitLatch n)) :=
  Fin.cases (main n) fun i => thread i.succ

def count : InitLatch n → ℕ
  | .spawned i => if i = 0 then 0 else 1
  | _ => n + 1

/-- All interleavings of the threads up to their calls of `run`. -/
def machine (n : ℕ) : Machine (Latches (Fin (n + 1)) (InitAct n) (InitLatch n) (OsInit n))
    (Fin (n + 1)) :=
  Latches.machine prog count init perform

theorem prog_zero : prog 0 = main n := rfl

theorem prog_of_ne {i : Fin (n + 1)} (hi : i ≠ 0) : prog i = thread i := by
  obtain ⟨j, rfl⟩ := Fin.exists_succ_eq.mpr hi
  rfl

theorem countP_newRows (l : InitLatch n) : (newRows n).countP (·.arrives l) = 0 := by
  rw [newRows, List.countP_flatMap, List.sum_eq_zero_iff]
  simp [List.countP_eq_zero, arrives]

theorem countP_spawned (k : Fin (n + 1)) :
    (List.finRange n).countP (fun i => decide (i.succ = k)) = if k = 0 then 0 else 1 := by
  cases k using Fin.cases with
  | zero => simp
  | succ j =>
    simp only [Fin.succ_inj, Fin.succ_ne_zero, if_false]
    exact List.count_eq_one_of_mem (List.nodup_finRange n) (List.mem_finRange j)

theorem expected : Latches.Expected prog (count (n := n)) := by
  intro l
  rw [Fin.sum_univ_succ]
  simp only [prog, Fin.cases_zero, Fin.cases_succ, main, thread, List.countP_append, countP_newRows]
  cases l with
  | spawned k => simp [count, arrives, Function.comp_def, countP_spawned]
  | _ => simp [count, arrives, Function.comp_def, Nat.add_comm]

/-- The commands of both programs come in this order. -/
def stage : LatchCmd (InitAct n) (InitLatch n) → ℕ
  | .act .setConf => 0
  | .arrive (.spawned _) => 1
  | .await (.spawned _) => 2
  | .act (.startCpu _) => 3
  | .arrive .cpuConstructed => 4
  | .await .cpuConstructed => 5
  | .act .newQueues => 6
  | .act (.newRow i) => 7 + 2 * i
  | .act (.newQueue i _) => 8 + 2 * i
  | .arrive .queueConstructed => 9 + 2 * n
  | .await .queueConstructed => 10 + 2 * n
  | .arrive .started => 11 + 2 * n
  | .await .started => 12 + 2 * n
  | .act .return_ => 13 + 2 * n
  | .act (.run _) => 14 + 2 * n

theorem sorted_newRows : ((newRows n).map stage).Pairwise (· ≤ ·) := by
  rw [newRows, List.map_flatMap, List.pairwise_flatMap]
  refine ⟨fun i _ => by simp [stage, Function.comp_def], ?_⟩
  refine (List.pairwise_lt_finRange (n + 1)).imp fun {i j} hij => ?_
  simp [stage]
  grind

theorem stage_newRows {c : LatchCmd (InitAct n) (InitLatch n)} (h : c ∈ newRows n) :
    7 ≤ stage c ∧ stage c ≤ 8 + 2 * n := by
  simp only [newRows, List.mem_flatMap, List.mem_finRange, true_and, List.mem_cons,
    List.mem_map] at h
  obtain ⟨i, rfl | ⟨j, rfl⟩⟩ := h <;> simp only [stage] <;> omega

theorem staged : Latches.Staged stage (prog (n := n)) := by
  intro i
  rw [← List.pairwise_map]
  cases i using Fin.cases with
  | zero =>
    have hbefore : ∀ c ∈ newRows n, ∀ k, k ≤ 6 → k ≤ stage c := fun c hc k hk =>
      hk.trans (by have := stage_newRows hc; omega)
    have hbehind : ∀ c ∈ newRows n, ∀ k, 9 + 2 * n ≤ k → stage c ≤ k := fun c hc k hk =>
      le_trans (by have := stage_newRows hc; omega) hk
    simp only [prog_zero, main, List.map_append, List.map_cons, List.map_map, List.map_nil, stage,
      Function.comp_def, List.pairwise_append, sorted_newRows, List.mem_append, List.mem_map]
    refine ⟨⟨?_, trivial, ?_⟩, ?_, ?_⟩
    · simp
    · rintro a ha _ ⟨c, hc, rfl⟩
      exact hbefore c hc a (by simp at ha; omega)
    · simp
    · rintro a (ha | ⟨c, hc, rfl⟩) b hb
      · simp at ha hb
        omega
      · exact hbehind c hc b (by simp at hb; omega)
  | succ i =>
    simp only [prog_of_ne i.succ_ne_zero, thread, List.map_cons, List.map_nil, stage]
    simp
    omega

theorem owner {i : Fin (n + 1)} {a : InitAct n} (h : .act a ∈ prog i) :
    match a with
    | .startCpu j | .run j => j = i
    | _ => i = 0 := by
  cases i using Fin.cases with
  | zero =>
    simp [prog_zero, main, newRows] at h
    cases a <;> simp_all
  | succ i =>
    simp [prog_of_ne i.succ_ne_zero, thread] at h
    cases a <;> simp_all

theorem arrive_mem (l : InitLatch n) (hl : ∀ k, l ≠ .spawned k) (i : Fin (n + 1)) :
    .arrive l ∈ prog i ∧ .await l ∈ prog i := by
  cases i using Fin.cases with
  | zero => cases l <;> simp [prog_zero, main] at hl ⊢
  | succ i => cases l <;> simp [prog_of_ne i.succ_ne_zero, thread] at hl ⊢

inductive Performs (v : OsInit n) : InitAct n → OsInit n → Prop
  | setConf : Performs v .setConf { v with conf_ := some (n + 1) }
  | startCpu {i} (hconf : v.conf_.isSome) (hframe : v.returned = false) :
      Performs v (.startCpu i)
        { v with
          cpus := Function.update v.cpus i (some i)
          localCpu := Function.update v.localCpu i (some i) }
  | newQueues : Performs v .newQueues { v with table := true }
  | newRow {i} (htable : v.table) (hcpu : (v.cpus i).isSome) :
      Performs v (.newRow i) { v with rows := Function.update v.rows i true }
  | newQueue {i j a b} (hrow : v.rows i) (hi : v.cpus i = some a) (hj : v.cpus j = some b) :
      Performs v (.newQueue i j) { v with
        queues := Function.update v.queues i (Function.update (v.queues i) j (some (a, b))) }
  | return_ : Performs v .return_ { v with returned := true }
  | run {i c} (hlocal : v.localCpu i = some c) (hpoll : v.Pollable c) :
      Performs v (.run i) { v with running := Function.update v.running i (some c) }

theorem performs {v v' : OsInit n} {a : InitAct n} (h : perform a v = some v') :
    v.Performs a v' := by
  cases a with
  | setConf => cases h; exact .setConf
  | newQueues => cases h; exact .newQueues
  | return_ => cases h; exact .return_
  | startCpu i =>
    obtain ⟨⟨hconf, hframe⟩, ⟨⟩⟩ := Option.ite_none_right_eq_some.mp h
    exact .startCpu hconf hframe
  | newRow i =>
    obtain ⟨⟨htable, hcpu⟩, ⟨⟩⟩ := Option.ite_none_right_eq_some.mp h
    exact .newRow htable hcpu
  | newQueue i j =>
    obtain ⟨hrow, h⟩ := Option.ite_none_right_eq_some.mp h
    obtain ⟨a, hi, h⟩ := Option.bind_eq_some_iff.mp h
    obtain ⟨b, hj, rfl⟩ := Option.map_eq_some_iff.mp h
    exact .newQueue hrow hi hj
  | run i =>
    obtain ⟨c, hlocal, h⟩ := Option.bind_eq_some_iff.mp h
    obtain ⟨hpoll, ⟨⟩⟩ := Option.ite_none_right_eq_some.mp h
    exact .run hlocal hpoll

/-- Nothing that was set up is taken away. -/
structure Grows (v v' : OsInit n) : Prop where
  conf_ : v.conf_.isSome → v'.conf_.isSome
  cpus : ∀ i, (v.cpus i).isSome → (v'.cpus i).isSome
  localCpu : ∀ i, (v.localCpu i).isSome → (v'.localCpu i).isSome
  table : v.table → v'.table
  rows : ∀ i, v.rows i → v'.rows i
  queues : ∀ i j, (v.queues i j).isSome → (v'.queues i j).isSome
  running : ∀ i, (v.running i).isSome → (v'.running i).isSome

/-- What was set up is what its place says. -/
structure Named (v : OsInit n) : Prop where
  cpus : ∀ i a, v.cpus i = some a → a = i
  localCpu : ∀ i a, v.localCpu i = some a → a = i
  queues : ∀ i j p, v.queues i j = some p → p = (i, j)
  running : ∀ i a, v.running i = some a → a = i

theorem update_update {α : Type*} (f : Fin (n + 1) → Fin (n + 1) → α) (i j i' j' : Fin (n + 1))
    (x : α) : Function.update f i (Function.update (f i) j x) i' j' =
      if i' = i ∧ j' = j then x else f i' j' := by
  by_cases hi : i' = i
  · subst hi
    simp [Function.update_apply]
  · simp [hi]

theorem Performs.grows {v v' : OsInit n} {a : InitAct n} (h : v.Performs a v') : v.Grows v' := by
  cases h <;> constructor <;> grind [Function.update_apply, update_update]

theorem Performs.named {v v' : OsInit n} {a : InitAct n} (h : v.Performs a v') (hv : v.Named) :
    v'.Named := by
  obtain ⟨hcpus, hlocal, hqueues, hrunning⟩ := hv
  cases h <;> constructor <;> grind [Function.update_apply, update_update]

section Runs

variable {s : Latches (Fin (n + 1)) (InitAct n) (InitLatch n) (OsInit n)} {is : List (Fin (n + 1))}
  {i j : Fin (n + 1)} {a : InitAct n} {cs : List (LatchCmd (InitAct n) (InitLatch n))}

theorem sound (h : (machine n).Reaches is s) : s.Sound prog := Latches.sound expected h

/-- What an act sets up is there when the act is done. -/
theorem set_up {P : OsInit n → Prop} (hdo : ∀ v v', Performs v a v' → P v')
    (hkeep : ∀ v v', Grows v v' → P v → P v') (h : (machine n).Reaches is s)
    (ha : .act a ∈ prog i) (hno : .act a ∉ s.rest i) : P s.shared :=
  Latches.effect (fun v v' hv => hdo v v' (performs hv))
    (fun _ v v' hP hv => hkeep v v' (performs hv).grows hP) h ha hno

theorem named (h : (machine n).Reaches is s) : s.shared.Named :=
  Latches.shared_invariant (v := init) ⟨nofun, nofun, nofun, nofun⟩
    (fun _ _ _ hv hp => (performs hp).named hv) h

variable {d : LatchCmd (InitAct n) (InitLatch n)}

/-- Nobody starts before `conf_` is set and `cpus_` is resized. -/
theorem conf_set (h : (machine n).Reaches is s) (hd : s.At prog i d) (hstage : 2 < stage d) :
    .act .setConf ∉ s.rest 0 := by
  by_cases hi : i = 0
  · subst hi
    exact hd.earlier staged (Nat.zero_lt_of_lt hstage)
  · refine (sound h).synchronized staged (l := .spawned i) ?_ ?_ (Nat.zero_lt_one) hstage hd
    · obtain ⟨k, rfl⟩ := Fin.exists_succ_eq.mpr hi
      simp [prog_zero, main]
    · simp [prog_of_ne hi, thread]

theorem cpus_constructed (h : (machine n).Reaches is s) (hd : s.At prog i d)
    (hstage : 5 < stage d) (j : Fin (n + 1)) : .act (.startCpu j) ∉ s.rest j := by
  have hl := arrive_mem (n := n) .cpuConstructed nofun
  exact (sound h).synchronized staged (hl j).1 (hl i).2 (Nat.lt_succ_self 3) hstage hd

theorem queues_constructed (h : (machine n).Reaches is s) (hd : s.At prog i d)
    (hstage : 10 + 2 * n < stage d) {c : LatchCmd (InitAct n) (InitLatch n)}
    (hc : stage c < 9 + 2 * n) : c ∉ s.rest 0 := by
  have hl := arrive_mem (n := n) .queueConstructed nofun
  exact (sound h).synchronized staged (hl 0).1 (hl i).2 hc hstage hd

theorem startCpu_mem (i : Fin (n + 1)) : .act (.startCpu i) ∈ prog i := by
  cases i using Fin.cases with
  | zero => simp [prog_zero, main]
  | succ i => simp [prog_of_ne i.succ_ne_zero, thread]

theorem main_mem {a : InitAct n} (ha : match a with | .startCpu _ | .run _ => False | _ => True) :
    .act a ∈ prog (n := n) 0 := by
  cases a <;> simp [prog_zero, main, newRows] at ha ⊢

theorem conf_isSome (h : (machine n).Reaches is s) (hno : .act .setConf ∉ s.rest 0) :
    s.shared.conf_.isSome :=
  set_up (P := fun v => v.conf_.isSome) (fun _ _ hv => by cases hv; rfl) (fun _ _ hg => hg.conf_) h
    (main_mem trivial) hno

theorem cpu_isSome (h : (machine n).Reaches is s) (hno : .act (.startCpu i) ∉ s.rest i) :
    (s.shared.cpus i).isSome ∧ (s.shared.localCpu i).isSome :=
  set_up (P := fun v => (v.cpus i).isSome ∧ (v.localCpu i).isSome)
    (fun _ _ hv => by cases hv; simp) (fun _ _ hg => And.imp (hg.cpus i) (hg.localCpu i)) h
    (startCpu_mem i) hno

theorem table_true (h : (machine n).Reaches is s) (hno : .act .newQueues ∉ s.rest 0) :
    s.shared.table :=
  set_up (P := fun v => v.table) (fun _ _ hv => by cases hv; rfl) (fun _ _ hg => hg.table) h
    (main_mem trivial) hno

theorem row_true (h : (machine n).Reaches is s) (hno : .act (.newRow i) ∉ s.rest 0) :
    s.shared.rows i :=
  set_up (P := fun v => v.rows i) (fun _ _ hv => by cases hv; simp) (fun _ _ hg => hg.rows i) h
    (main_mem trivial) hno

theorem queue_isSome (h : (machine n).Reaches is s) (hno : .act (.newQueue i j) ∉ s.rest 0) :
    (s.shared.queues i j).isSome :=
  set_up (P := fun v => (v.queues i j).isSome) (fun _ _ hv => by cases hv; simp)
    (fun _ _ hg => hg.queues i j) h (main_mem trivial) hno

theorem running_isSome (h : (machine n).Reaches is s) (hmem : .act (.run i) ∈ prog i)
    (hno : .act (.run i) ∉ s.rest i) : (s.shared.running i).isSome :=
  set_up (P := fun v => (v.running i).isSome) (fun _ _ hv => by cases hv; simp)
    (fun _ _ hg => hg.running i) h hmem hno

/-- `conf` is the caller's until every thread has done `start_cpu_`. -/
theorem not_returned (h : (machine n).Reaches is s) (hmem : .act (.startCpu i) ∈ s.rest i) :
    s.shared.returned = false := by
  have hreturned : ∀ b (v v' : OsInit n), ¬v.returned = true → perform b v = some v' →
      v'.returned = true → b = .return_ := by
    intro b v v' hv hp hv'
    cases performs hp with
    | return_ => rfl
    | _ => exact absurd hv' hv
  by_contra hne
  obtain ⟨j, hj⟩ := Latches.cause (P := fun v => v.returned = true) (v := init)
    Bool.false_ne_true hreturned expected h (Bool.not_eq_false _ ▸ hne)
  exact cpus_constructed h hj (by simp only [stage]; omega) i hmem

theorem pollable (h : (machine n).Reaches is s) (hd : s.At prog i d)
    (hstage : 10 + 2 * n < stage d) (j : Fin (n + 1)) : s.shared.Pollable j := by
  have hdone {c : LatchCmd (InitAct n) (InitLatch n)} := queues_constructed h hd hstage (c := c)
  have hrow (k : Fin (n + 1)) : s.shared.rows k := row_true h (hdone (by simp only [stage]; omega))
  have hqueue (k k' : Fin (n + 1)) : (s.shared.queues k k').isSome :=
    queue_isSome h (hdone (by simp only [stage]; omega))
  exact ⟨conf_isSome h (hdone (by simp only [stage]; omega)),
    table_true h (hdone (by simp only [stage]; omega)),
    fun k _ => ⟨⟨hrow j, hqueue j k⟩, hrow k, hqueue k j⟩⟩

/-- Whatever a thread is at is defined: no assertion fails, nothing is read that is not made yet,
and `conf` is not read when `init` has returned. -/
theorem startup_safe (h : (machine n).Reaches is s) (hi : s.rest i = .act a :: cs) :
    (perform a s.shared).isSome := by
  have hs := sound h
  have hat := hs.at_head hi
  have hmem : .act a ∈ s.rest i := hi ▸ List.mem_cons_self
  have howner := owner ((hs.suffix i).subset hmem)
  cases a with
  | setConf | newQueues | return_ => rfl
  | startCpu j =>
    obtain rfl : j = i := howner
    have hconf := conf_isSome h (conf_set h hat (by simp only [stage]; omega))
    rw [perform, if_pos ⟨hconf, not_returned h hmem⟩]
    rfl
  | newRow j =>
    obtain rfl : i = 0 := howner
    have htable := table_true h (hat.earlier staged (by simp only [stage]; omega))
    have hcpu := cpu_isSome h (cpus_constructed h hat (by simp only [stage]; omega) j)
    rw [perform, if_pos ⟨htable, hcpu.1⟩]
    rfl
  | newQueue j k =>
    obtain rfl : i = 0 := howner
    have hrow := row_true (i := j) h (hat.earlier staged (by simp only [stage]; omega))
    have hcpu (k : Fin (n + 1)) :=
      (cpu_isSome h (cpus_constructed h hat (by simp only [stage]; omega) k)).1
    obtain ⟨b, hb⟩ := Option.isSome_iff_exists.mp (hcpu j)
    obtain ⟨c, hc⟩ := Option.isSome_iff_exists.mp (hcpu k)
    rw [perform, if_pos hrow, hb, hc]
    rfl
  | run j =>
    obtain rfl : j = i := howner
    have hlocal := (cpu_isSome h (cpus_constructed h hat (by simp only [stage]; omega) j)).2
    obtain ⟨c, hc⟩ := Option.isSome_iff_exists.mp hlocal
    rw [perform, hc, Option.bind_some, if_pos (pollable h hat (by simp only [stage]; omega) c)]
    rfl

theorem startup_safe_spawned : ∃ s cs, (machine 1).Reaches [0, 0, 1] s ∧
    s.rest 1 = .act (.startCpu 1) :: cs ∧ (perform (.startCpu 1) s.shared).isSome :=
  have h : (machine 1).Reaches [0, 0, 1] _ := rfl
  ⟨_, _, h, rfl, startup_safe h (i := 1) rfl⟩

theorem length_prog : ∑ i, (prog (n := n) i).length = (n + 1) * (n + 2) + 10 * n + 11 := by
  rw [Fin.sum_univ_succ]
  simp [prog, main, thread, newRows, List.length_flatMap]
  ring

theorem run_mem (i : Fin (n + 1)) : .act (.run i) ∈ prog i := by
  cases i using Fin.cases with
  | zero => simp [prog_zero, main]
  | succ i => simp [prog_of_ne i.succ_ne_zero, thread]

/-- Every order of the steps comes to its end, and then each thread runs its own CPU, between
queues that are all made. -/
theorem startup_completes (h : (machine n).Reaches is s) :
    is.length ≤ (n + 1) * (n + 2) + 10 * n + 11 ∧
      ((∀ i, (machine n).step s i = none) →
        ∀ i, s.shared.running i = some i ∧ s.shared.cpus i = some i ∧
          ∀ j, s.shared.queues i j = some (i, j)) := by
  refine ⟨?_, fun hstuck i => ?_⟩
  · have hlength := Latches.length_run h
    rw [length_prog] at hlength
    omega
  · have hrest (i : Fin (n + 1)) : s.rest i = [] :=
      (sound h).finished_of_stuck
        (staged.ranked fun l => by cases l <;> simp only [stage] <;> omega)
        (fun i a cs hi => startup_safe h hi) hstuck i
    have hdone (i : Fin (n + 1)) (c : LatchCmd (InitAct n) (InitLatch n)) : c ∉ s.rest i := by
      rw [hrest i]
      exact List.not_mem_nil
    obtain ⟨c, hrunning⟩ := Option.isSome_iff_exists.mp
      (running_isSome h (run_mem i) (hdone i _))
    obtain ⟨b, hcpu⟩ := Option.isSome_iff_exists.mp (cpu_isSome h (hdone i _)).1
    refine ⟨?_, ?_, fun j => ?_⟩
    · rw [hrunning, (named h).running i c hrunning]
    · rw [hcpu, (named h).cpus i b hcpu]
    · obtain ⟨p, hqueue⟩ := Option.isSome_iff_exists.mp (queue_isSome (j := j) h (hdone 0 _))
      rw [hqueue, (named h).queues i j p hqueue]

/-- Two CPUs. The main thread waits until the other CPU is constructed, and the other thread waits
for the queues. -/
theorem startup_completes_two : ∃ s, (machine 1).Reaches
      ([0, 0, 1, 0, 0, 1, 1, 1, 1] ++ List.replicate 9 0 ++ [1, 0, 1, 0, 0, 0, 0, 1, 1]) s ∧
    ∀ i, s.shared.running i = some i ∧ s.shared.cpus i = some i ∧
      ∀ j, s.shared.queues i j = some (i, j) := by
  have hrun : ((machine 1).exec (machine 1).init
        ([0, 0, 1, 0, 0, 1, 1, 1, 1] ++ List.replicate 9 0 ++ [1, 0, 1, 0, 0, 0, 0, 1, 1])).map
      (fun s => decide (∀ i, (s.rest i).length = 0)) = some true := by decide +kernel
  obtain ⟨s, h, hrest⟩ := Option.map_eq_some_iff.mp hrun
  have hstuck (i : Fin (1 + 1)) : (machine 1).step s i = none := by
    have hi := List.length_eq_zero_iff.mp (of_decide_eq_true hrest i)
    simp only [machine, Latches.machine, Latches.step, hi]
  exact ⟨s, h, (startup_completes h).2 hstuck⟩

/-- Two threads are never about to use one object at the same time when one of them writes it. -/
theorem startup_race_free (h : (machine n).Reaches is s) (hij : i ≠ j)
    (hi : s.rest i = .act a :: cs) {b : InitAct n} {ds : List (LatchCmd (InitAct n) (InitLatch n))}
    (hj : s.rest j = .act b :: ds) {x : InitLoc n} (hw : a.writes x) :
    ¬(b.reads x ∨ b.writes x) := by
  have hs := sound h
  have hati := hs.at_head hi
  have hatj := hs.at_head hj
  have hmemi : .act a ∈ s.rest i := hi ▸ List.mem_cons_self
  have hmemj : .act b ∈ s.rest j := hj ▸ List.mem_cons_self
  have howni := owner ((hs.suffix i).subset hmemi)
  have hownj := owner ((hs.suffix j).subset hmemj)
  intro hb
  cases a with
  | run k => cases hw
  | setConf =>
    obtain rfl : i = 0 := howni
    cases b with
    | startCpu k | run k => exact conf_set h hatj (by simp only [stage]; omega) hmemi
    | _ => exact hij hownj.symm
  | startCpu k =>
    obtain rfl : k = i := howni
    cases b with
    | setConf =>
      obtain rfl : j = 0 := hownj
      exact conf_set h hati (by simp only [stage]; omega) hmemj
    | newRow l | newQueue l m =>
      exact cpus_constructed h hatj (by simp only [stage]; omega) k hmemi
    | startCpu l =>
      obtain rfl : l = j := hownj
      cases x <;> simp [InitAct.reads, InitAct.writes] at hw hb
      exact hij (hw.symm.trans hb)
    | newQueues | return_ | run l => cases x <;> simp [InitAct.reads, InitAct.writes] at hw hb
  | newQueues | newRow k | newQueue k l =>
    obtain rfl : i = 0 := howni
    cases b with
    | startCpu m => cases x <;> simp [InitAct.reads, InitAct.writes] at hw hb
    | run m =>
      exact queues_constructed h hatj (by simp only [stage]; omega) (by simp only [stage]; omega)
        hmemi
    | _ => exact hij hownj.symm
  | return_ =>
    obtain rfl : i = 0 := howni
    cases b with
    | startCpu m =>
      obtain rfl : m = j := hownj
      exact cpus_constructed h hati (by simp only [stage]; omega) m hmemj
    | run m => cases x <;> simp [InitAct.reads, InitAct.writes] at hw hb
    | _ => exact hij hownj.symm

theorem startup_race_free_started : ∃ s cs ds, (machine 1).Reaches [0, 0, 1] s ∧
    s.rest 0 = .act (.startCpu 0) :: cs ∧ s.rest 1 = .act (.startCpu 1) :: ds ∧
    ¬((InitAct.startCpu (n := 1) 1).reads (.cpu 0) ∨
      (InitAct.startCpu (n := 1) 1).writes (.cpu 0)) :=
  have h : (machine 1).Reaches [0, 0, 1] _ := rfl
  ⟨_, _, _, h, rfl, rfl, startup_race_free h (i := 0) (j := 1) Fin.zero_ne_one rfl rfl
    (show InitAct.writes (.startCpu 0) (.cpu 0) from rfl)⟩

end Runs

end OsInit
end Miniss
