import Miniss.Lib.Machine
import Miniss.Lib.Lists
import Mathlib.Data.List.Nodup

/-! `File` as the owner of a descriptor: what moves, assignments, `close` and the destructor
do to the descriptors that `open_file` has handed out. -/
namespace Miniss

/-- A null pointer is `none`; a CPU and its `File_io` go by the same number. -/
structure File where
  cpu_ : Option Nat
  fileIo_ : Option Nat
  fd_ : Int

/-- What `std::exchange` leaves behind in a move constructor. -/
def File.movedFrom : File := ⟨none, none, -1⟩

def File.descriptor (f : File) : Option Int := if f.fd_ = -1 then none else some f.fd_

/-- `objects` holds each `File` by the order of construction, none once it is destroyed.
`table` are the open descriptors: a number, and which of the descriptors handed out it stands
for. `pending` are the calls of `::close` that a worker still has to make, with their CPU, and
`submitted` all of them so far, each with what its number stood for. -/
structure FileObjects where
  objects : List (Option File)
  table : Int → Option Nat
  opened : Nat
  pending : List (Nat × Int)
  submitted : List (Int × Option Nat)

/-- `::open` has returned a number to `CPU::open_file`, an operation on a `File`, or a worker
calls `::close`. -/
inductive FileAct where
  | openFile (cpu : Nat) (fd : Int)
  | moveConstruct (other : Nat)
  | moveAssign (this other : Nat)
  | close (this : Nat)
  | destroy (this : Nat)
  | execClose (k : Nat)

namespace FileObjects

def init : FileObjects := ⟨[], fun _ => none, 0, [], []⟩

def file (s : FileObjects) (i : Nat) : Option File := s.objects[i]?.join

/-- The continuation of `CPU::open_file`; on a negative number the call has thrown. The number
is not one of an open descriptor. -/
def openFile (s : FileObjects) (cpu : Nat) (fd : Int) : Option FileObjects :=
  if fd < 0 then some s
  else
    match s.table fd with
    | some _ => none
    | none => some
        { s with
          objects := s.objects ++ [some ⟨some cpu, some cpu, fd⟩]
          table := Function.update s.table fd (some s.opened)
          opened := s.opened + 1 }

def moveConstruct (s : FileObjects) (other : Nat) : Option FileObjects :=
  (s.file other).map fun f =>
    { s with objects := s.objects.set other (some .movedFrom) ++ [some f] }

/-- `operator=(File&& other)`, which swaps the fields. -/
def moveAssign (s : FileObjects) (this other : Nat) : Option FileObjects :=
  match s.file this, s.file other with
  | some f, some g =>
    some { s with objects := (s.objects.set this (some g)).set other (some f) }
  | _, _ => none

/-- `File::close`; there is no call on a null `cpu_`. -/
def close (s : FileObjects) (this : Nat) : Option FileObjects :=
  match s.file this with
  | none => none
  | some f =>
    if f.fd_ = -1 then some s
    else f.cpu_.map fun cpu =>
      { s with
        objects := s.objects.set this (some { f with fd_ := -1 })
        pending := s.pending ++ [(cpu, f.fd_)]
        submitted := s.submitted ++ [(f.fd_, s.table f.fd_)] }

def remove (s : FileObjects) (this : Nat) : FileObjects :=
  { s with objects := s.objects.set this none }

def destroy (s : FileObjects) (this : Nat) : Option FileObjects :=
  match s.file this with
  | none => none
  | some f =>
    if f.fd_ = -1 then some (s.remove this) else (s.close this).map (·.remove this)

/-- A worker calls `::close`, which frees the number. -/
def execClose (s : FileObjects) (k : Nat) : Option FileObjects :=
  s.pending[k]?.map fun c =>
    { s with table := Function.update s.table c.2 none, pending := s.pending.eraseIdx k }

def step (s : FileObjects) : FileAct → Option FileObjects
  | .openFile cpu fd => s.openFile cpu fd
  | .moveConstruct other => s.moveConstruct other
  | .moveAssign this other => s.moveAssign this other
  | .close this => s.close this
  | .destroy this => s.destroy this
  | .execClose k => s.execClose k

def held (s : FileObjects) : List Int := s.objects.filterMap fun o => o.bind File.descriptor

/-- How many live files have the `k`-th descriptor that was handed out. -/
def holders (s : FileObjects) (k : Nat) : Nat := (s.held.map s.table).count (some k)

/-- How many calls of `::close` were submitted for it. -/
def closeCalls (s : FileObjects) (k : Nat) : Nat := (s.submitted.map Prod.snd).count (some k)

end FileObjects

def fileMachine : Machine FileObjects FileAct where
  init := .init
  step := FileObjects.step

namespace FileObjects

theorem file_eq_some {s : FileObjects} {i : Nat} {f : File} :
    s.file i = some f ↔ s.objects[i]? = some (some f) := Option.join_eq_some_iff

/-- What the descriptors of the live files and those of the pending calls have in common, and
what became of all that were handed out. -/
structure Owned (s : FileObjects) : Prop where
  distinct : (s.held ++ s.pending.map Prod.snd).Nodup
  named : ∀ fd ∈ s.held ++ s.pending.map Prod.snd, s.table fd ≠ none
  conserved : (s.held.map s.table ++ s.submitted.map Prod.snd).Perm
    ((List.range s.opened).map some)
  positive : ∀ fd ∈ s.held, 0 ≤ fd
  closes : ∀ c ∈ s.submitted, 0 ≤ c.1
  hasCpu : ∀ f : File, some f ∈ s.objects → f.fd_ ≠ -1 → ∃ cpu, f.cpu_ = some cpu

theorem init_owned : init.Owned where
  distinct := List.nodup_nil
  named := nofun
  conserved := List.Perm.nil
  positive := nofun
  closes := nofun
  hasCpu := nofun

theorem Owned.of_perm {s : FileObjects} (h : s.Owned) {objects : List (Option File)}
    (hp : (held { s with objects := objects }).Perm s.held)
    (hcpu : ∀ f : File, some f ∈ objects → f.fd_ ≠ -1 → ∃ cpu, f.cpu_ = some cpu) :
    Owned { s with objects := objects } where
  distinct := (hp.append_right _).nodup_iff.mpr h.distinct
  named fd hfd := h.named fd ((hp.append_right _).mem_iff.mp hfd)
  conserved := ((hp.map _).append_right _).trans h.conserved
  positive fd hfd := h.positive fd (hp.mem_iff.mp hfd)
  closes := h.closes
  hasCpu := hcpu

theorem hasCpu_set {s : FileObjects} (h : s.Owned) {i : Nat} {g : File}
    (hg : g.fd_ ≠ -1 → ∃ cpu, g.cpu_ = some cpu) :
    ∀ f : File, some f ∈ s.objects.set i (some g) → f.fd_ ≠ -1 → ∃ cpu, f.cpu_ = some cpu := by
  intro f hf
  obtain hf | hf := List.mem_or_eq_of_mem_set hf
  · exact h.hasCpu f hf
  · cases hf
    exact hg

theorem Owned.openFile {s t : FileObjects} (h : s.Owned) {cpu : Nat} {fd : Int}
    (ht : s.openFile cpu fd = some t) : t.Owned := by
  unfold FileObjects.openFile at ht
  split at ht
  · cases ht
    exact h
  case isFalse hneg =>
    split at ht
    · cases ht
    case h_2 hfree =>
      cases ht
      have hfd : File.descriptor ⟨some cpu, some cpu, fd⟩ = some fd := if_neg (by simp; omega)
      have hheld : held
          { s with
            objects := s.objects ++ [some ⟨some cpu, some cpu, fd⟩]
            table := Function.update s.table fd (some s.opened)
            opened := s.opened + 1 } = s.held ++ [fd] := by
        simp [held, List.filterMap_append, hfd]
      -- an open descriptor keeps its meaning, as the new number is none of theirs
      have hne : ∀ d ∈ s.held ++ s.pending.map Prod.snd, d ≠ fd := by
        rintro d hd rfl
        exact h.named d hd hfree
      have hmap : s.held.map (Function.update s.table fd (some s.opened)) =
          s.held.map s.table := List.map_congr_left fun d hd =>
        Function.update_of_ne (hne d (List.mem_append_left _ hd)) _ _
      have hperm : ((s.held ++ [fd]) ++ s.pending.map Prod.snd).Perm
          (fd :: (s.held ++ s.pending.map Prod.snd)) := by
        rw [List.append_assoc, List.singleton_append]
        exact List.perm_middle
      refine ⟨?_, fun d hd => ?_, ?_, fun d hd => ?_, h.closes, fun f hf => ?_⟩
      · rw [hheld, hperm.nodup_iff]
        exact List.nodup_cons.mpr ⟨fun hmem => hne fd hmem rfl, h.distinct⟩
      · rw [hheld, hperm.mem_iff, List.mem_cons] at hd
        change Function.update s.table fd (some s.opened) d ≠ none
        obtain rfl | hd := hd
        · rw [Function.update_self]
          exact Option.some_ne_none _
        · rw [Function.update_of_ne (hne d hd)]
          exact h.named d hd
      · rw [hheld, List.map_append, hmap, List.range_succ, List.map_append, List.append_assoc]
        change (_ ++ ([Function.update s.table fd (some s.opened) fd] ++ _)).Perm _
        rw [Function.update_self]
        exact (List.perm_append_comm.append_left _).trans
          ((List.append_assoc ..).symm ▸ h.conserved.append_right _)
      · rw [hheld, List.mem_append, List.mem_singleton] at hd
        obtain hd | rfl := hd
        · exact h.positive d hd
        · exact Int.not_lt.mp hneg
      · obtain hf | hf := List.mem_append.mp hf
        · exact h.hasCpu f hf
        · cases List.mem_singleton.mp hf
          exact fun _ => ⟨cpu, rfl⟩

theorem Owned.moveConstruct {s t : FileObjects} (h : s.Owned) {other : Nat}
    (ht : s.moveConstruct other = some t) : t.Owned := by
  obtain ⟨f, hf, rfl⟩ := Option.map_eq_some_iff.mp ht
  have hget := file_eq_some.mp hf
  obtain ⟨rest, hold, hnew⟩ := filterMap_set_perm (fun o => o.bind File.descriptor) hget
  refine h.of_perm ?_ fun g hg => ?_
  · have hlast : [some f].filterMap (fun o => o.bind File.descriptor) = f.descriptor.toList := by
      cases hd : f.descriptor <;> simp [hd]
    change ((s.objects.set other (some .movedFrom) ++ [some f]).filterMap _).Perm _
    rw [List.filterMap_append, hlast]
    exact ((hnew (some .movedFrom)).append_right _).trans
      (List.perm_append_comm.trans hold.symm)
  · obtain hg | hg := List.mem_append.mp hg
    · exact hasCpu_set h (fun hfd => absurd rfl hfd) g hg
    · cases List.mem_singleton.mp hg
      exact h.hasCpu f (List.mem_of_getElem? hget)

theorem Owned.moveAssign {s t : FileObjects} (h : s.Owned) {this other : Nat}
    (ht : s.moveAssign this other = some t) : t.Owned := by
  unfold FileObjects.moveAssign at ht
  split at ht
  case h_2 => cases ht
  case h_1 f g hf hg =>
    cases ht
    obtain ⟨hthis, hf⟩ := List.getElem?_eq_some_iff.mp (file_eq_some.mp hf)
    obtain ⟨hother, hg⟩ := List.getElem?_eq_some_iff.mp (file_eq_some.mp hg)
    have hswap := List.set_set_perm hthis hother
    rw [hf, hg] at hswap
    exact h.of_perm (hswap.filterMap _) fun e he => h.hasCpu e (hswap.mem_iff.mp he)

theorem close_cases {s t : FileObjects} {this : Nat} (ht : s.close this = some t) :
    ∃ f, s.file this = some f ∧
      (f.fd_ = -1 ∧ t = s ∨ f.fd_ ≠ -1 ∧ ∃ cpu, t =
        { s with
          objects := s.objects.set this (some { f with fd_ := -1 })
          pending := s.pending ++ [(cpu, f.fd_)]
          submitted := s.submitted ++ [(f.fd_, s.table f.fd_)] }) := by
  unfold close at ht
  split at ht
  case h_1 => cases ht
  case h_2 f hf =>
    refine ⟨f, hf, ?_⟩
    split at ht
    case isTrue hfd =>
      cases ht
      exact .inl ⟨hfd, rfl⟩
    case isFalse hfd =>
      obtain ⟨cpu, -, rfl⟩ := Option.map_eq_some_iff.mp ht
      exact .inr ⟨hfd, cpu, rfl⟩

theorem Owned.close {s t : FileObjects} (h : s.Owned) {this : Nat}
    (ht : s.close this = some t) : t.Owned := by
  obtain ⟨f, hf, ⟨-, rfl⟩ | ⟨hfd, cpu, rfl⟩⟩ := close_cases ht
  · exact h
  have hget := file_eq_some.mp hf
  obtain ⟨rest, hold, hnew⟩ := filterMap_set_perm (fun o => o.bind File.descriptor) hget
  have hheld : s.held.Perm (f.fd_ :: rest) := by
    have hd : f.descriptor = some f.fd_ := if_neg hfd
    simpa [held, hd] using hold
  have hleft : ((s.objects.set this (some { f with fd_ := -1 })).filterMap
      fun o => o.bind File.descriptor).Perm rest := hnew _
  -- the descriptor passes from the file to the call
  have hpass {β : Type} (g : Int → β) (l : List β) :
      (rest.map g ++ (l ++ [g f.fd_])).Perm (s.held.map g ++ l) := by
    rw [← List.append_assoc]
    exact (List.perm_append_singleton ..).trans ((hheld.map g).symm.append_right l)
  have hall := hpass id (s.pending.map Prod.snd)
  rw [List.map_id, List.map_id, id] at hall
  have hsub (d : Int) (hd : d ∈ rest) : d ∈ s.held :=
    hheld.mem_iff.mpr (List.mem_cons_of_mem _ hd)
  have hpend : ((s.pending ++ [(cpu, f.fd_)]).map Prod.snd) =
      s.pending.map Prod.snd ++ [f.fd_] := by simp
  have hsubm : ((s.submitted ++ [(f.fd_, s.table f.fd_)]).map Prod.snd) =
      s.submitted.map Prod.snd ++ [s.table f.fd_] := by simp
  have hfds := (hleft.append_right _).trans hall
  rw [← hpend] at hfds
  have hnames := ((hleft.map s.table).append_right _).trans
    (hpass s.table (s.submitted.map Prod.snd))
  rw [← hsubm] at hnames
  constructor
  · exact hfds.nodup_iff.mpr h.distinct
  · exact fun d hd => h.named d (hfds.mem_iff.mp hd)
  · exact hnames.trans h.conserved
  · exact fun d hd => h.positive d (hsub d (hleft.mem_iff.mp hd))
  · refine forall_mem_concat h.closes (h.positive f.fd_ ?_)
    exact hheld.mem_iff.mpr List.mem_cons_self
  · exact hasCpu_set h fun hne => absurd rfl hne

theorem Owned.remove {s : FileObjects} (h : s.Owned) {this : Nat} {f : File}
    (hf : s.file this = some f) (hfd : f.fd_ = -1) : (s.remove this).Owned := by
  obtain ⟨rest, hold, hnew⟩ :=
    filterMap_set_perm (fun o => o.bind File.descriptor) (file_eq_some.mp hf)
  have hd : f.descriptor = none := if_pos hfd
  refine h.of_perm ((hnew none).trans ?_) fun g hg => ?_
  · have hold : s.held.Perm rest := by simpa [held, hd] using hold
    exact hold.symm
  · obtain hg | hg := List.mem_or_eq_of_mem_set hg
    · exact h.hasCpu g hg
    · cases hg

theorem Owned.destroy {s t : FileObjects} (h : s.Owned) {this : Nat}
    (ht : s.destroy this = some t) : t.Owned := by
  unfold FileObjects.destroy at ht
  split at ht
  case h_1 => cases ht
  case h_2 f hf =>
    split at ht
    case isTrue hfd =>
      cases ht
      exact h.remove hf hfd
    case isFalse hfd =>
      obtain ⟨u, hu, rfl⟩ := Option.map_eq_some_iff.mp ht
      have hclosed := h.close hu
      obtain ⟨g, hg, ⟨hgfd, -⟩ | ⟨-, cpu, rfl⟩⟩ := close_cases hu
      · exact absurd hgfd (Option.some.inj (hf.symm.trans hg) ▸ hfd)
      · refine hclosed.remove (f := { g with fd_ := -1 }) (file_eq_some.mpr ?_) rfl
        exact List.getElem?_set_self (List.getElem?_eq_some_iff.mp (file_eq_some.mp hg)).1

theorem Owned.execClose {s t : FileObjects} (h : s.Owned) {k : Nat}
    (ht : s.execClose k = some t) : t.Owned := by
  obtain ⟨c, hc, rfl⟩ := Option.map_eq_some_iff.mp ht
  obtain ⟨pre, post, hl, herase, -⟩ := exists_split_of_getElem? hc
  have hperm : (s.held ++ s.pending.map Prod.snd).Perm
      (c.2 :: (s.held ++ (s.pending.eraseIdx k).map Prod.snd)) := by
    rw [herase, hl, List.map_append, List.map_cons, List.map_append, ← List.append_assoc,
      ← List.append_assoc]
    exact List.perm_middle
  have hnodup := List.nodup_cons.mp (hperm.nodup_iff.mp h.distinct)
  have hne : ∀ d ∈ s.held ++ (s.pending.eraseIdx k).map Prod.snd, d ≠ c.2 := by
    rintro d hd rfl
    exact hnodup.1 hd
  have hmap : s.held.map (Function.update s.table c.2 none) = s.held.map s.table :=
    List.map_congr_left fun d hd =>
      Function.update_of_ne (hne d (List.mem_append_left _ hd)) _ _
  refine ⟨hnodup.2, fun d hd => ?_, ?_, h.positive, h.closes, h.hasCpu⟩
  · change Function.update s.table c.2 none d ≠ none
    rw [Function.update_of_ne (hne d hd)]
    exact h.named d (hperm.mem_iff.mpr (List.mem_cons_of_mem _ hd))
  · change (s.held.map (Function.update s.table c.2 none) ++ _).Perm _
    rw [hmap]
    exact h.conserved

theorem Owned.step {s t : FileObjects} {a : FileAct} (h : s.Owned) (ht : s.step a = some t) :
    t.Owned := by
  cases a with
  | openFile cpu fd => exact h.openFile ht
  | moveConstruct other => exact h.moveConstruct ht
  | moveAssign this other => exact h.moveAssign ht
  | close this => exact h.close ht
  | destroy this => exact h.destroy ht
  | execClose k => exact h.execClose ht

end FileObjects

open FileObjects

theorem files_owned {as : List FileAct} {s : FileObjects} (h : fileMachine.Reaches as s) :
    s.Owned :=
  h.invariant init_owned fun _ _ _ ho hst => ho.step hst

/-- `cpu_` is not null where `close` calls it: every live file can be closed. -/
theorem file_close_possible {as : List FileAct} {s : FileObjects}
    (h : fileMachine.Reaches as s) {this : Nat} {f : File} (hf : s.file this = some f) :
    ∃ t, s.close this = some t := by
  simp only [FileObjects.close, hf]
  split_ifs with hfd
  · exact ⟨s, rfl⟩
  · obtain ⟨cpu, hcpu⟩ := (files_owned h).hasCpu f
      (List.mem_of_getElem? (file_eq_some.mp hf)) hfd
    exact ⟨_, by rw [hcpu]; rfl⟩

/-- In every sequence of operations each descriptor that was handed out is held by one live
file, or one `::close` was submitted for it. No call is for a file without a descriptor, and
when no file is left, each descriptor was submitted for closing once. -/
theorem descriptors_owned_or_closed_once {as : List FileAct} {s : FileObjects}
    (h : fileMachine.Reaches as s) :
    (∀ k < s.opened,
      (s.holders k = 1 ∧ s.closeCalls k = 0) ∨ (s.holders k = 0 ∧ s.closeCalls k = 1)) ∧
    (∀ c ∈ s.submitted, c.1 ≠ -1 ∧ ∃ k < s.opened, c.2 = some k) ∧
    ((∀ o ∈ s.objects, o = none) → ∀ k < s.opened, s.closeCalls k = 1) := by
  have ho := files_owned h
  have hone (k : Nat) (hk : k < s.opened) : s.holders k + s.closeCalls k = 1 := by
    have hnd : ((List.range s.opened).map some).Nodup :=
      List.nodup_range.map fun _ _ he => Option.some.inj he
    rw [holders, closeCalls, ← List.count_append, ho.conserved.count_eq]
    exact List.count_eq_one_of_mem hnd (List.mem_map_of_mem (List.mem_range.mpr hk))
  refine ⟨fun k hk => ?_, fun c hc => ⟨?_, ?_⟩, fun hgone k hk => ?_⟩
  · have := hone k hk
    omega
  · have := ho.closes c hc
    omega
  · have hmem : c.2 ∈ (List.range s.opened).map some :=
      ho.conserved.mem_iff.mp (List.mem_append_right _ (List.mem_map_of_mem hc))
    obtain ⟨k, hk, he⟩ := List.mem_map.mp hmem
    exact ⟨k, List.mem_range.mp hk, he.symm⟩
  · have hheld : s.held = [] := by
      refine List.filterMap_eq_nil_iff.mpr fun o hmem => ?_
      rw [hgone o hmem]
      rfl
    have := hone k hk
    rw [holders, hheld] at this
    simpa using this

/-- A file is moved, the new one assigned over an open file and closed; its number comes back
with the next file. The last two files are destroyed with their descriptors. -/
def reuseRun : List FileAct :=
  [.openFile 0 5, .openFile 0 6, .moveConstruct 0, .moveAssign 1 2, .moveAssign 1 1, .close 1,
    .destroy 1, .execClose 0, .openFile 0 5, .destroy 2, .destroy 3, .destroy 0]

theorem descriptors_owned_or_closed_once_reuse : ∃ s : FileObjects,
    fileMachine.Reaches reuseRun s ∧ s.opened = 3 ∧ s.pending = [(0, 6), (0, 5)] ∧
      (∀ o ∈ s.objects, o = none) ∧ ∀ k < 3, s.closeCalls k = 1 := by
  have hrun : ((fileMachine.exec .init reuseRun).map fun s =>
      (s.objects.all Option.isNone, s.opened, s.pending)) = some (true, 3, [(0, 6), (0, 5)]) := by
    decide +kernel
  obtain ⟨s, hexec, he⟩ := Option.map_eq_some_iff.mp hrun
  have hs : fileMachine.Reaches reuseRun s := hexec
  simp only [Prod.mk.injEq] at he
  obtain ⟨hgone, hopened, hpending⟩ := he
  have hgone : ∀ o ∈ s.objects, o = none := by simpa using hgone
  obtain ⟨-, -, hall⟩ := descriptors_owned_or_closed_once hs
  exact ⟨s, hs, hopened, hpending, hgone, hopened ▸ hall hgone⟩

end Miniss
