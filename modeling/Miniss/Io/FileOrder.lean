import Miniss.Io.FileSteps

/-! The order of a file's I/O and its close. The works that were pushed, the tasks that are
queued and the requests that are parked form one line; as long as no close is put into the
line in front of a request of its file, the worker never closes a descriptor that an iocb
is still to be issued on. -/
namespace Miniss
variable {ε : Type*}

/-- No iocb of a file is issued after the file is closed. -/
def Before (x y : FileEvent) : Prop := ∀ file, x = .closed file → y ≠ .issued file

theorem before_closed (x : FileEvent) (file : Nat) : Before x (.closed file) := by
  intro f _ hf
  cases hf

theorem before_issued {x : FileEvent} {file : Nat} (h : x ≠ .closed file) :
    Before x (.issued file) := by
  intro f hx hf
  obtain rfl := FileEvent.issued.inj hf
  exact h hx

/-- A close may be put behind anything, and in front of what does not concern its file. -/
theorem pairwise_insert_closed {l p : List FileEvent} {file : Nat}
    (h : (l ++ p).Pairwise Before) (hp : .issued file ∉ p) :
    (l ++ .closed file :: p).Pairwise Before := by
  rw [List.pairwise_append] at h ⊢
  obtain ⟨hl, hp', hlp⟩ := h
  refine ⟨hl, List.pairwise_cons.mpr ⟨?_, hp'⟩, ?_⟩
  · intro y hy f hf he
    obtain rfl := FileEvent.closed.inj hf
    exact hp (he ▸ hy)
  · intro x hx y hy
    obtain rfl | hy := List.mem_cons.mp hy
    · exact before_closed x file
    · exact hlp x hx y hy

theorem pairwise_concat_issued {l : List FileEvent} {file : Nat} (h : l.Pairwise Before)
    (hn : .closed file ∉ l) : (l ++ [FileEvent.issued file]).Pairwise Before := by
  refine List.pairwise_append.mpr ⟨h, List.pairwise_singleton _ _, ?_⟩
  intro x hx y hy
  rw [List.mem_singleton.mp hy]
  exact before_issued fun he => hn (he ▸ hx)

/-- What a task does to a descriptor, by the files that works close and requests are for. -/
def eventOf (closers : List (Option Nat)) (owners : List Nat) : CpuTask → Option FileEvent
  | .syscall work => closers[work]?.join.map .closed
  | .aio (.submit rq) => owners[rq.id]?.map .issued
  | .aio (.finish _ _) => none

@[simp] theorem filterMap_finish (closers : List (Option Nat)) (owners : List Nat) (id : Nat)
    (r : Except Exn IoEvent) (q : List CpuTask) :
    (CpuTask.aio (.finish id r) :: q).filterMap (eventOf closers owners) =
      q.filterMap (eventOf closers owners) := rfl

/-- A work that was recorded, or a request that was. -/
def CpuTask.Known (closers : List (Option Nat)) (owners : List Nat) : CpuTask → Prop
  | .syscall work => work < closers.length
  | .aio (.submit rq) => rq.id < owners.length
  | .aio (.finish _ _) => True

theorem eventOf_append {closers : List (Option Nat)} {owners : List Nat} {x : CpuTask}
    (h : x.Known closers owners) (cs : List (Option Nat)) (os : List Nat) :
    eventOf (closers ++ cs) (owners ++ os) x = eventOf closers owners x := by
  cases x with
  | syscall work => rw [eventOf, List.getElem?_append_left h, eventOf]
  | aio t =>
    cases t with
    | submit rq => rw [eventOf, List.getElem?_append_left h, eventOf]
    | finish id r => rfl

namespace IoCpu

def parkedTasks (s : IoCpu ε) : List CpuTask := s.io.parked.map fun rq => .aio (.submit rq)

/-- The works that were pushed, the queued tasks and the parked requests, in order. -/
def course (s : IoCpu ε) : List CpuTask :=
  s.runner.executed.map .syscall ++ (s.taskQueue ++ s.parkedTasks)

def line (s : IoCpu ε) : List FileEvent := s.course.filterMap (eventOf s.closers s.owners)

structure Lined (s : IoCpu ε) : Prop where
  owners : s.owners.length = s.io.requests.length
  closers : s.closers.length = s.runner.calls.length
  closed : ∀ work file : Nat, s.closers[work]? = some (some file) → s.files[file]? = some (-1)
  ordered : s.line.Pairwise Before
  log : s.log.Pairwise Before
  done : ∀ file : Nat, .closed file ∈ s.log →
    ∃ work ∈ s.runner.processed, s.closers[work]? = some (some file)

theorem lined_init : Lined (init : IoCpu ε) := by
  constructor <;> simp [init, line, course, parkedTasks, FileIo.parked, SyscallRunner.init,
    FileIo.init]

theorem mem_syscallTasks {q : List CpuTask} {work : Nat} (h : .syscall work ∈ q) :
    work ∈ syscallTasks q := List.mem_filterMap.mpr ⟨.syscall work, h, rfl⟩

theorem mem_granted {q : List CpuTask} {rq : Request} (h : .aio (.submit rq) ∈ q) :
    rq ∈ granted (aioTasks q) :=
  List.mem_filterMap.mpr ⟨.submit rq, List.mem_filterMap.mpr ⟨_, h, rfl⟩, rfl⟩

theorem Lined.known {s : IoCpu ε} (h : Lined s) (hi : Sound s) {x : CpuTask}
    (hx : x ∈ s.course) : x.Known s.closers s.owners := by
  obtain hx | hx := List.mem_append.mp hx
  · obtain ⟨work, hw, rfl⟩ := List.mem_map.mp hx
    have hr : work ∈ List.range s.runner.calls.length := by
      rw [hi.runner.path.order]
      exact List.mem_append_left _ hw
    exact lt_of_lt_of_eq (List.mem_range.mp hr) h.closers.symm
  obtain hx | hx := List.mem_append.mp hx
  · cases x with
    | syscall work =>
      have hr : work ∈ List.range s.runner.calls.length := by
        rw [hi.runner.path.order]
        exact List.mem_append_right _ (List.mem_append_left _ (mem_syscallTasks hx))
      exact lt_of_lt_of_eq (List.mem_range.mp hr) h.closers.symm
    | aio t =>
      cases t with
      | submit rq =>
        have hm : rq.id ∈ (granted (aioTasks s.taskQueue) ++ s.io.parked).map Request.id :=
          List.mem_map_of_mem (List.mem_append_left _ (mem_granted hx))
        exact lt_of_lt_of_eq (hi.io.lt_requests (List.mem_append_right _ hm)) h.owners.symm
      | finish id r => trivial
  · obtain ⟨rq, hrq, rfl⟩ := List.mem_map.mp hx
    have hm : rq.id ∈ (granted (aioTasks s.taskQueue) ++ s.io.parked).map Request.id :=
      List.mem_map_of_mem (List.mem_append_right _ hrq)
    exact lt_of_lt_of_eq (hi.io.lt_requests (List.mem_append_right _ hm)) h.owners.symm

theorem Lined.line_append {s : IoCpu ε} (h : Lined s) (hi : Sound s) {l : List CpuTask}
    (hl : l ⊆ s.course) (cs : List (Option Nat)) (os : List Nat) :
    l.filterMap (eventOf (s.closers ++ cs) (s.owners ++ os)) =
      l.filterMap (eventOf s.closers s.owners) :=
  List.filterMap_congr fun _ hx => eventOf_append (h.known hi (hl hx)) cs os

/-- A step that moves nothing in line past anything else. -/
theorem Lined.keep {s t : IoCpu ε} (h : Lined s) (hio : t.io.requests = s.io.requests)
    (hcalls : t.runner.calls = s.runner.calls) (howners : t.owners = s.owners)
    (hclosers : t.closers = s.closers) (hfiles : t.files = s.files) (hlog : t.log = s.log)
    (hp : s.runner.processed ⊆ t.runner.processed) (hline : t.line.Sublist s.line) :
    Lined t := by
  refine ⟨?_, ?_, ?_, h.ordered.sublist hline, ?_, ?_⟩
  · rw [howners, hio, h.owners]
  · rw [hclosers, hcalls, h.closers]
  · rw [hclosers, hfiles]
    exact h.closed
  · rw [hlog]
    exact h.log
  · rw [hlog, hclosers]
    intro file hf
    obtain ⟨work, hw, hc⟩ := h.done file hf
    exact ⟨work, hp hw, hc⟩

/-- The requests of an open file have no close in front of them. -/
theorem Lined.closed_not_mem {s : IoCpu ε} (h : Lined s) {file : Nat} {fd : Int}
    (hf : s.files[file]? = some fd) (hfd : 0 ≤ fd) : .closed file ∉ s.line := by
  intro hm
  obtain ⟨x, -, hx⟩ := List.mem_filterMap.mp hm
  cases x with
  | syscall work =>
    obtain ⟨f, hc, hff⟩ := Option.map_eq_some_iff.mp hx
    obtain rfl := FileEvent.closed.inj hff
    have hcl := h.closed work f (Option.join_eq_some_iff.mp hc)
    rw [hf, Option.some.injEq] at hcl
    omega
  | aio t =>
    cases t with
    | submit rq =>
      obtain ⟨f, -, hff⟩ := Option.map_eq_some_iff.mp hx
      cases hff
    | finish id r => cases hx

/-- No request of the file is parked in `aio_available_`. -/
def Unparked (s : IoCpu ε) (file : Nat) : Prop :=
  ∀ rq ∈ s.io.parked, s.owners[rq.id]? ≠ some file

theorem Unparked.not_mem {s : IoCpu ε} {file : Nat} (h : s.Unparked file) :
    .issued file ∉ s.parkedTasks.filterMap (eventOf s.closers s.owners) := by
  intro hm
  obtain ⟨x, hx, he⟩ := List.mem_filterMap.mp hm
  obtain ⟨rq, hrq, rfl⟩ := List.mem_map.mp hx
  obtain ⟨f, hf, hff⟩ := Option.map_eq_some_iff.mp he
  obtain rfl := FileEvent.issued.inj hff
  exact h rq hrq hf

/-- A system call is submitted: its work enters the line in front of the parked requests,
or parks in `queue_has_room_`. -/
theorem Lined.submit {s : IoCpu ε} (h : Lined s) (hi : Sound s) (body : SyscallBody ε)
    (errno : Errno) (closes : Option Nat) (files : List Int)
    (hfree : ∀ file, closes = some file → 1 < s.runner.queueHasRoom.tokens →
      s.runner.queueHasRoom.waitingList = [] → s.Unparked file)
    (hfiles : ∀ f : Nat, s.files[f]? = some (-1) → files[f]? = some (-1))
    (hcloses : ∀ file : Nat, closes = some file → files[file]? = some (-1)) :
    Lined { s.submitSyscall body errno closes with files := files } := by
  have hold : ∀ l ⊆ s.course, l.filterMap (eventOf (s.closers ++ [closes]) s.owners) =
      l.filterMap (eventOf s.closers s.owners) := by
    intro l hl
    simpa using h.line_append hi hl [closes] []
  have hclosed : ∀ work file : Nat, (s.closers ++ [closes])[work]? = some (some file) →
      files[file]? = some (-1) := by
    intro work file hw
    rw [List.getElem?_append] at hw
    split at hw
    case isTrue => exact hfiles file (h.closed work file hw)
    case isFalse =>
      rw [List.getElem?_singleton] at hw
      split at hw
      case isTrue => exact hcloses file (Option.some.inj hw)
      case isFalse => cases hw
  have hdone : ∀ file : Nat, .closed file ∈ s.log →
      ∃ work ∈ s.runner.processed, (s.closers ++ [closes])[work]? = some (some file) := by
    intro file hf
    obtain ⟨work, hw, hc⟩ := h.done file hf
    refine ⟨work, hw, ?_⟩
    rw [List.getElem?_append_left (List.getElem?_eq_some_iff.mp hc).1]
    exact hc
  obtain ⟨hlt, he, hs⟩ | hs := s.runner.submit_cases body errno
  · refine ⟨?_, ?_, ?_, ?_, ?_, ?_⟩ <;>
      simp only [submitSyscall, withRunner, hs, SyscallRunner.record]
    · exact h.owners
    · rw [List.length_append, List.length_append, h.closers]
      rfl
    · exact hclosed
    · have hline := h.ordered
      rw [line, course, ← List.append_assoc, List.filterMap_append] at hline
      simp only [line, course, parkedTasks, List.map_cons, List.map_nil]
      rw [List.append_assoc, List.singleton_append, ← List.append_assoc,
        List.filterMap_append, hold _ ?_, List.filterMap_cons, hold _ ?_]
      · have hnew : eventOf (s.closers ++ [closes]) s.owners (.syscall s.runner.calls.length) =
            closes.map .closed := by simp [eventOf, ← h.closers]
        rw [hnew]
        cases closes with
        | none => exact hline
        | some file => exact pairwise_insert_closed hline (hfree file rfl hlt he).not_mem
      · exact fun x hx => List.mem_append_right _ (List.mem_append_right _ hx)
      · rw [course, ← List.append_assoc]
        exact List.subset_append_left _ _
    · exact h.log
    · exact hdone
  · refine ⟨?_, ?_, ?_, ?_, ?_, ?_⟩ <;>
      simp only [submitSyscall, withRunner, hs, SyscallRunner.record]
    · exact h.owners
    · rw [List.length_append, List.length_append, h.closers]
      rfl
    · exact hclosed
    · have hsame := hold s.course (List.Subset.refl _)
      simp only [line, course, parkedTasks, List.map_nil, List.append_nil] at hsame ⊢
      rw [hsame]
      exact h.ordered
    · exact h.log
    · exact hdone

theorem Lined.request {s : IoCpu ε} (h : Lined s) (hi : Sound s) {file : Nat} {fd : Int}
    (io : Iocb) (hf : s.files[file]? = some fd) (hfd : 0 ≤ fd) :
    Lined { s.withIo (s.io.submitIo_ io) with owners := s.owners ++ [file] } := by
  have hline : ∀ t : IoCpu ε, t.closers = s.closers → t.owners = s.owners ++ [file] →
      t.course = s.course ++ [.aio (.submit (s.io.nextRequest io))] →
      t.line.Pairwise Before := by
    intro t hc ho ht
    have hnew : eventOf s.closers (s.owners ++ [file]) (.aio (.submit (s.io.nextRequest io))) =
        some (.issued file) := by simp [eventOf, FileIo.nextRequest, ← h.owners]
    have hold : s.course.filterMap (eventOf s.closers (s.owners ++ [file])) = s.line := by
      simpa [line] using h.line_append hi (List.Subset.refl _) [] [file]
    rw [line, hc, ho, ht, List.filterMap_append, hold, List.filterMap_cons, hnew]
    exact pairwise_concat_issued h.ordered (h.closed_not_mem hf hfd)
  obtain ⟨-, he, hs⟩ | hs := s.io.submitIo_cases io
  · refine ⟨?_, h.closers, h.closed, hline _ rfl rfl ?_, h.log, h.done⟩
    · simp [withIo, hs, FileIo.record, h.owners]
    · simp [withIo, hs, course, parkedTasks, FileIo.parked, FileIo.record, he]
  · refine ⟨?_, h.closers, h.closed, hline _ rfl rfl ?_, h.log, h.done⟩
    · simp [withIo, hs, FileIo.record, h.owners]
    · simp [withIo, hs, course, parkedTasks, FileIo.parked, FileIo.record]

theorem Lined.issue {s : IoCpu ε} (h : Lined s) (hi : Sound s) {rq : Request}
    {rest : List CpuTask} (pr : Nat) (res : SubmitRes)
    (hq : s.taskQueue = .aio (.submit rq) :: rest) :
    Lined { withIo { s with taskQueue := rest } (s.io.submitIoImpl_ rq pr res) with
      log := s.log ++ (s.owners[rq.id]?.map FileEvent.issued).toList } := by
  have hlog : ∀ file, s.owners[rq.id]? = some file → .closed file ∉ s.log := by
    intro file ho hm
    obtain ⟨work, hw, hc⟩ := h.done file hm
    have hl := h.ordered
    rw [line, course, List.filterMap_append, List.pairwise_append] at hl
    refine hl.2.2 (.closed file) ?_ (.issued file) ?_ file rfl rfl
    · have hex := hi.runner.path.accepted.subset (List.mem_append_left _ hw)
      exact List.mem_filterMap.mpr ⟨.syscall work, List.mem_map_of_mem hex, by simp [eventOf, hc]⟩
    · refine List.mem_filterMap.mpr ⟨.aio (.submit rq), ?_, by simp [eventOf, ho]⟩
      simp [hq]
  refine ⟨?_, h.closers, h.closed, h.ordered.sublist ?_, ?_, ?_⟩
  · cases res <;> exact h.owners
  · have hfin : ∀ ts : List AioTask, (∀ t ∈ ts, t.submit? = none) →
        (ts.map CpuTask.aio).filterMap (eventOf s.closers s.owners) = [] := by
      intro ts hts
      refine List.filterMap_eq_nil_iff.mpr fun x hx => ?_
      obtain ⟨t, ht, rfl⟩ := List.mem_map.mp hx
      have := hts t ht
      cases t with
      | submit rq => cases this
      | finish id r => rfl
    have hts : ∀ t ∈ (s.io.submitIoImpl_ rq pr res).2, t.submit? = none := by
      cases res <;> simp [FileIo.submitIoImpl_, AioTask.submit?]
    have hpk : (s.io.submitIoImpl_ rq pr res).1.parked = s.io.parked := by
      cases res <;> rfl
    simp only [line, course, withIo, parkedTasks, hq, hpk, List.filterMap_append, hfin _ hts,
      List.append_nil]
    refine List.Sublist.append_left (List.Sublist.append_right ?_ _) _
    exact (List.sublist_cons_self _ _).filterMap _
  · cases ho : s.owners[rq.id]? with
    | none => simpa using h.log
    | some file => exact pairwise_concat_issued h.log (hlog file ho)
  · intro file hm
    obtain hm | hm := List.mem_append.mp hm
    · exact h.done file hm
    · obtain ⟨f, -, hf⟩ := Option.map_eq_some_iff.mp (Option.mem_toList.mp hm)
      cases hf

/-- `poll_results` hands a room token on: a parked work enters the line in front of the
parked requests. -/
theorem Lined.releaseRoom {s : IoCpu ε} (h : Lined s) (nr : Nat)
    (hfree : ∀ e waiting file, s.runner.queueHasRoom.waitingList = e :: waiting →
      e.tokens ≤ sizeAdd s.runner.queueHasRoom.tokens nr →
      s.closers[e.pr]? = some (some file) → s.Unparked file) :
    Lined (s.withRunner (s.runner.releaseRoom nr)) := by
  obtain ⟨-, hr⟩ | ⟨e, waiting, hw, hle, hr⟩ := s.runner.queueHasRoom.release_cases nr
  · have hs : (s.withRunner (s.runner.releaseRoom nr)).line = s.line := by
      simp [withRunner, SyscallRunner.releaseRoom, hr, line, course, parkedTasks]
    exact h.keep rfl rfl rfl rfl rfl rfl (List.Subset.refl _) (hs ▸ List.Sublist.refl _)
  · refine ⟨h.owners, h.closers, h.closed, ?_, h.log, h.done⟩
    have hline := h.ordered
    rw [line, course, ← List.append_assoc, List.filterMap_append] at hline
    simp only [line, course, parkedTasks, withRunner, SyscallRunner.releaseRoom, hr,
      Option.toList_some, List.map_cons, List.map_nil]
    rw [List.append_assoc, List.singleton_append, ← List.append_assoc, List.filterMap_append,
      List.filterMap_cons]
    cases he : s.closers[e.pr]?.join with
    | none =>
      have hnew : eventOf s.closers s.owners (.syscall e.pr) = none := by simp [eventOf, he]
      rw [hnew]
      exact hline
    | some file =>
      have hnew : eventOf s.closers s.owners (.syscall e.pr) = some (.closed file) := by
        simp [eventOf, he]
      have hf := hfree e waiting file hw hle (Option.join_eq_some_iff.mp he)
      rw [hnew]
      exact pairwise_insert_closed hline hf.not_mem

theorem Lined.work {s : IoCpu ε} (h : Lined s) {r : SyscallRunner ε}
    (hr : s.runner.workerStep = some r) :
    Lined { s with
      runner := r
      log := s.log ++ ((processing s.runner).bind fun work =>
        s.closers[work]?.join.map FileEvent.closed).toList } := by
  have hframe : r.calls = s.runner.calls ∧ r.executed = s.runner.executed ∧
      s.runner.processed ⊆ r.processed ∧
      ∀ work, processing s.runner = some work → work ∈ r.processed := by
    have hs := workerStep_steps s.runner r [] hr
    cases hs with
    | processed done work todo hw =>
      obtain ⟨heap, fault, hp⟩ := s.runner.processWork_frame work
      rw [hp]
      refine ⟨rfl, rfl, List.subset_append_left _ _, ?_⟩
      simp [processing, hw]
    | looped hw => simp [processing, hw]
    | awoken hw hi => simp [processing, hw]
    | tested hw => simp [processing, hw]
    | drained hw he => simp [processing, hw]
    | batch hw hne => simp [processing, hw]
    | responded done work todo hw => simp [processing, hw, SyscallRunner.respond_]
    | finished done hw => simp [processing, hw]
    | restarted hw => simp [processing, hw]
  obtain ⟨hcalls, hexec, hproc, hnew⟩ := hframe
  refine ⟨h.owners, by rw [hcalls]; exact h.closers, h.closed, ?_, ?_, ?_⟩
  · have hs : ∀ t : IoCpu ε, t.runner.executed = s.runner.executed → t.io = s.io →
        t.taskQueue = s.taskQueue → t.owners = s.owners → t.closers = s.closers →
        t.line.Pairwise Before := by
      intro t he hio hq ho hc
      rw [line, course, parkedTasks, he, hio, hq, ho, hc]
      exact h.ordered
    exact hs _ hexec rfl rfl rfl rfl
  · refine List.pairwise_append.mpr ⟨h.log, ?_, ?_⟩
    · cases (processing s.runner).bind fun work => s.closers[work]?.join.map FileEvent.closed
        <;> simp
    · intro x _ y hy
      obtain ⟨work, -, hy⟩ := Option.bind_eq_some_iff.mp (Option.mem_toList.mp hy)
      obtain ⟨file, -, rfl⟩ := Option.map_eq_some_iff.mp hy
      exact before_closed x file
  · intro file hm
    obtain hm | hm := List.mem_append.mp hm
    · obtain ⟨work, hw, hc⟩ := h.done file hm
      exact ⟨work, hproc hw, hc⟩
    · obtain ⟨work, hw, hy⟩ := Option.bind_eq_some_iff.mp (Option.mem_toList.mp hm)
      obtain ⟨f, hc, hf⟩ := Option.map_eq_some_iff.mp hy
      obtain rfl := FileEvent.closed.inj hf
      exact ⟨work, hnew work hw, Option.join_eq_some_iff.mp hc⟩

/-- The file whose close gets its continuation queued: `close` finds room in
`queue_has_room_`, or `poll_results` hands a token on. -/
def grantsClose (s : IoCpu ε) : IoCpuAct ε → Option Nat
  | .cpu =>
    match s.runner.cpu with
    | .poll [] nr =>
      (s.runner.queueHasRoom.release nr).2.bind fun work => s.closers[work]?.join
    | _ => none
  | a =>
    if 1 < s.runner.queueHasRoom.tokens ∧ s.runner.queueHasRoom.waitingList.isEmpty then
      a.closes?.filter fun file => s.files[file]? ≠ some (-1)
    else none

/-- The continuation of a close is queued only when no request of its file is parked in
`aio_available_`. -/
def Orderly (s : IoCpu ε) (a : IoCpuAct ε) : Prop :=
  ∀ file ∈ s.grantsClose a, s.Unparked file

instance (s : IoCpu ε) (file : Nat) : Decidable (s.Unparked file) :=
  inferInstanceAs (Decidable (∀ rq ∈ s.io.parked, s.owners[rq.id]? ≠ some file))

instance (s : IoCpu ε) (a : IoCpuAct ε) : Decidable (s.Orderly a) :=
  inferInstanceAs (Decidable (∀ file ∈ s.grantsClose a, s.Unparked file))

/-- An orderly close enters the line behind the requests of its file, or parks. -/
theorem Lined.closing {s : IoCpu ε} (h : Lined s) (hi : Sound s) {a : IoCpuAct ε}
    (ho : s.Orderly a) {file : Nat} {fd : Int} (ha : a.closes? = some file)
    (hf : s.files[file]? = some fd) (hfd : fd ≠ -1) (ret : Int) (errno : Errno) :
    Lined { s.submitSyscall (.int ret) errno (some file) with files := s.files.set file (-1) } := by
  refine h.submit hi (.int ret) errno (some file) _ ?_ ?_ ?_
  · rintro f hff hlt he
    obtain rfl := Option.some.inj hff
    refine ho file ?_
    cases a with
    | close | destroy =>
      obtain rfl := Option.some.inj ha
      simp [grantsClose, hlt, he, IoCpuAct.closes?, hf, hfd]
    | _ => cases ha
  · intro f hff
    rw [List.getElem?_set]
    split
    case isTrue he => rw [if_pos (he ▸ (List.getElem?_eq_some_iff.mp hff).1)]
    case isFalse => exact hff
  · rintro f hff
    obtain rfl := Option.some.inj hff
    rw [List.getElem?_set_self (List.getElem?_eq_some_iff.mp hf).1]

theorem Lined.runnerWent {s : IoCpu ε} (h : Lined s) (ho : s.Orderly .cpu)
    {p : SyscallRunner ε × List Nat} (hp : s.runner.cpuStep = some p) :
    Lined (s.withRunner p) := by
  obtain ⟨r, ts⟩ := p
  have hc := Miniss.cpuStep_steps s.runner r [] ts hp
  rw [List.nil_append] at hc
  cases hc with
  | signalled hcpu | joining hcpu =>
    refine h.keep rfl rfl rfl rfl rfl rfl (List.Subset.refl _) ?_
    simp [line, course, parkedTasks, withRunner]
  | completed work todo nr hcpu =>
    obtain ⟨resolved, heap, freed, aborted, fault, hw⟩ := s.runner.completeWork_frame work
    rw [hw]
    refine h.keep rfl rfl rfl rfl rfl rfl (List.Subset.refl _) ?_
    simp [line, course, parkedTasks, withRunner]
  | released nr hcpu =>
    refine h.releaseRoom nr fun e waiting file hw hle hc => ho file ?_
    simp [grantsClose, hcpu, Semaphore.release, hw, Nat.not_lt.mpr hle, hc]

theorem Lined.ioWent {s : IoCpu ε} (h : Lined s) {p : FileIo × List AioTask}
    (hp : s.io.reapStep = some p) : Lined (s.withIo p) := by
  obtain ⟨f, ts⟩ := p
  have hf := reapStep_steps s.io f [] ts hp
  rw [List.nil_append] at hf
  cases hf with
  | granted _ io ha => cases ha
  | parked _ io ha => cases ha
  | settled | dangling | returned =>
    refine h.keep rfl rfl rfl rfl rfl rfl (List.Subset.refl _) ?_
    simp [line, course, parkedTasks, FileIo.parked, withIo]
  | handedOn n e waiting hr hw hle =>
    refine h.keep rfl rfl rfl rfl rfl rfl (List.Subset.refl _) ?_
    simp [line, course, parkedTasks, FileIo.parked, withIo, hw]

theorem Lined.step {s t : IoCpu ε} {a : IoCpuAct ε} (h : Lined s) (hi : Sound s)
    (ho : s.Orderly a) (hs : IoCpuStep s a t) : Lined t := by
  cases hs with
  | opened fd =>
    refine ⟨h.owners, h.closers, fun work file hw => ?_, h.ordered, h.log, h.done⟩
    have hf := h.closed work file hw
    rwa [List.getElem?_append_left (List.getElem?_eq_some_iff.mp hf).1]
  | requested _ b file fd io hb hr hf hfd => exact h.request hi io hf hfd
  | called body errno hr =>
    exact h.submit hi body errno none s.files (by simp) (fun _ hf => hf) (by simp)
  | closing _ file fd ret errno ha hr hf hfd => exact h.closing hi ho ha hf hfd ret errno
  | closedBefore => exact h
  | pushed _ work rest hr hq =>
    refine h.keep rfl rfl rfl rfl rfl rfl (List.Subset.refl _) ?_
    simp [line, course, parkedTasks, SyscallRunner.pushWork, hq]
  | issued pr res rq rest hr hq hpr => exact h.issue hi pr res hq
  | finished _ id r rest hr hq =>
    refine h.keep rfl rfl rfl rfl rfl rfl (List.Subset.refl _) ?_
    simp [line, course, parkedTasks, FileIo.finish, FileIo.parked, hq]
  | polled | gotEvents =>
    exact h.keep rfl rfl rfl rfl rfl rfl (List.Subset.refl _) (List.Sublist.refl _)
  | runnerWent p hp => exact h.runnerWent ho hp
  | ioWent p hp => exact h.ioWent hp
  | worked r hr => exact h.work hr
  | completed k res f hf =>
    cases completeIocb_steps s.io f [] k res hf with
    | parked _ io ha => cases ha
    | completed pre post io id eventfd res hk =>
      exact h.keep rfl rfl rfl rfl rfl rfl (List.Subset.refl _) (List.Sublist.refl _)

end IoCpu

open IoCpu

/-- In every run in which no close is granted its token over a parked request of its file,
every iocb is issued before the worker closes its file. -/
theorem issued_before_close {as : List (IoCpuAct ε)}
    (h : ioCpuMachine.Meets Orderly ioCpuMachine.init as) :
    ioCpuMachine.Throughout (fun s => s.log.Pairwise Before) ioCpuMachine.init as := by
  have hl : ioCpuMachine.Throughout
      (fun s : IoCpu ε => Lined s ∧ ∃ bs, ioCpuMachine.Reaches bs s) ioCpuMachine.init as := by
    refine Machine.throughout_of_meets ?_ ⟨lined_init, [], rfl⟩ h
    rintro s a t ⟨hi, bs, hb⟩ ho hst
    exact ⟨hi.step (sound_reachable hb) ho (io_cpu_step_cases hst), bs ++ [a], hb.snoc hst⟩
  exact fun pre suf s he hs => (hl pre suf s he hs).1.log

/-- Two reads and the destruction of their file, with the worker as quick as it can be. -/
def orderlyRun : List (IoCpuAct Unit) :=
  [.opened 3, .dmaRead 0 0 ⟨1, 512⟩, .dmaRead 0 512 ⟨2, 512⟩, .destroy 0 0 ⟨5, by decide⟩,
    .runTask 4096 .accepted, .runTask 8192 .accepted, .runTask 0 .accepted, .cpu,
    .worker, .worker, .worker, .worker, .worker]

theorem issued_before_close_orderly :
    (ioCpuMachine.exec ioCpuMachine.init orderlyRun).map (fun s => s.log) =
      some [.issued 0, .issued 0, .closed 0] ∧
    ioCpuMachine.Throughout (fun s => s.log.Pairwise Before) ioCpuMachine.init orderlyRun :=
  ⟨by decide +kernel, issued_before_close (by decide +kernel)⟩

/-- The pollers of one pass of the loop, with no results and no events. -/
def emptyPolls : List (IoCpuAct Unit) := [.pollResults, .cpu, .getevents 0, .cpu]

/-- `n` continuations of `submit_io_impl_`, whose promises get the addresses from `pr` on. -/
def issueTasks (pr n : Nat) : List (IoCpuAct Unit) :=
  (List.range n).map fun i => .runTask (pr + i) .accepted

/-- One task issues 128 reads of a file and closes it. One slot stays unused by `wait`, so
the last read parks; the next `reap_io` grants it, behind the continuation of the close. The
worker has closed the file when the read is issued in the next pass of the loop. -/
def closedRun : List (IoCpuAct Unit) :=
  .opened 3 :: List.replicate 128 (.dmaRead 0 0 ⟨1, 512⟩) ++ [.close 0 0 ⟨5, by decide⟩] ++
  ((List.range 16).map fun i => emptyPolls ++ issueTasks (4096 + 8 * i) 8).flatten ++
  [.cpu, .worker, .worker, .worker, .worker, .worker] ++ emptyPolls ++ issueTasks 8192 1

theorem closedRun_issues_late : ¬ ioCpuMachine.Throughout
    (fun s => s.log.Pairwise Before) ioCpuMachine.init closedRun := by
  have hrun : ((ioCpuMachine.exec ioCpuMachine.init closedRun).map fun s => s.log) =
      some (List.replicate 127 (.issued 0) ++ [.closed 0, .issued 0]) := by decide +kernel
  obtain ⟨s, hs, hl⟩ := Option.map_eq_some_iff.mp hrun
  intro h
  have hp : s.log.Pairwise Before := h closedRun [] s (List.append_nil _).symm hs
  rw [hl, List.pairwise_append] at hp
  have hb := List.rel_of_pairwise_cons hp.2.1 List.mem_cons_self
  exact hb 0 rfl rfl

end Miniss
