import Miniss.Lib.Lists
import Miniss.Poller.SignalPollerRun

/-! What becomes of a raised signal: in every interleaving its bit is pending or its handler is
started behind the raise, and no handler is started twice for one. -/
namespace Miniss

/-- The signal was raised, and behind every clear whose poll or a later one has started its
handler it was raised again. -/
def RaisedAnew (n : Nat) (log : List SignalEvent) : Prop :=
  .raised n ∈ log ∧ ∀ pre signals post, log = pre ++ .cleared signals :: post →
    .started n ∈ post → .raised n ∈ post

def RaisedSinceClear (n : Nat) (log : List SignalEvent) : Prop :=
  .raised n ∈ log ∧ ∀ pre signals post, log = pre ++ .cleared signals :: post → .raised n ∈ post

theorem RaisedSinceClear.anew {n : Nat} {log : List SignalEvent} (h : RaisedSinceClear n log) :
    RaisedAnew n log :=
  ⟨h.1, fun pre signals post he _ => h.2 pre signals post he⟩

theorem raisedSinceClear_raised (n : Nat) (log : List SignalEvent) :
    RaisedSinceClear n (log ++ [.raised n]) := by
  refine ⟨List.mem_append_right _ List.mem_cons_self, fun pre signals post he => ?_⟩
  obtain ⟨-, hc, -⟩ | ⟨post, rfl, -⟩ := concat_eq_append_cons he
  · cases hc
  · exact List.mem_append_right _ List.mem_cons_self

theorem RaisedSinceClear.concat {n : Nat} {log : List SignalEvent} {e : SignalEvent}
    (h : RaisedSinceClear n log) (he : ∀ signals, e ≠ .cleared signals) :
    RaisedSinceClear n (log ++ [e]) := by
  refine ⟨List.mem_append_left _ h.1, fun pre signals post hl => ?_⟩
  obtain ⟨-, hc, -⟩ | ⟨post, rfl, hlog⟩ := concat_eq_append_cons hl
  · exact absurd hc (he signals)
  · exact List.mem_append_left _ (h.2 pre signals post hlog)

theorem RaisedAnew.concat {n : Nat} {log : List SignalEvent} {e : SignalEvent}
    (h : RaisedAnew n log) (he : e ≠ .started n) : RaisedAnew n (log ++ [e]) := by
  refine ⟨List.mem_append_left _ h.1, fun pre signals post hl hst => ?_⟩
  obtain ⟨-, -, rfl⟩ | ⟨post, rfl, hlog⟩ := concat_eq_append_cons hl
  · cases hst
  · obtain hst | hst := List.mem_append.mp hst
    · exact List.mem_append_left _ (h.2 pre signals post hlog hst)
    · exact absurd (List.mem_singleton.mp hst).symm he

/-- What the poll behind its clear has loaded. -/
def SignalPollerPc.scanning : SignalPollerPc → Option (BitVec 64)
  | .scan signals _ => some signals
  | .handler signals _ => some signals
  | _ => none

/-- A raised signal is pending, was handled since, or is still to be handled; what is pending
or to be handled was raised anew; and so was what is pending although it was just cleared. -/
structure SignalsNoted (handlers : Nat → Bool) (s : SignalPoller) : Prop where
  kept : ∀ pre n post, s.log = pre ++ .raised n :: post → handlers n = true →
    s.pendingSignals.getLsbD n = true ∨ .started n ∈ post ∨ n ∈ s.pc.todo handlers
  anew : ∀ n, s.pendingSignals.getLsbD n = true ∨ n ∈ s.pc.todo handlers → RaisedAnew n s.log
  recent : ∀ n signals, s.pc.scanning = some signals → signals.getLsbD n = true →
    s.pendingSignals.getLsbD n = true → RaisedSinceClear n s.log
  starts : EachAfter (fun pre e => ∀ n, e = .started n → RaisedAnew n pre) s.log

namespace SignalsNoted
variable {handlers : Nat → Bool}

theorem init : SignalsNoted handlers .init where
  kept pre n post h := absurd h.symm (List.append_ne_nil_of_right_ne_nil _ nofun)
  anew n h := by simp [SignalPoller.init, SignalPollerPc.todo] at h
  recent n signals h := by cases h
  starts := eachAfter_nil

theorem dispatch {s : SignalPoller} (h : SignalsNoted handlers s) {m : Nat} (hm : m < 64) :
    SignalsNoted handlers (s.dispatch m) := by
  have hbit (n : Nat) : (s.dispatch m).pendingSignals.getLsbD n = true ↔
      s.pendingSignals.getLsbD n = true ∨ n = m := by
    change (s.pendingSignals ||| BitVec.twoPow 64 m).getLsbD n = true ↔ _
    rw [BitVec.getLsbD_or, BitVec.getLsbD_twoPow, Bool.or_eq_true, Bool.and_eq_true,
      decide_eq_true_eq, decide_eq_true_eq]
    exact or_congr_right ⟨fun he => he.2.symm, fun he => ⟨hm, he.symm⟩⟩
  constructor
  · intro pre n post hl hn
    obtain ⟨-, he, -⟩ | ⟨post, rfl, hlog⟩ := concat_eq_append_cons hl
    · cases he
      exact .inl ((hbit m).mpr (.inr rfl))
    · obtain hp | hst | htodo := h.kept pre n post hlog hn
      · exact .inl ((hbit n).mpr (.inl hp))
      · exact .inr (.inl (List.mem_append_left _ hst))
      · exact .inr (.inr htodo)
  · intro n hn
    by_cases hnm : n = m
    · subst hnm
      exact (raisedSinceClear_raised n s.log).anew
    · refine (h.anew n (hn.imp_left fun hp => ?_)).concat nofun
      exact ((hbit n).mp hp).resolve_right hnm
  · intro n signals hpc hs hp
    by_cases hnm : n = m
    · subst hnm
      exact raisedSinceClear_raised n s.log
    · exact (h.recent n signals hpc hs (((hbit n).mp hp).resolve_right hnm)).concat nofun
  · exact h.starts.concat nofun

theorem clear {s : SignalPoller} (h : SignalsNoted handlers s) {signals : BitVec 64}
    (hpc : s.pc = .loaded signals) :
    SignalsNoted handlers
      { s with
        pendingSignals := s.pendingSignals &&& ~~~signals
        pc := .scan signals 0
        log := s.log ++ [.cleared signals] } := by
  have htodo : s.pc.todo handlers = handlersFrom handlers signals 0 := by rw [hpc]; rfl
  have hbit (n : Nat) : (s.pendingSignals &&& ~~~signals).getLsbD n = true ↔
      s.pendingSignals.getLsbD n = true ∧ signals.getLsbD n = false := by
    rw [BitVec.getLsbD_and, Bool.and_eq_true, BitVec.getLsbD_not, Bool.and_eq_true,
      Bool.not_eq_true', decide_eq_true_eq]
    exact and_congr_right fun hp => ⟨And.right, fun hs => ⟨BitVec.lt_of_getLsbD hp, hs⟩⟩
  constructor
  · intro pre n post hl hn
    obtain ⟨-, he, -⟩ | ⟨post, rfl, hlog⟩ := concat_eq_append_cons hl
    · cases he
    · obtain hp | hst | hmem := h.kept pre n post hlog hn
      · cases hs : signals.getLsbD n with
        | true => exact .inr (.inr (mem_handlersFrom.mpr ⟨Nat.zero_le n, hs, hn⟩))
        | false => exact .inl ((hbit n).mpr ⟨hp, hs⟩)
      · exact .inr (.inl (List.mem_append_left _ hst))
      · rw [htodo] at hmem
        exact .inr (.inr hmem)
  · intro n hn
    refine (h.anew n (hn.imp (fun hp => ?_) fun hmem => ?_)).concat nofun
    · exact ((hbit n).mp hp).1
    · exact htodo.symm ▸ hmem
  · intro n signals' hs hmem hp
    cases hs
    exact absurd (hmem.symm.trans ((hbit n).mp hp).2) nofun
  · exact h.starts.concat nofun

theorem start {s : SignalPoller} (h : SignalsNoted handlers s) {signals : BitVec 64} {i : Nat}
    (hpc : s.pc = .scan signals i)
    (htodo : s.pc.todo handlers = i :: handlersFrom handlers signals (i + 1)) :
    SignalsNoted handlers { s with pc := .handler signals i, log := s.log ++ [.started i] } := by
  have hscan : s.pc.scanning = some signals := by rw [hpc]; rfl
  have hi : i ∈ s.pc.todo handlers := htodo ▸ List.mem_cons_self
  have hbit : signals.getLsbD i = true := by
    rw [hpc] at hi
    exact (mem_handlersFrom.mp hi).2.1
  constructor
  · intro pre n post hl hn
    obtain ⟨-, he, -⟩ | ⟨post, rfl, hlog⟩ := concat_eq_append_cons hl
    · cases he
    · obtain hp | hst | hmem := h.kept pre n post hlog hn
      · exact .inl hp
      · exact .inr (.inl (List.mem_append_left _ hst))
      · obtain rfl | hmem := List.mem_cons.mp (htodo ▸ hmem)
        · exact .inr (.inl (List.mem_append_right _ List.mem_cons_self))
        · exact .inr (.inr hmem)
  · intro n hn
    by_cases hni : n = i
    · subst hni
      obtain hp | hmem := hn
      · have hsince := h.recent n signals hscan hbit hp
        exact RaisedSinceClear.anew (hsince.concat fun _ => nofun)
      · exact absurd (mem_handlersFrom.mp hmem).1 (Nat.not_succ_le_self n)
    · refine (h.anew n (hn.imp_right fun hmem => ?_)).concat fun he => hni (by cases he; rfl)
      exact htodo ▸ List.mem_cons_of_mem i hmem
  · intro n signals' hs hmem hp
    exact (h.recent n signals' (hscan.symm ▸ hs) hmem hp).concat fun _ => nofun
  · refine h.starts.concat fun n he => ?_
    cases he
    exact h.anew i (.inr hi)

theorem goto {s : SignalPoller} (h : SignalsNoted handlers s) {pc : SignalPollerPc}
    (hleft : ∀ n ∈ s.pc.todo handlers, n ∈ pc.todo handlers)
    (hnew : ∀ n ∈ pc.todo handlers,
      s.pendingSignals.getLsbD n = true ∨ n ∈ s.pc.todo handlers)
    (hscan : ∀ signals, pc.scanning = some signals → s.pc.scanning = some signals) :
    SignalsNoted handlers { s with pc := pc } where
  kept pre n post hl hn := (h.kept pre n post hl hn).imp_right (.imp_right (hleft n))
  anew n hn := h.anew n (hn.elim .inl (hnew n))
  recent n signals hs := h.recent n signals (hscan signals hs)
  starts := h.starts

theorem step {s t : SignalPoller} {a : SignalAct} (h : SignalsNoted handlers s)
    (hst : SignalStep handlers s a t) : SignalsNoted handlers t := by
  cases hst with
  | raised n hn => exact h.dispatch hn
  | none => exact h
  | loaded hpc =>
    refine h.goto (fun n hn => ?_) (fun n hn => ?_) nofun
    · rw [hpc] at hn
      cases hn
    · exact .inl (mem_handlersFrom.mp hn).2.1
  | cleared signals hpc => exact h.clear hpc
  | started signals i hpc htodo => exact h.start hpc htodo
  | scanned signals i j hpc htodo =>
    refine h.goto (fun n hn => ?_) (fun n hn => .inr ?_) fun signals' hs => ?_
    · rw [htodo] at hn
      exact hn
    · rw [htodo]
      exact hn
    · obtain hpc | hpc := hpc <;> rw [hpc] <;> exact hs
  | ended signals i hpc htodo =>
    refine h.goto (fun n hn => ?_) nofun nofun
    rw [htodo] at hn
    cases hn

end SignalsNoted

end Miniss
