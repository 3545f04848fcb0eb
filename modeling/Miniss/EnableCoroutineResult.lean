import Miniss.EnableCoroutineRun

/-! What a coroutine gives: what straight-line code gives that has the results of the awaited
futures at hand, whichever of them the body had to wait for. -/
namespace Miniss
variable {σ ι ν ρ : Type*}

namespace Coroutine
variable {D : CoroutineBody σ ι ν ρ} {s : Coroutine σ ι ν ρ}

theorem value_of_paid {r : Except Exn ρ} (hf : s.frame = none)
    (hp : Paid r s.future s.scheduled) : s.value = .ofResult r := by
  rw [value, hf]
  generalize s.future = f, s.scheduled = cs at hp
  cases hp with
  | ready => rfl
  | taken y hy => rfl

theorem Inv.value_of_not_ended (h : s.Inv D) (he : ¬ s.Ended) :
    s.value.available = false ∧ s.resolved = 0 := by
  cases h.phase with
  | before hc hf hy hfut hs hn =>
    refine ⟨?_, hn⟩
    rw [value, hs, hf, hfut]
    rfl
  | running fr hrun =>
    obtain ⟨hs, x, hx, hnot⟩ := hrun.owed.not_available
    refine ⟨?_, hrun.resolved⟩
    simp only [value, hs, hrun.frame, Option.map_some, hx, Option.getD_some]
    exact hnot
  | ended r hc hf hp hn hb => exact absurd ⟨hc, hf⟩ he

theorem Inv.value_of_ended (h : s.Inv D) (he : s.Ended) :
    ∃ r, Paid r s.future s.scheduled ∧ s.value = .ofResult r ∧ s.resolved = 1 ∧
      ∀ o, s.Agrees o → D.point (D.straight o s.yielded.length) = .done r := by
  obtain ⟨hcalled, hframe⟩ := he
  cases h.phase with
  | before hc => cases hc.symm.trans hcalled
  | running fr hrun => cases hrun.frame.symm.trans hframe
  | ended r hc hf hp hn hb =>
    exact ⟨r, hp, value_of_paid hf hp, hn, hb⟩

/-- Two calls of the same coroutine come to the same end, when the futures gave the same results:
it does not matter which of them were ready when they were awaited. -/
theorem Inv.same_end {s' : Coroutine σ ι ν ρ} (h : s.Inv D) (h' : s'.Inv D)
    (hsame : ∀ i q r, (s.inputs i).outcome = some q → (s'.inputs i).outcome = some r → q = r)
    (he : s.Ended) (he' : s'.Ended) : s'.value = s.value ∧ s'.yielded = s.yielded := by
  -- results that agree with both
  let o : ι → Except Exn ν := fun i =>
    ((s.inputs i).outcome.or (s'.inputs i).outcome).getD (.error (.user 0))
  have ho : s.Agrees o := fun i r hr => by simp [o, hr]
  have ho' : s'.Agrees o := fun i r hr => by
    cases hq : (s.inputs i).outcome with
    | none => simp [o, hq, hr]
    | some q => simp [o, hq, hsame i q r hq hr]
  obtain ⟨r, -, hv, -, hg⟩ := h.value_of_ended he
  obtain ⟨r', -, hv', -, hg'⟩ := h'.value_of_ended he'
  obtain ⟨rfl, htr⟩ := Dialogue.eq_of_done (hg o ho) (hg' o ho')
  exact ⟨hv'.trans hv.symm, by rw [h.transcript o ho, h'.transcript o ho', htr]⟩

variable [DecidableEq ι]

/-- The body is at its end: the step resolves the returned future with what the body ended with. -/
theorem Inv.go_done (h : s.Inv D) {fr : CoroutineFrame σ ι ρ} (hf : s.frame = some fr)
    (hs : s.suspended = none) {r : Except Exn ρ} (hp : D.point fr.body = .done r) :
    ∃ t, s.go D = some t ∧ t.Ended ∧ t.value = .ofResult r ∧ t.yielded = s.yielded := by
  have hfs : fr.suspended = none := by rwa [suspended, hf] at hs
  have hrun := h.phase.of_frame hf
  obtain ⟨d, g, hd, hg, hpaid⟩ := hrun.owed.finish r
  have hgo : s.go D = s.finish (fr.pr_.set r) := by
    cases r <;>
      simp [Coroutine.go, hf, hfs, hp, CoroutineFrame.returnValue,
        CoroutineFrame.unhandledException]
  simp only [hgo, Coroutine.finish, hd, hg, Option.map_some]
  exact ⟨_, rfl, ⟨hrun.called, rfl⟩, value_of_paid rfl hpaid, rfl⟩

theorem Inv.go_ready (h : s.Inv D) {fr : CoroutineFrame σ ι ρ} (hf : s.frame = some fr)
    (hs : s.suspended = none) {i : ι} (hp : D.point fr.body = .ask i) (hi : i ∉ s.awaited)
    {r : Except Exn ν} (hr : (s.inputs i).outcome = some r) :
    ∃ t, s.go D = some t ∧ t.yielded = s.yielded ++ [(i, r)] ∧
      t.frame = some { fr with body := D.resume fr.body r } := by
  have hfs : fr.suspended = none := by rwa [suspended, hf] at hs
  have hfr := h.awaits.fresh i hi fun hsi => by rw [hs] at hsi; cases hsi
  obtain ⟨b, hb, -⟩ := hfr.awaitResume_eq hr
  have hgo : s.go D = s.resume D fr i := by
    simp [Coroutine.go, hf, hfs, hp, hfr.awaitReady_eq, hr]
  rw [hgo, resume, hb]
  exact ⟨_, rfl, rfl, by rw [hfs]⟩

theorem Inv.go_pending (h : s.Inv D) {fr : CoroutineFrame σ ι ρ} (hf : s.frame = some fr)
    (hs : s.suspended = none) {i : ι} (hp : D.point fr.body = .ask i) (hi : i ∉ s.awaited)
    (hr : (s.inputs i).outcome = none) (hab : ¬ (s.inputs i).Abandoned) :
    ∃ t, s.go D = some t ∧ t.yielded = s.yielded ∧
      t.frame = some { fr with suspended := some i } := by
  have hfs : fr.suspended = none := by rwa [suspended, hf] at hs
  have hfr := h.awaits.fresh i hi fun hsi => by rw [hs] at hsi; cases hsi
  obtain ⟨b, hb, -⟩ := hfr.awaitSuspend_eq hr hab i
  have hgo : s.go D = ((s.inputs i).awaitSuspend i).map fun d =>
      { s with
        inputs := Function.update s.inputs i d.1
        tasks := s.tasks ++ d.2.toList
        frame := some { fr with suspended := some i } } := by
    simp [Coroutine.go, hf, hfs, hp, hfr.awaitReady_eq, hr]
  rw [hgo, hb]
  exact ⟨_, rfl, rfl, rfl⟩

/-- A continuation on `task_queue_` finds its awaiter, and the body goes on with the result. -/
theorem Inv.run_eq (h : s.Inv D) (hts : s.tasks ≠ []) : ∃ fr i r t, s.frame = some fr ∧
    fr.suspended = some i ∧ (s.inputs i).outcome = some r ∧ s.run D = some t ∧
    t.yielded = s.yielded ++ [(i, r)] ∧
    t.frame = some { fr with body := D.resume fr.body r, suspended := none } := by
  cases hs : s.suspended with
  | none => exact absurd (h.awaits.idle hs) hts
  | some i =>
    obtain ⟨fr, hf, hfs⟩ := Option.bind_eq_some_iff.mp hs
    obtain ⟨c, rest, hc⟩ := List.exists_cons_of_ne_nil hts
    obtain ⟨r, b, rfl, rfl, hr, hb, -⟩ := (h.awaits.suspended i hs).2.awaitResume_eq hc
    have hb' : ((s.inputs i).refill (.ofResult r)).awaitResume = some (r, b) := hb
    refine ⟨fr, i, r, ?_⟩
    simp [Coroutine.run, hc, hf, hfs, hr, resumeTask, resume, hb', Future.forwardTo, Future.deref,
      FutureState.result?, Promise.set, Promise.deref, Promise.new, FutureState.set]

end Coroutine

/-- What holds of a coroutine in every state: each future is awaited once and gives the body its
very result, the body is where straight-line code with these results is, and the returned future
is resolved once, when the body ends, with what the straight-line code gives. Every step that is
due can be made: the call starts the body, the body goes on with the result of a future that is
ready and is suspended at one that is not, the continuation of a future that is resolved resumes
it, a body that is at its end resolves the returned future, and that is of use when the frame is
gone. -/
structure StraightLine [DecidableEq ι] (D : CoroutineBody σ ι ν ρ) (s : Coroutine σ ι ν ρ) :
    Prop where
  once : s.awaited.Nodup
  yields : ∀ e ∈ s.yielded, (s.inputs e.1).outcome = some e.2
  transcript : ∀ o, s.Agrees o → s.yielded = D.transcript o s.yielded.length
  body : ∀ o, s.Agrees o → ∀ fr, s.frame = some fr → fr.body = D.straight o s.yielded.length
  available : s.value.available = true ↔ s.Ended
  resolved : s.resolved ≤ 1 ∧ (s.resolved = 1 ↔ s.Ended)
  result : s.Ended → ∃ r, s.value = .ofResult r ∧ ∀ o, s.Agrees o → D.Gives o r
  usable : s.Ended → s.scheduled = [] →
    ∃ t, s.step D .attach = some t ∧ t.value = s.value ∧ t.scheduled ≠ []
  starts : s.called = false → ∃ t fr, s.step D .call = some t ∧ t.frame = some fr ∧
    fr.body = D.start ∧ fr.suspended = none
  ends : ∀ fr r, s.frame = some fr → s.suspended = none → D.point fr.body = .done r →
    ∃ t, s.step D .go = some t ∧ t.Ended ∧ t.value = .ofResult r ∧ t.yielded = s.yielded
  takes : ∀ fr i r, s.frame = some fr → s.suspended = none → D.point fr.body = .ask i →
    i ∉ s.awaited → (s.inputs i).outcome = some r → ∃ t, s.step D .go = some t ∧
      t.yielded = s.yielded ++ [(i, r)] ∧ t.frame = some { fr with body := D.resume fr.body r }
  suspends : ∀ fr i, s.frame = some fr → s.suspended = none → D.point fr.body = .ask i →
    i ∉ s.awaited → (s.inputs i).outcome = none → ¬ (s.inputs i).Abandoned →
      ∃ t, s.step D .go = some t ∧ t.yielded = s.yielded ∧
        t.frame = some { fr with suspended := some i }
  resumes : ∀ i, s.suspended = some i → (s.inputs i).outcome ≠ none → s.tasks ≠ []
  runs : s.tasks ≠ [] → ∃ fr i r t, s.frame = some fr ∧ fr.suspended = some i ∧
    (s.inputs i).outcome = some r ∧ s.step D .run = some t ∧
    t.yielded = s.yielded ++ [(i, r)] ∧
    t.frame = some { fr with body := D.resume fr.body r, suspended := none }

variable [DecidableEq ι] {D : CoroutineBody σ ι ν ρ}

theorem Coroutine.Inv.straightLine {s : Coroutine σ ι ν ρ} (h : s.Inv D) :
    StraightLine D s where
  once := h.awaits.nodup
  yields e he := (h.awaits.taken e he).outcome_eq
  transcript := h.transcript
  body o hag fr hf := (h.phase.of_frame hf).body o hag
  available := by
    constructor
    · intro ha
      by_contra he
      rw [(h.value_of_not_ended he).1] at ha
      cases ha
    · intro he
      obtain ⟨r, -, hv, -, -⟩ := h.value_of_ended he
      rw [hv, FutureState.available_ofResult]
  resolved := by
    by_cases he : s.Ended
    · obtain ⟨r, -, -, hn, -⟩ := h.value_of_ended he
      exact ⟨Nat.le_of_eq hn, fun _ => he, fun _ => hn⟩
    · have hn := (h.value_of_not_ended he).2
      exact ⟨hn ▸ Nat.zero_le 1, fun h1 => absurd (hn.symm.trans h1) Nat.zero_ne_one,
        fun hend => absurd hend he⟩
  result he := by
    obtain ⟨r, -, hv, -, hg⟩ := h.value_of_ended he
    exact ⟨r, hv, fun o hag => ⟨_, hg o hag⟩⟩
  usable he hs := by
    obtain ⟨r, hp, hv, -, -⟩ := h.value_of_ended he
    rw [hs] at hp
    obtain ⟨d, c, hd, hc⟩ := hp.attach_eq
    obtain ⟨-, hpaid⟩ := hp.attach hd
    refine ⟨_, Option.map_eq_some_iff.mpr ⟨d, ?_, rfl⟩, ?_, ?_⟩
    · rw [he.2]
      exact hd
    · rw [hv]
      refine value_of_paid ?_ ?_
      · rw [he.2]
        rfl
      · simpa [hs] using hpaid
    · simp [hc]
  starts hc := ⟨_, _, by rw [Coroutine.step, hc]; rfl, rfl, rfl, rfl⟩
  ends _ _ hf hs hp := h.go_done hf hs hp
  takes _ _ _ hf hs hp hi hr := h.go_ready hf hs hp hi hr
  suspends _ _ hf hs hp hi hr hab := h.go_pending hf hs hp hi hr hab
  resumes i hs hr := by
    obtain ⟨r, hr⟩ := Option.ne_none_iff_exists'.mp hr
    rw [(h.awaits.suspended i hs).2.tasks_eq hr]
    exact List.cons_ne_nil _ _
  runs := h.run_eq

/-- Coroutines over futures are straight-line code. -/
theorem coroutine_straight_line {inputs : ι → Option (Except Exn ν)}
    {as : List (CoroutineAct ι ν)} {s : Coroutine σ ι ν ρ}
    (h : (coroutineMachine D inputs).Reaches as s) :
    StraightLine D s ∧
      ∀ (inputs' : ι → Option (Except Exn ν)) (as' : List (CoroutineAct ι ν))
        (s' : Coroutine σ ι ν ρ), (coroutineMachine D inputs').Reaches as' s' →
        (∀ i q r, (s.inputs i).outcome = some q → (s'.inputs i).outcome = some r → q = r) →
        s.Ended → s'.Ended → s'.value = s.value ∧ s'.yielded = s.yielded :=
  ⟨(coroutine_inv h).straightLine, fun _ _ _ h' => (coroutine_inv h).same_end (coroutine_inv h')⟩

/-- `co_return co_await f + co_await g`. -/
def addBody : CoroutineBody (Except Exn (List Nat)) Bool Nat Nat where
  start := .ok []
  point
    | .ok [] => .ask false
    | .ok [_] => .ask true
    | .ok (a :: b :: _) => .done (.ok (a + b))
    | .error e => .done (.error e)
  resume
    | .ok l, .ok v => .ok (l ++ [v])
    | .ok _, .error e => .error e
    | .error e, _ => .error e

/-- Once both futures are ready at first, and once the second one is resolved after its await. -/
theorem coroutine_straight_line_add : ∃ s s' : Coroutine (Except Exn (List Nat)) Bool Nat Nat,
    (coroutineMachine addBody fun i => some (.ok (if i then 4 else 3))).Reaches
        [.call, .go, .go, .go] s ∧
      (coroutineMachine addBody fun _ => none).Reaches
        [.call, .resolve false (.ok 3), .go, .go, .attach, .resolve true (.ok 4), .destroy true,
          .run, .go] s' ∧
      s.Ended ∧ s'.Ended ∧ s.value = .result 7 ∧
      StraightLine addBody s ∧ s'.value = s.value ∧ s'.yielded = s.yielded := by
  refine ⟨_, _, rfl, rfl, ⟨rfl, rfl⟩, ⟨rfl, rfl⟩, rfl, ?_⟩
  refine (coroutine_straight_line (rfl :
    (coroutineMachine addBody fun i => some (.ok (if i then 4 else 3))).Reaches
      [.call, .go, .go, .go] _)).imp_right fun hsame => hsame (fun _ => none)
    [.call, .resolve false (.ok 3), .go, .go, .attach, .resolve true (.ok 4), .destroy true,
      .run, .go] _ rfl (fun i q r hq hr => ?_) ⟨rfl, rfl⟩ ⟨rfl, rfl⟩
  have hq' : some (.ok (if i then 4 else 3)) = some q := by
    cases i <;> exact hq
  have hr' : some (.ok (if i then 4 else 3)) = some r := by
    cases i <;> exact hr
  exact Option.some.inj (hq'.symm.trans hr')

end Miniss
