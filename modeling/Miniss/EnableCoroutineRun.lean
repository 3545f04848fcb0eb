import Miniss.EnableCoroutineSteps

/-! Coroutines in whole runs: what holds of the place of the body and of the returned future in
every state. -/
namespace Miniss
variable {σ ι ν ρ : Type*}

namespace Coroutine

structure Running (D : CoroutineBody σ ι ν ρ) (s : Coroutine σ ι ν ρ)
    (fr : CoroutineFrame σ ι ρ) : Prop where
  called : s.called = true
  frame : s.frame = some fr
  owed : Owed fr.pr_ s.future s.scheduled
  resolved : s.resolved = 0
  body : ∀ o, s.Agrees o → fr.body = D.straight o s.yielded.length
  asks : ∀ i, fr.suspended = some i → D.point fr.body = .ask i

/-- The call: before it, while there is a frame, and behind the end of the body. -/
inductive Phase (D : CoroutineBody σ ι ν ρ) (s : Coroutine σ ι ν ρ) : Prop
  | before (hc : s.called = false) (hf : s.frame = none) (hy : s.yielded = [])
      (hfut : s.future = ⟨false, .invalid⟩) (hs : s.scheduled = []) (hn : s.resolved = 0)
  | running (fr : CoroutineFrame σ ι ρ) (h : Running D s fr)
  | ended (r : Except Exn ρ) (hc : s.called = true) (hf : s.frame = none)
      (hp : Paid r s.future s.scheduled) (hn : s.resolved = 1)
      (hb : ∀ o, s.Agrees o → D.point (D.straight o s.yielded.length) = .done r)

structure Inv (D : CoroutineBody σ ι ν ρ) (s : Coroutine σ ι ν ρ) : Prop where
  awaits : s.Awaits
  transcript : ∀ o, s.Agrees o → s.yielded = D.transcript o s.yielded.length
  phase : s.Phase D

variable {D : CoroutineBody σ ι ν ρ} {s t : Coroutine σ ι ν ρ}

theorem Phase.keep (h : s.Phase D) (hc : t.called = s.called) (hf : t.frame = s.frame)
    (hfut : t.future = s.future) (hs : t.scheduled = s.scheduled) (hn : t.resolved = s.resolved)
    (hy : t.yielded = s.yielded) (ha : ∀ o, t.Agrees o → s.Agrees o) : t.Phase D := by
  cases h with
  | before c f y u e n =>
    exact .before (hc.trans c) (hf.trans f) (hy.trans y) (hfut.trans u) (hs.trans e) (hn.trans n)
  | running fr h =>
    exact .running fr
      { called := hc.trans h.called
        frame := hf.trans h.frame
        owed := hfut ▸ hs ▸ h.owed
        resolved := hn.trans h.resolved
        body := fun o hag => hy ▸ h.body o (ha o hag)
        asks := h.asks }
  | ended r c f hp n hb =>
    exact .ended r (hc.trans c) (hf.trans f) (hfut ▸ hs ▸ hp) (hn.trans n)
      fun o h => hy ▸ hb o (ha o h)

theorem Phase.of_frame (h : s.Phase D) {fr : CoroutineFrame σ ι ρ} (hf : s.frame = some fr) :
    Running D s fr := by
  cases h with
  | before hc hf' => cases hf'.symm.trans hf
  | running fr' h =>
    cases h.frame.symm.trans hf
    exact h
  | ended r hc hf' => cases hf'.symm.trans hf

theorem init_inv (inputs : ι → Option (Except Exn ν)) :
    (init inputs : Coroutine σ ι ν ρ).Inv D where
  awaits :=
    { fresh := fun i _ _ => CoroutineInput.input_fresh (inputs i)
      suspended := nofun
      taken := nofun
      idle := fun _ => rfl
      nodup := List.nodup_nil }
  transcript _ _ := rfl
  phase := .before rfl rfl rfl rfl rfl rfl

theorem Inv.attach (h : s.Inv D) (ht : s.attach = some t) : t.Inv D := by
  obtain ⟨d, hd, rfl⟩ := Option.map_eq_some_iff.mp ht
  cases h.phase with
  | before hc hf hy hfut hs hn =>
    rw [hfut] at hd
    cases (Future.schedule_dead rfl _ _).symm.trans hd
  | running fr hrun =>
    rw [hrun.frame] at hd
    obtain ⟨q, hq, howed⟩ := hrun.owed.attach hd
    have hframe : (s.frame.bind fun fr => d.2.1.map fun p => { fr with pr_ := p }) =
        some { fr with pr_ := q } := by
      rw [hrun.frame, hq]
      rfl
    refine ⟨h.awaits.keep rfl rfl rfl ?_, h.transcript,
      .running _ ⟨hrun.called, hframe, howed, hrun.resolved, hrun.body, hrun.asks⟩⟩
    rw [suspended, suspended, hframe, hrun.frame]
    rfl
  | ended r hc hf hp hn hb =>
    rw [hf] at hd
    obtain ⟨-, hpaid⟩ := hp.attach hd
    have hframe : (s.frame.bind fun fr => d.2.1.map fun p => { fr with pr_ := p }) = none := by
      rw [hf]
      rfl
    refine ⟨h.awaits.keep rfl rfl rfl ?_, h.transcript, .ended r hc hframe hpaid hn hb⟩
    rw [suspended, suspended, hframe, hf]

theorem Inv.call (h : s.Inv D) (hc : s.called = false) (ht : s.call D = some t) : t.Inv D := by
  cases ht
  cases h.phase with
  | before c hf hy hfut hs hn =>
    refine ⟨h.awaits.keep rfl rfl rfl ?_, h.transcript,
      .running _ ⟨rfl, rfl, hs ▸ .held .future rfl, hn, fun o _ => ?_, nofun⟩⟩
    · rw [suspended, suspended, hf]
      rfl
    · rw [hy]
      rfl
  | running fr h => cases h.called.symm.trans hc
  | ended r c => cases c.symm.trans hc

theorem Inv.finish (h : s.Inv D) {fr : CoroutineFrame σ ι ρ} (hf : s.frame = some fr)
    (hs : s.suspended = none) {r : Except Exn ρ} (hp : D.point fr.body = .done r)
    (ht : s.finish (fr.pr_.set r) = some t) : t.Inv D := by
  have hrun := h.phase.of_frame hf
  obtain ⟨d, g, hd, hg, hpaid⟩ := hrun.owed.finish r
  simp only [Coroutine.finish, hd, hg, Option.map_some, Option.some.injEq] at ht
  subst ht
  refine ⟨h.awaits.keep rfl rfl rfl hs.symm, h.transcript,
    .ended r hrun.called rfl hpaid (congrArg (· + 1) hrun.resolved) fun o hag => ?_⟩
  rw [← hp, hrun.body o hag]

variable [DecidableEq ι]

theorem Agrees.of_update {o : ι → Except Exn ν} {i : ι} {a : CoroutineInput ι ν}
    (h : t.Agrees o) (ht : t.inputs = Function.update s.inputs i a)
    (ha : ∀ r, (s.inputs i).outcome = some r → a.outcome = some r) : s.Agrees o := by
  intro j r hr
  refine h j r ?_
  rw [ht]
  by_cases hj : j = i
  · subst hj
    rw [Function.update_self]
    exact ha r hr
  · rw [Function.update_of_ne hj]
    exact hr

/-- The body, in the place where it asks for the result of a future, goes on with it. -/
theorem Inv.yield (h : s.Inv D) {fr : CoroutineFrame σ ι ρ} (hf : s.frame = some fr) {i : ι}
    (hask : D.point fr.body = .ask i) (hi : i ∉ s.awaited)
    (hs : ∀ j, fr.suspended = some j → j = i) {a : CoroutineInput ι ν} {r : Except Exn ν}
    (hr : (s.inputs i).outcome = some r) (ha : a.Taken r) :
    Inv D
      { s with
        inputs := Function.update s.inputs i a
        tasks := []
        frame := some { fr with body := D.resume fr.body r, suspended := none }
        yielded := s.yielded ++ [(i, r)] } := by
  have hrun := h.phase.of_frame hf
  have hsus (j : ι) (hj : s.suspended = some j) : j = i := by
    rw [suspended, hf] at hj
    exact hs j hj
  have hlen : (s.yielded ++ [(i, r)]).length = s.yielded.length + 1 := List.length_append
  -- the straight-line code asks for the same result
  have hstraight {t : Coroutine σ ι ν ρ} (ht : t.inputs = Function.update s.inputs i a)
      (o : ι → Except Exn ν) (hag : t.Agrees o) : s.Agrees o ∧ o i = r ∧
        D.point (D.straight o s.yielded.length) = .ask i := by
    have hsa : s.Agrees o := hag.of_update ht fun q hq => ha.outcome_eq.trans (hr.symm.trans hq)
    exact ⟨hsa, hsa i r hr, hrun.body o hsa ▸ hask⟩
  refine ⟨h.awaits.yield hi hsus ha fr _, fun o hag => ?_,
    .running _ ⟨hrun.called, rfl, hrun.owed, hrun.resolved, fun o hag => ?_, nofun⟩⟩
  · obtain ⟨hsa, hoi, hp⟩ := hstraight rfl o hag
    change s.yielded ++ [(i, r)] = D.transcript o (s.yielded ++ [(i, r)]).length
    rw [hlen, Dialogue.transcript_succ_of_ask hp, hoi, ← h.transcript o hsa]
  · obtain ⟨hsa, hoi, hp⟩ := hstraight rfl o hag
    change D.resume fr.body r = D.straight o (s.yielded ++ [(i, r)]).length
    rw [hlen, Dialogue.straight_succ_of_ask hp, hoi, ← hrun.body o hsa]

theorem Inv.ready (h : s.Inv D) {fr : CoroutineFrame σ ι ρ} (hf : s.frame = some fr)
    (hs : s.suspended = none) {i : ι} (hask : D.point fr.body = .ask i)
    (hready : (s.inputs i).awaitReady = some true) (ht : s.resume D fr i = some t) :
    t.Inv D := by
  obtain ⟨hi, hfr⟩ | ⟨q, hq⟩ := h.awaits.fresh_or_taken (i := i) (by rw [hs]; nofun)
  · rw [hfr.awaitReady_eq, Option.some.injEq, Option.isSome_iff_exists] at hready
    obtain ⟨r, hr⟩ := hready
    obtain ⟨b, hb, htaken⟩ := hfr.awaitResume_eq hr
    obtain ⟨r', a, hra, rfl⟩ := resume_cases ht
    cases hb.symm.trans hra
    have hfs : fr.suspended = none := by rwa [suspended, hf] at hs
    have hnext := h.yield hf hask hi (fun j hj => by rw [hfs] at hj; cases hj) hr htaken
    rwa [← h.awaits.idle hs] at hnext
  · cases hq.awaitReady_eq.symm.trans hready

theorem Inv.suspend (h : s.Inv D) {fr : CoroutineFrame σ ι ρ} (hf : s.frame = some fr)
    (hs : s.suspended = none) {i : ι} (hask : D.point fr.body = .ask i)
    (hready : (s.inputs i).awaitReady = some false)
    {d : CoroutineInput ι ν × Option (Continuation ν (AwaitFunc ι))}
    (hd : (s.inputs i).awaitSuspend i = some d) :
    Inv D
      { s with
        inputs := Function.update s.inputs i d.1
        tasks := s.tasks ++ d.2.toList
        frame := some { fr with suspended := some i } } := by
  obtain ⟨hi, hfr⟩ | ⟨q, hq⟩ := h.awaits.fresh_or_taken (i := i) (by rw [hs]; nofun)
  · have hnone : (s.inputs i).outcome = none := by
      rw [hfr.awaitReady_eq, Option.some.injEq, Option.isSome_eq_false_iff,
        Option.isNone_iff_eq_none] at hready
      exact hready
    obtain ⟨b, hb, hsus⟩ := hfr.awaitSuspend_eq hnone (hfr.not_abandoned hd) i
    cases hb.symm.trans hd
    have hrun := h.phase.of_frame hf
    have hagree (o : ι → Except Exn ν) {u : Coroutine σ ι ν ρ}
        (hu : u.inputs = Function.update s.inputs i b) (hag : u.Agrees o) : s.Agrees o :=
      hag.of_update hu fun r hr => by rw [hnone] at hr; cases hr
    exact ⟨h.awaits.suspend hs hi hsus fr, fun o hag => h.transcript o (hagree o rfl hag),
      .running _ ⟨hrun.called, rfl, hrun.owed, hrun.resolved,
        fun o hag => hrun.body o (hagree o rfl hag), fun j hj => Option.some.inj hj ▸ hask⟩⟩
  · cases (hq.awaitSuspend_eq i).symm.trans hd

theorem Inv.go (h : s.Inv D) (ht : s.go D = some t) : t.Inv D := by
  obtain ⟨fr, hf, hfs, hcase⟩ := go_cases ht
  have hs : s.suspended = none := by rw [suspended, hf]; exact hfs
  obtain ⟨r, hp, ht⟩ | ⟨i, hask, ⟨hready, ht⟩ | ⟨hready, d, hd, rfl⟩⟩ := hcase
  · exact h.finish hf hs hp ht
  · exact h.ready hf hs hask hready ht
  · exact h.suspend hf hs hask hready hd

theorem Inv.run (h : s.Inv D) (ht : s.run D = some t) : t.Inv D := by
  obtain ⟨c, rest, fr, hts, hf, hfs, hres⟩ := run_cases ht
  generalize c.func.awaiter = i at hfs hres
  have hs : s.suspended = some i := by rw [suspended, hf]; exact hfs
  obtain ⟨hi, hin⟩ := h.awaits.suspended i hs
  obtain ⟨r, b, -, rfl, hr, hb, htaken⟩ := hin.awaitResume_eq hts
  obtain ⟨r', a, hra, rfl⟩ := resume_cases hres
  simp only [Function.update_self] at hra
  cases hb.symm.trans hra
  have hask := (h.phase.of_frame hf).asks i hfs
  simpa only [Function.update_idem] using
    h.yield hf hask hi (fun j hj => Option.some.inj (hj.symm.trans hfs)) hr htaken

theorem Inv.resolve (h : s.Inv D) {i : ι} {r : Except Exn ν} (ht : s.resolve i r = some t) :
    t.Inv D := by
  obtain ⟨ha, hnone⟩ := h.awaits.resolve ht
  obtain ⟨p, d, -, -, rfl⟩ := resolve_cases ht
  have hagree (o : ι → Except Exn ν) {u : Coroutine σ ι ν ρ}
      (hu : u.inputs = Function.update s.inputs i
        { s.inputs i with promise := some d.1, outcome := some r })
      (hag : u.Agrees o) : s.Agrees o :=
    hag.of_update hu fun q hq => by rw [hnone] at hq; cases hq
  exact ⟨ha, fun o hag => h.transcript o (hagree o rfl hag),
    h.phase.keep rfl rfl rfl rfl rfl rfl fun o hag => hagree o rfl hag⟩

theorem Inv.destroy (h : s.Inv D) {i : ι} (ht : s.destroy i = some t) : t.Inv D := by
  have ha := h.awaits.destroy ht
  obtain ⟨p, d, -, -, rfl⟩ := destroy_cases ht
  have hagree (o : ι → Except Exn ν) {u : Coroutine σ ι ν ρ}
      (hu : u.inputs = Function.update s.inputs i
        { s.inputs i with promise := none, future := d.1 })
      (hag : u.Agrees o) : s.Agrees o := hag.of_update hu fun q hq => hq
  exact ⟨ha, fun o hag => h.transcript o (hagree o rfl hag),
    h.phase.keep rfl rfl rfl rfl rfl rfl fun o hag => hagree o rfl hag⟩

theorem Inv.step (h : s.Inv D) {a : CoroutineAct ι ν} (ht : s.step D a = some t) : t.Inv D := by
  cases a with
  | resolve i r => exact h.resolve ht
  | destroy i => exact h.destroy ht
  | call =>
    obtain ⟨hc, ht⟩ := Option.ite_none_left_eq_some.mp ht
    exact h.call (Bool.not_eq_true _ ▸ hc) ht
  | go => exact h.go ht
  | run => exact h.run ht
  | attach => exact h.attach ht

end Coroutine

theorem coroutine_inv [DecidableEq ι] {D : CoroutineBody σ ι ν ρ}
    {inputs : ι → Option (Except Exn ν)} {as : List (CoroutineAct ι ν)} {s : Coroutine σ ι ν ρ}
    (h : (coroutineMachine D inputs).Reaches as s) : s.Inv D :=
  h.invariant (I := fun s => s.Inv D) (Coroutine.init_inv inputs) fun _ _ _ hi hst => hi.step hst

end Miniss
