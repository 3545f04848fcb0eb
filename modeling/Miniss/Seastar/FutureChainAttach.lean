import Miniss.Seastar.FutureChainLinks

/-! What `then` and the start of a computation do to the chains. -/
namespace Miniss
open FutureValues

variable {ν ε ρ : Type*} {s s' : ChainValues ν ε ρ}

def attachedAvailable (s : ChainValues ν ε ρ) (n f c : ℕ) (k : Continuation ν (Captured ν ε ρ)) :
    ChainValues ν ε ρ where
  values := Function.update (Function.update s.values s.next ⟨.future, none⟩) c ⟨.invalid, none⟩
  next := s.next + 1
  promises := s.promises.link (n + 2) s.next
  spent := ∅
  futures := (s.futures.link n s.next).unlink f
  scheduled := s.scheduled ++ [k]

theorem does_attach_available {i n f c : ℕ} {k : Callback ν ε ρ} {r : Except Exn ν}
    (hs : Clean s n) (hf : s.futures f = some c) (hv : s.values c = ⟨.ofResult r, none⟩) :
    Does s (attachOps i n f k) (attachedAvailable s n f c ⟨.ofResult r, ⟨i, n + 2, k⟩⟩) := by
  intro out
  have hc := hs.fresh.future_lt hf
  have h0 := hs.promise n le_rfl
  have h1 := hs.promise (n + 1) (by omega)
  have h2 := hs.promise (n + 2) (by omega)
  have hfn := hs.future n le_rfl
  have hnf : f ≠ n := by grind
  obtain ⟨-, hsymm⟩ := hs.fresh s.next le_rfl
  simp [attachOps, attachedAvailable, Machine.exec_cons, machine, step, newPromise, getFuture,
    movePromise, schedule, destroyPromise, destroyFuture, PEquiv.link_apply, Vacant,
    PEquiv.link_link, h0, h1, h2,
    hs.spent, hfn, hf, hv, hnf, hc.ne, hsymm]


def attachedPending (s : ChainValues ν ε ρ) (n f c : ℕ) (k : Captured ν ε ρ) :
    ChainValues ν ε ρ where
  values := Function.update (Function.update (Function.update s.values s.next ⟨.future, none⟩)
    (s.next + 1) ⟨.future, none⟩) c ⟨.future, some k⟩
  next := s.next + 2
  promises := s.promises.link (n + 2) s.next
  spent := ∅
  futures := ((s.futures.link n s.next).link f (s.next + 1)).unlink f
  scheduled := s.scheduled

theorem does_attach_pending {i n f a c : ℕ} {k : Callback ν ε ρ}
    (hs : Clean s n) (hf : s.futures f = some c) (ha : s.promises a = some c)
    (hv : s.values c = ⟨.future, none⟩) :
    Does s (attachOps i n f k) (attachedPending s n f c ⟨i, n + 2, k⟩) := by
  intro out
  have hc := hs.fresh.future_lt hf
  have h0 := hs.promise n le_rfl
  have h1 := hs.promise (n + 1) (by omega)
  have h2 := hs.promise (n + 2) (by omega)
  have hfn := hs.future n le_rfl
  have hnf : f ≠ n := by grind
  obtain ⟨-, hsymm⟩ := hs.fresh s.next le_rfl
  have hp : s.promises.symm c = some a := by grind
  have han : a < n := by
    by_contra hge
    cases (hs.promise a (not_lt.mp hge)).symm.trans ha
  have h2' : a ≠ n + 2 := by omega
  simp [attachOps, attachedPending, Machine.exec_cons, machine, step, newPromise, getFuture,
    movePromise, schedule, destroyPromise, destroyFuture, PEquiv.link_apply, Vacant,
    PEquiv.link_link, h0, h1, h2, hs.spent, hfn, hf, hv, hnf, hc.ne, hsymm,
    FutureState.available, renew, put, PEquiv.link_symm_apply, hp, h2']

/-- What both kinds of `then` do: the new future `n` has a value of its own, that the promise at
`n + 2` sets, and the future `f` is gone. -/
structure Attached (s s' : ChainValues ν ε ρ) (n f : ℕ) : Prop where
  spent : s'.spent = ∅
  next : s.next < s'.next
  promises : ∀ a, s'.promises a = if a = n + 2 then some s.next else s.promises a
  futures : ∀ g, s'.futures g = if g = n then some s.next else if g = f then none else s.futures g
  values : ∀ c, c < s.next → s.futures f ≠ some c → s'.values c = s.values c
  value : s'.values s.next = ⟨.future, none⟩
  captured : ∀ c k, s.futures f = some c → s'.values c = ⟨.future, some k⟩ → k.pr = n + 2

theorem attached_available {n f c : ℕ} {k : Continuation ν (Captured ν ε ρ)} (hs : Clean s n)
    (hf : s.futures f = some c) : Attached s (attachedAvailable s n f c k) n f := by
  have hc := hs.fresh.future_lt hf
  have hp (a : ℕ) (ha : n ≤ a) := hs.promise a ha
  have hfresh (a : ℕ) : s.promises a ≠ some s.next := fun ha => (hs.fresh.promise_lt ha).false
  have hfresh' (g : ℕ) : s.futures g ≠ some s.next := fun hg => (hs.fresh.future_lt hg).false
  have hfn := hs.future n le_rfl
  refine ⟨rfl, Nat.lt_succ_self _, fun a => ?_, fun g => ?_, fun d hd hfd => ?_, ?_,
    fun d k' hfd hv => ?_⟩
  · grind [attachedAvailable]
  · grind [attachedAvailable]
  · have hdc : d ≠ c := fun h => hfd (h ▸ hf)
    simp [attachedAvailable, hd.ne, hdc]
  · simp [attachedAvailable, hc.ne']
  · obtain rfl := Option.some.inj (hf.symm.trans hfd)
    simp [attachedAvailable] at hv

theorem attached_pending {n f c : ℕ} {k : Captured ν ε ρ} (hs : Clean s n)
    (hf : s.futures f = some c) (hpr : k.pr = n + 2) :
    Attached s (attachedPending s n f c k) n f := by
  have hc := hs.fresh.future_lt hf
  have hp (a : ℕ) (ha : n ≤ a) := hs.promise a ha
  have hfresh (a : ℕ) : s.promises a ≠ some s.next := fun ha => (hs.fresh.promise_lt ha).false
  have hfresh' (g : ℕ) (j) (hj : s.next ≤ j) : s.futures g ≠ some j :=
    fun hg => (hs.fresh.future_lt hg).not_ge hj
  have hfn := hs.future n le_rfl
  refine ⟨rfl, Nat.lt_add_of_pos_right Nat.two_pos, fun a => ?_, fun g => ?_,
    fun d hd hfd => ?_, ?_, fun d k' hfd hv => ?_⟩
  · grind [attachedPending]
  · grind [attachedPending]
  · have hdc : d ≠ c := fun h => hfd (h ▸ hf)
    have hd' : d ≠ s.next + 1 := by omega
    simp [attachedPending, hd.ne, hdc, hd']
  · simp [attachedPending, hc.ne']
  · obtain rfl := Option.some.inj (hf.symm.trans hfd)
    simp only [attachedPending, Function.update_self, LogicalValue.mk.injEq, Option.some.injEq,
      true_and] at hv
    rw [← hv, hpr]

section Attached

variable {n f : ℕ}

theorem Attached.promise_eq (h : Attached s s' n f) (hs : Clean s n) {a c : ℕ}
    (ha : s.promises a = some c) : s'.promises a = some c := by
  have hp := hs.promise a
  rw [h.promises, if_neg (by grind), ha]

theorem Attached.forward (h : Attached s s' n f) (hs : Clean s n)
    (hend : ∀ c, s.futures f = some c → (s.values c).func = none) {a g : ℕ}
    {ks : List (ℕ × Callback ν ε ρ)} (hg : g ≠ f) (hw : Waits s a ks g) : Waits s' a ks g := by
  refine hw.of_end hg hend hs.fresh (fun a c => h.promise_eq hs) h.values fun g c hg hgc => ?_
  have := hs.future g
  rw [h.futures, if_neg (by grind), if_neg hg, hgc]

theorem Attached.rest (h : Attached s s' n f) (hs : Clean s n) {g c : ℕ} (hg : g ≠ f)
    (hc : s.futures g = some c) : s'.futures g = some c ∧ s'.values c = s.values c := by
  have := hs.future g
  constructor
  · rw [h.futures, if_neg (by grind), if_neg hg, hc]
  · exact h.values c (hs.fresh.future_lt hc) fun hfc => hg (s.futures.inj hc hfc)

theorem Attached.waits (h : Attached s s' n f) : Waits s' (n + 2) [] n :=
  ⟨s.next, by rw [h.promises, if_pos rfl], by rw [h.futures, if_pos rfl], h.value⟩

theorem Attached.next_back (h : Attached s s' n f) (hs : Clean s n) {a b : ℕ} (hn : Next s' a b) :
    Next s a b ∨ b = n + 2 ∧ ∃ c, s.promises a = some c ∧ s.futures f = some c := by
  obtain ⟨c, i, k, hc, hv⟩ := hn
  rw [h.promises] at hc
  split at hc
  · obtain rfl := Option.some.inj hc
    cases h.value.symm.trans hv
  · by_cases hfc : s.futures f = some c
    · exact .inr ⟨h.captured c _ hfc hv, c, hc, hfc⟩
    · rw [h.values c (hs.fresh.promise_lt hc) hfc] at hv
      exact .inl ⟨c, i, k, hc, hv⟩

theorem Attached.not_next (hs : Clean s n) (a : ℕ) : ¬ Next s a (n + 2) := by
  intro h
  obtain ⟨c, hc⟩ := hs.next h
  exact absurd (hs.promise_lt hc) (by omega)

end Attached

theorem attach_pending {i n f b : ℕ} (k : Callback ν ε ρ) (hs : Clean s n)
    (hb : Waits s b [] f) : ∃ s', Does s (attachOps i n f k) s' ∧ Attached s s' n f ∧
      s'.scheduled = s.scheduled ∧ (∀ c, s.futures f = some c → (s.values c).func = none) ∧
      ∀ a ks, Waits s a ks f → Waits s' a (ks ++ [(i, k)]) n := by
  obtain ⟨c, hbc, hf, hv⟩ := hb
  have ha := attached_pending (k := ⟨i, n + 2, k⟩) hs hf rfl
  have hend : ∀ c, s.futures f = some c → (s.values c).func = none := by
    intro d hd
    rw [← Option.some.inj (hf.symm.trans hd), hv]
  refine ⟨_, does_attach_pending hs hf hbc hv, ha, rfl, hend, fun a ks h => ?_⟩
  refine h.plug (fun d hd => ?_) fun d k' ks' hd => ?_
  · obtain ⟨c', hdc, hfc, -⟩ := hd
    obtain rfl := Option.some.inj (hf.symm.trans hfc)
    exact ⟨c, n + 2, ha.promise_eq hs hdc, Function.update_self .., ha.waits⟩
  · obtain ⟨c', d', hdc, hvc, -⟩ := hd
    refine ⟨(ha.promise_eq hs hdc).trans hdc.symm, fun c'' hc'' => ?_⟩
    obtain rfl := Option.some.inj (hdc.symm.trans hc'')
    refine ha.values c' (hs.fresh.promise_lt hdc) fun hfc => ?_
    have hnone := hend c' hfc
    rw [hvc] at hnone
    cases hnone

theorem attach_available {i n f : ℕ} {r : Except Exn ν} (k : Callback ν ε ρ) (hs : Clean s n)
    (hf : Done s r f) : ∃ s', Does s (attachOps i n f k) s' ∧ Attached s s' n f ∧
      s'.scheduled = s.scheduled ++ [⟨.ofResult r, ⟨i, n + 2, k⟩⟩] ∧
      (∀ c, s.futures f = some c → (s.values c).func = none) ∧ ∀ a ks, ¬ Waits s a ks f := by
  obtain ⟨c, hf, hv⟩ := hf
  refine ⟨_, does_attach_available hs hf hv, attached_available hs hf, rfl, fun d hd => ?_,
    fun a ks h => ?_⟩
  · rw [← Option.some.inj (hf.symm.trans hd), hv]
  · obtain ⟨c', hfc, hvc⟩ := h.future
    obtain rfl := Option.some.inj (hf.symm.trans hfc)
    rw [hv] at hvc
    cases r <;> cases hvc

/-- What every `then` does: the chain to `f` goes on to the new future `n`, and the others stay. -/
structure Extended (s s' : ChainValues ν ε ρ) (n f : ℕ) : Prop where
  clean : Clean s' (n + 3)
  kept : Kept s s' fun g => g < n ∧ g ≠ f
  futures : ∀ g, g ≠ n → s'.futures g = if g = f then none else s.futures g

theorem Attached.extended {n f : ℕ} (h : Attached s s' n f) (hs : Clean s n)
    (hend : ∀ c, s.futures f = some c → (s.values c).func = none)
    (hf : ∀ a ks, Waits s a ks f → ∃ ks', Waits s' a ks' n) : Extended s s' n f where
  clean := by
    have hp := h.promises
    have hfu := h.futures
    have hlt := h.next
    refine ⟨hs.fresh.grow hlt.le (by grind) (by grind), h.spent, fun a ha => ?_, fun g hg => ?_,
      fun a c ha => ?_, fun a a' b ha ha' => ?_⟩
    · rw [hp, if_neg (by omega), hs.promise a (by omega)]
    · rw [hfu, if_neg (by omega), hs.future g (by omega)]
      split <;> rfl
    · rw [hp] at ha
      split at ha
      · next he => exact ⟨[], n, he ▸ h.waits⟩
      · obtain ⟨ks, g, hw⟩ := hs.waits a c ha
        by_cases hg : g = f
        · obtain ⟨ks', hw'⟩ := hf a ks (hg ▸ hw)
          exact ⟨ks', n, hw'⟩
        · exact ⟨ks, g, h.forward hs hend hg hw⟩
    · obtain hn | ⟨rfl, c, hc, hfc⟩ := h.next_back hs ha
      · obtain hn' | ⟨rfl, -⟩ := h.next_back hs ha'
        · exact hs.once a a' b hn hn'
        · exact absurd hn (Attached.not_next hs a)
      · obtain hn' | ⟨-, c', hc', hfc'⟩ := h.next_back hs ha'
        · exact absurd hn' (Attached.not_next hs a')
        · obtain rfl := Option.some.inj (hfc.symm.trans hfc')
          exact s.promises.inj hc hc'
  kept := by
    refine ⟨fun a ks g hg => h.forward hs hend hg.2, fun g c hg hc _ => h.rest hs hg.2 hc,
      fun a b ks g _ hw hn => ?_⟩
    obtain hn | ⟨rfl, -⟩ := h.next_back hs hn
    · exact ⟨a, hn⟩
    · obtain ⟨c, hc⟩ := hw.promise
      exact absurd (hs.promise_lt hc) (by omega)
  futures g hg := by rw [h.futures, if_neg hg]

/-- `then` and `then_wrapped` put the callback under the stack of the fiber. -/
theorem Holds.attach {i n f : ℕ} {x : Fiber ν ε ρ} {ts : List (Continuation ν (Captured ν ε ρ))}
    {a : Option (ℕ × ρ)} (hs : Clean s n) (h : Holds s i f x ts a) (k : Callback ν ε ρ) :
    ∃ s' ts', Does s (attachOps i n f k) s' ∧ Extended s s' n f ∧
      Holds s' i n (x.under [k]) (ts ++ ts') a ∧ s'.scheduled = s.scheduled ++ ts' := by
  have hpending (b : ℕ) (ks : List (Callback ν ε ρ)) (hb : Head s b (ks.map (i, ·)) f) :
      ∃ s', Does s (attachOps i n f k) s' ∧ Extended s s' n f ∧ s'.scheduled = s.scheduled ∧
        Head s' b ((ks ++ [k]).map (i, ·)) n := by
    obtain ⟨d, hd⟩ := hb.waits.last
    obtain ⟨s', hdoes, hatt, hq, hend, hw⟩ := attach_pending k hs hd
    refine ⟨s', hdoes, hatt.extended hs hend fun a ks h => ⟨_, hw a ks h⟩, hq, ?_, fun a ha => ?_⟩
    · rw [List.map_append]
      exact hw _ _ hb.waits
    · obtain hn | ⟨rfl, -⟩ := hatt.next_back hs ha
      · exact hb.top a hn
      · obtain ⟨c, hc⟩ := hb.waits.promise
        exact absurd (hs.promise_lt hc) (by omega)
  cases h with
  | done h =>
    obtain ⟨s', hdoes, hatt, hq, hend, hno⟩ := attach_available k hs h
    refine ⟨s', _, hdoes, hatt.extended hs hend fun a ks h => absurd h (hno a ks),
      Holds.task_nil ⟨hatt.waits, fun a ha => ?_⟩, hq⟩
    obtain hn | ⟨-, c, hc, hfc⟩ := hatt.next_back hs ha
    · exact Attached.not_next hs a hn
    · obtain ⟨ks, g, hw⟩ := hs.waits a c hc
      cases ks with
      | nil =>
        obtain ⟨c', hc', hgc, hv⟩ := hw
        obtain rfl := Option.some.inj (hc.symm.trans hc')
        exact hno a [] ⟨c, hc, hfc, hv⟩
      | cons k' ks =>
        obtain ⟨c', b, hc', hv, -⟩ := hw
        obtain rfl := Option.some.inj (hc.symm.trans hc')
        have hnone := hend c hfc
        rw [hv] at hnone
        cases hnone
  | task h =>
    obtain ⟨s', hdoes, hext, hq, hw⟩ := hpending _ _ h
    exact ⟨s', [], hdoes, hext, .task hw, by rw [hq, List.append_nil]⟩
  | request h =>
    obtain ⟨s', hdoes, hext, hq, hw⟩ := hpending _ _ h
    exact ⟨s', [], hdoes, hext, .request hw, by rw [hq, List.append_nil]⟩

/-- What the start of a computation leaves behind: its future, with a fiber that stands at `x`. -/
structure Started (s s' : ChainValues ν ε ρ) (i n : ℕ) (sc : Script ν ε ρ) (x : Fiber ν ε ρ)
    (ts : List (Continuation ν (Captured ν ε ρ))) : Prop where
  le : n ≤ sc.fut
  lt : sc.fut < sc.next
  clean : Clean s' sc.next
  kept : Kept s s' (· < n)
  futures : ∀ g, g ≠ sc.fut → s'.futures g = s.futures g
  holds : Holds s' i sc.fut x ts sc.input
  scheduled : s'.scheduled = s.scheduled ++ ts

/-- A new future `n` whose value no promise will set. -/
structure Made (s s' : ChainValues ν ε ρ) (n c : ℕ) : Prop where
  promises : s'.promises = s.promises
  values : ∀ d, d < s.next → s'.values d = s.values d
  futures : ∀ f, s'.futures f = if f = n then some c else s.futures f
  spent : s'.spent = s.spent
  le : s.next ≤ c
  lt : c < s'.next
  scheduled : s'.scheduled = s.scheduled

namespace Made
variable {n c : ℕ}

theorem future_eq (h : Made s s' n c) (hs : Clean s n) {f d : ℕ} (hf : s.futures f = some d) :
    s'.futures f = some d := by
  have := hs.future f
  rw [h.futures, if_neg (by grind), hf]

theorem forward (h : Made s s' n c) (hs : Clean s n) {a g : ℕ} {ks : List (ℕ × Callback ν ε ρ)}
    (hw : Waits s a ks g) : Waits s' a ks g :=
  hw.of_new hs.fresh (fun a d ha => by rw [h.promises, ha]) h.values fun f d => h.future_eq hs

theorem next_back (h : Made s s' n c) (hs : Clean s n) {a b : ℕ} (hn : Next s' a b) :
    Next s a b := by
  obtain ⟨d, i, k, hd, hv⟩ := hn
  rw [h.promises] at hd
  exact ⟨d, i, k, hd, (h.values d (hs.fresh.promise_lt hd)).symm.trans hv⟩

theorem kept (h : Made s s' n c) (hs : Clean s n) : Kept s s' (· < n) where
  waits _ _ _ _ := h.forward hs
  rest _ d _ hd _ := ⟨h.future_eq hs hd, h.values d (hs.fresh.future_lt hd)⟩
  top a _ _ _ _ _ hn := ⟨a, h.next_back hs hn⟩

theorem clean (h : Made s s' n c) (hs : Clean s n) : Clean s' (n + 1) where
  fresh := by
    have hlt := h.lt
    have hf := h.futures
    exact hs.fresh.grow (h.le.trans hlt.le) (fun a d ha => .inl (h.promises ▸ ha)) (by grind)
  spent := h.spent.trans hs.spent
  promise a ha := by rw [h.promises, hs.promise a (Nat.le_of_succ_le ha)]
  future f hf := by rw [h.futures, if_neg (Nat.ne_of_gt hf), hs.future f (Nat.le_of_succ_le hf)]
  waits a d ha := by
    obtain ⟨ks, g, hw⟩ := hs.waits a d (h.promises ▸ ha)
    exact ⟨ks, g, h.forward hs hw⟩
  once a a' b ha ha' := hs.once a a' b (h.next_back hs ha) (h.next_back hs ha')

end Made

theorem start_ready {i n : ℕ} (r : Except Exn ν) (hs : Clean s n) :
    ∃ s', Does s (startScript i n (.ready r : Computation ν ε ρ)).ops s' ∧
      Started s s' i n (startScript i n (.ready r)) ⟨.answer r, []⟩ [] := by
  have hfn := hs.future n le_rfl
  have hlt (g c : ℕ) (hg : s.futures g = some c) : c ≠ s.next := (hs.fresh.future_lt hg).ne
  have hmade : Made s (s.renew n (.ofResult r)) n s.next := by
    refine ⟨rfl, fun d hd => ?_, fun f => ?_, rfl, le_rfl, Nat.lt_succ_self _, rfl⟩
    · rw [renew_values, if_neg hd.ne]
    · grind [renew_futures]
  refine ⟨_, fun out => ?_, le_rfl, Nat.lt_succ_self n, hmade.clean hs, hmade.kept hs,
    fun g hg => (hmade.futures g).trans (if_neg hg),
    .done ⟨s.next, (hmade.futures n).trans (if_pos rfl), ?_⟩, (List.append_nil _).symm⟩
  · simp [startScript, Machine.exec_cons, machine, step, readyFuture, hfn]
  · rw [renew_values, if_pos rfl]

/-- The promise of a request and its future. -/
def requested (s : ChainValues ν ε ρ) (n : ℕ) : ChainValues ν ε ρ where
  values := Function.update s.values s.next ⟨.future, none⟩
  next := s.next + 1
  promises := s.promises.link n s.next
  spent := s.spent
  futures := s.futures.link n s.next
  scheduled := s.scheduled

theorem start_request {i n : ℕ} (q : ρ) (hs : Clean s n) :
    ∃ s', Does s (startScript i n (.request q : Computation ν ε ρ)).ops s' ∧
      Started s s' i n (startScript i n (.request q)) ⟨.request q, []⟩ [] := by
  have hfn := hs.future n le_rfl
  have hpn := hs.promise n le_rfl
  have hlt (g c : ℕ) (hg : s.futures g = some c) : c ≠ s.next := (hs.fresh.future_lt hg).ne
  have hlt' (a c : ℕ) (ha : s.promises a = some c) : c ≠ s.next := (hs.fresh.promise_lt ha).ne
  have hfut (g : ℕ) : (requested s n).futures g = if g = n then some s.next else s.futures g := by
    grind [requested]
  have hpro (a : ℕ) : (requested s n).promises a =
      if a = n then some s.next else s.promises a := by
    grind [requested]
  have hval (c : ℕ) : (requested s n).values c =
      if c = s.next then ⟨.future, none⟩ else s.values c := Function.update_apply ..
  have hold (g c : ℕ) (hg : s.futures g = some c) : (requested s n).futures g = some c := by
    rw [hfut, if_neg (by grind), hg]
  have hw {a g : ℕ} {ks : List (ℕ × Callback ν ε ρ)} (h : Waits s a ks g) :
      Waits (requested s n) a ks g := by
    refine h.of_new hs.fresh (fun a c ha => ?_) (fun c hc => ?_) hold
    · rw [hpro, if_neg (by grind), ha]
    · rw [hval, if_neg hc.ne]
  have hnew : Waits (requested s n) n [] n :=
    ⟨s.next, (hpro n).trans (if_pos rfl), (hfut n).trans (if_pos rfl),
      (hval s.next).trans (if_pos rfl)⟩
  have hnext {a b : ℕ} (h : Next (requested s n) a b) : Next s a b := by
    obtain ⟨c, i, k, hc, hvc⟩ := h
    rw [hpro] at hc
    split at hc
    · rw [← Option.some.inj hc, hval, if_pos rfl] at hvc
      cases hvc
    · rw [hval, if_neg (hlt' a c hc)] at hvc
      exact ⟨c, i, k, hc, hvc⟩
  have hgrow (a c : ℕ) (h : (requested s n).promises a = some c) :
      s.promises a = some c ∨ c < s.next + 1 := by
    grind
  have hgrow' (g c : ℕ) (h : (requested s n).futures g = some c) :
      s.futures g = some c ∨ c < s.next + 1 := by
    grind
  obtain ⟨-, hsymm⟩ := hs.fresh s.next le_rfl
  refine ⟨requested s n, fun out => ?_, le_rfl, Nat.lt_succ_self n,
    ⟨hs.fresh.grow (Nat.le_succ _) hgrow hgrow', hs.spent, fun a ha => ?_,
      fun g hg => ?_, fun a c ha => ?_, fun a a' b ha ha' => hs.once a a' b (hnext ha) (hnext ha')⟩,
    ⟨fun a ks g _ => hw, fun g c _ hc _ => ?_, fun a b ks g _ _ hn => ⟨a, hnext hn⟩⟩,
    fun g hg => (hfut g).trans (if_neg hg), Holds.request_nil ⟨hnew, fun a h => ?_⟩,
    (List.append_nil _).symm⟩
  · simp [startScript, requested, Machine.exec_cons, machine, step, newPromise, getFuture, Vacant,
      PEquiv.link_apply, hfn, hpn, hs.spent, hsymm]
  · rw [hpro, if_neg (Nat.ne_of_gt ha), hs.promise a (Nat.le_of_succ_le ha)]
  · rw [hfut, if_neg (Nat.ne_of_gt hg), hs.future g (Nat.le_of_succ_le hg)]
  · rw [hpro] at ha
    split at ha
    · next he => exact ⟨[], n, he ▸ hnew⟩
    · obtain ⟨ks, g, h⟩ := hs.waits a c ha
      exact ⟨ks, g, hw h⟩
  · exact ⟨hold g c hc, (hval c).trans (if_neg (hlt g c hc))⟩
  · obtain ⟨c, hc⟩ := hs.next (hnext h)
    exact absurd (hs.promise_lt hc) (lt_irrefl n)

theorem Started.attach {i n : ℕ} {sc : Script ν ε ρ} {x : Fiber ν ε ρ}
    {ts : List (Continuation ν (Captured ν ε ρ))} (k : Callback ν ε ρ) (hs : Clean s n)
    (hdoes : Does s sc.ops s') (h : Started s s' i n sc x ts) :
    ∃ s'' ts', Does s (sc.attach i k).ops s'' ∧
      Started s s'' i n (sc.attach i k) (x.under [k]) ts' := by
  obtain ⟨s'', ts', hdoes', hext, hholds, hq⟩ := h.holds.attach h.clean k
  have hn : n ≤ sc.next := h.le.trans h.lt.le
  refine ⟨s'', ts ++ ts', hdoes.append hdoes', hn, Nat.lt_add_of_pos_right (by decide), hext.clean,
    h.kept.trans (hext.kept.mono fun g hg => ⟨hg.trans_le hn, (hg.trans_le h.le).ne⟩),
    fun g hg => ?_, hholds, ?_⟩
  · rw [hext.futures g hg]
    split
    · next he => rw [he, hs.future _ h.le]
    · next he => exact h.futures g he
  · rw [hq, h.scheduled, List.append_assoc]

/-- The operations of an expression make its future, and the fiber stands where the computation
does after its first part. -/
theorem start_does (i n : ℕ) (p : Computation ν ε ρ) (hs : Clean s n) :
    ∃ s' ts, Does s (startScript i n p).ops s' ∧
      Started s s' i n (startScript i n p) p.enter.2 ts := by
  induction p with
  | ready r =>
    obtain ⟨s', h⟩ := start_ready (i := i) r hs
    exact ⟨s', [], h⟩
  | request q =>
    obtain ⟨s', h⟩ := start_request (i := i) q hs
    exact ⟨s', [], h⟩
  | emit e p ih =>
    obtain ⟨s', ts, hdoes, h⟩ := ih
    exact ⟨s', ts, hdoes, h.le, h.lt, h.clean, h.kept, h.futures, h.holds, h.scheduled⟩
  | then_ p func ih _ =>
    obtain ⟨s', ts, hdoes, h⟩ := ih
    exact h.attach (.value func) hs hdoes
  | thenWrapped p func ih _ =>
    obtain ⟨s', ts, hdoes, h⟩ := ih
    exact h.attach (.wrapped func) hs hdoes

theorem start_events (i n : ℕ) (p : Computation ν ε ρ) :
    (startScript i n p).events = p.enter.1 := by
  induction p with
  | ready r => rfl
  | request q => rfl
  | emit e p ih => exact congrArg (_ :: ·) ih
  | then_ p func ih _ => exact ih
  | thenWrapped p func ih _ => exact ih

end Miniss
