import Miniss.Seastar.FutureChainAttach

/-! What a task does to the chains: it sets the promise that it has captured, or puts the promise
in the place of the one that its callback's future waits for. -/
namespace Miniss
open FutureValues

variable {ν ε ρ : Type*} {s s' : ChainValues ν ε ρ} {n : ℕ}

/-- Promises at the same distance from a future are the same. -/
theorem Waits.eq_of_length (hs : Clean s n) {a a' f : ℕ} {ks ks' : List (ℕ × Callback ν ε ρ)}
    (h : Waits s a ks f) (h' : Waits s a' ks' f) (hlen : ks.length = ks'.length) : a = a' := by
  induction ks generalizing a a' ks' with
  | nil =>
    obtain rfl := List.eq_nil_of_length_eq_zero hlen.symm
    obtain ⟨c, hc, hf, -⟩ := h
    obtain ⟨c', hc', hf', -⟩ := h'
    obtain rfl := Option.some.inj (hf.symm.trans hf')
    exact s.promises.inj hc hc'
  | cons k ks ih =>
    cases ks' with
    | nil => cases hlen
    | cons k' ks' =>
      obtain ⟨c, b, hc, hv, h⟩ := h
      obtain ⟨c', b', hc', hv', h'⟩ := h'
      obtain rfl := ih h h' (Nat.succ.inj hlen)
      exact hs.once a a' b ⟨c, _, _, hc, hv⟩ ⟨c', _, _, hc', hv'⟩

/-- All other promises on the way to the future come after the head. -/
theorem Head.length_lt (hs : Clean s n) {a b f : ℕ} {ks ks' : List (ℕ × Callback ν ε ρ)}
    (h : Head s a ks f) (hb : Waits s b ks' f) (hne : b ≠ a) : ks'.length < ks.length := by
  induction ks' generalizing b with
  | nil =>
    refine Nat.pos_of_ne_zero fun hlen => hne ?_
    exact hb.eq_of_length hs h.waits hlen.symm
  | cons k ks' ih =>
    have hbw : Waits s b (k :: ks') f := hb
    obtain ⟨c, b', hc, hv, hb'⟩ := hb
    have hb'a : b' ≠ a := by
      rintro rfl
      exact h.top b ⟨c, _, _, hc, hv⟩
    refine Nat.lt_of_le_of_ne (ih hb' hb'a) fun hlen => hne ?_
    exact hbw.eq_of_length hs h.waits hlen

/-- The promise at `a` is gone, and nothing else has changed but the value that it was for. -/
structure Settled (s s' : ChainValues ν ε ρ) (a : ℕ) : Prop where
  promises : ∀ b, s'.promises b = if b = a then none else s.promises b
  values : ∀ c, s.promises a ≠ some c → s'.values c = s.values c
  futures : s'.futures = s.futures
  spent : s'.spent = ∅
  next : s'.next = s.next

namespace Settled
variable {a : ℕ}

theorem keep (h : Settled s s' a) {b g : ℕ} {ks : List (ℕ × Callback ν ε ρ)}
    (hb : Waits s b ks g) (ha : ∀ ks', Waits s a ks' g → ks.length < ks'.length) :
    Waits s' b ks g := by
  have hval {b c : ℕ} (hba : b ≠ a) (hc : s.promises b = some c) : s'.values c = s.values c :=
    h.values c fun hac => hba (s.promises.inj hc hac)
  induction ks generalizing b with
  | nil =>
    have hba : b ≠ a := fun he => (ha [] (he ▸ hb)).false
    obtain ⟨c, hc, hf, hv⟩ := hb
    exact ⟨c, by rw [h.promises, if_neg hba, hc], by rw [h.futures, hf], by rw [hval hba hc, hv]⟩
  | cons k ks ih =>
    have hba : b ≠ a := fun he => (ha _ (he ▸ hb)).false
    obtain ⟨c, b', hc, hv, hb⟩ := hb
    exact ⟨c, b', by rw [h.promises, if_neg hba, hc], by rw [hval hba hc, hv],
      ih hb fun ks' h' => Nat.lt_of_succ_lt (ha ks' h')⟩

theorem next_back (h : Settled s s' a) {b b' : ℕ} (hn : Next s' b b') : Next s b b' := by
  obtain ⟨c, i, k, hc, hv⟩ := hn
  rw [h.promises] at hc
  split at hc
  · cases hc
  · next hba =>
    rw [h.values c fun hac => hba (s.promises.inj hc hac)] at hv
    exact ⟨c, i, k, hc, hv⟩

theorem kept (h : Settled s s' a) {f : ℕ} {ks : List (ℕ × Callback ν ε ρ)}
    (ha : Waits s a ks f) : Kept s s' (· ≠ f) where
  waits b ks' g hg hb := h.keep hb fun ks'' h' => absurd (h'.unique ha).2 hg
  rest g c hg hc hv := by
    refine ⟨by rw [h.futures, hc], h.values c fun hac => hv ?_⟩
    cases ks with
    | nil =>
      obtain ⟨c', hc', -, hv'⟩ := ha
      rw [Option.some.inj (hac.symm.trans hc'), hv']
    | cons k ks =>
      obtain ⟨c', b, hc', hv', -⟩ := ha
      rw [Option.some.inj (hac.symm.trans hc'), hv']
  top b b' ks' g _ _ hn := ⟨b, h.next_back hn⟩

theorem clean (h : Settled s s' a) (hs : Clean s n) {f : ℕ} {ks : List (ℕ × Callback ν ε ρ)}
    (ha : Head s a ks f) : Clean s' n where
  fresh := by
    refine .of_lt (fun b c hb => ?_) fun g c hg => ?_
    · rw [h.promises] at hb
      split at hb
      · cases hb
      · exact h.next ▸ hs.fresh.promise_lt hb
    · exact h.next ▸ hs.fresh.future_lt (h.futures ▸ hg)
  spent := h.spent
  promise b hb := by
    rw [h.promises, hs.promise b hb]
    split <;> rfl
  future g hg := by rw [h.futures, hs.future g hg]
  waits b c hb := by
    rw [h.promises] at hb
    split at hb
    · cases hb
    · next hba =>
      obtain ⟨ks', g, hw⟩ := hs.waits b c hb
      refine ⟨ks', g, h.keep hw fun ks'' h' => ?_⟩
      obtain ⟨rfl, rfl⟩ := h'.unique ha.waits
      exact ha.length_lt hs hw hba
  once b b' b'' hb hb' := hs.once b b' b'' (h.next_back hb) (h.next_back hb')

end Settled

/-- A future whose value no promise will set is gone. -/
structure Dropped (s s' : ChainValues ν ε ρ) (g c : ℕ) : Prop where
  promises : s'.promises = s.promises
  values : ∀ d, d < s.next → d ≠ c → s'.values d = s.values d
  futures : ∀ f, s'.futures f = if f = g then none else s.futures f
  spent : s'.spent = s.spent
  le : s.next ≤ s'.next
  scheduled : s'.scheduled = s.scheduled

namespace FutureValues

/-- The value of the promise `a` is set, and the promise is gone. -/
def settleValue (s : ChainValues ν ε ρ) (a c : ℕ) (r : Except Exn ν) : ChainValues ν ε ρ :=
  { s with
    values := Function.update s.values c ⟨.ofResult r, none⟩
    promises := s.promises.unlink a }

/-- The callback that waits for the promise `a` is scheduled, and the promise is gone. -/
def settleTask (s : ChainValues ν ε ρ) (a : ℕ) (k : Continuation ν (Captured ν ε ρ)) :
    ChainValues ν ε ρ :=
  { s with
    promises := s.promises.unlink a
    scheduled := s.scheduled ++ [k] }

/-- The result of the future `g` is taken out, and the future is gone. -/
def drop (s : ChainValues ν ε ρ) (g c : ℕ) : ChainValues ν ε ρ :=
  { s with
    values := Function.update s.values c ⟨.invalid, none⟩
    futures := s.futures.unlink g }

end FutureValues

theorem dropped (s : ChainValues ν ε ρ) (g c : ℕ) : Dropped s (s.drop g c) g c :=
  ⟨rfl, fun _ _ hd => Function.update_of_ne hd _ _, fun _ => rfl, rfl, le_rfl, rfl⟩

section Settle
variable {a c g d : ℕ} {r : Except Exn ν}

theorem settled_value (hs : Clean s n) (hc : s.promises a = some c) :
    Settled s (s.settleValue a c r) a where
  promises _ := rfl
  values d hd := Function.update_of_ne (fun he => hd (by rw [he, hc])) _ _
  futures := rfl
  spent := hs.spent
  next := rfl

theorem settled_task (hs : Clean s n) {k : Continuation ν (Captured ν ε ρ)} :
    Settled s (s.settleTask a k) a where
  promises _ := rfl
  values _ _ := rfl
  futures := rfl
  spent := hs.spent
  next := rfl

theorem settleValue_does (hc : s.promises a = some c) (hv : s.values c = ⟨.future, none⟩) :
    Does s [.set a r, .destroyPromise a] (s.settleValue a c r) := fun out => by
  simp [settleValue, Machine.exec_cons, machine, step, FutureValues.set, destroyPromise, put, hc,
    hv]

theorem settleValue_forwarded (hc : s.promises a = some c) (hv : s.values c = ⟨.future, none⟩)
    (hg : s.futures g = some d) (hd : s.values d = ⟨.ofResult r, none⟩) :
    Does s [.forwardTo g a, .destroyFuture g, .destroyPromise a]
      ((s.settleValue a c r).drop g d) := fun out => by
  have hdc : c ≠ d := by
    rintro rfl
    cases r <;> cases hv.symm.trans hd
  simp [settleValue, drop, Machine.exec_cons, machine, step, FutureValues.set, forwardTo,
    destroyFuture, destroyPromise, put, hc, hv, hg, hd, Function.update_comm hdc]

variable {k : Captured ν ε ρ}

theorem settleTask_does (hs : Clean s n) (hc : s.promises a = some c)
    (hv : s.values c = ⟨.future, some k⟩) :
    Does s [.set a r, .destroyPromise a] (s.settleTask a ⟨.ofResult r, k⟩) := fun out => by
  simp [settleTask, Machine.exec_cons, machine, step, FutureValues.set, destroyPromise,
    PEquiv.unlink_apply, hc, hv, hs.spent]

theorem settleTask_forwarded (hs : Clean s n) (hc : s.promises a = some c)
    (hv : s.values c = ⟨.future, some k⟩) (hg : s.futures g = some d)
    (hd : s.values d = ⟨.ofResult r, none⟩) :
    Does s [.forwardTo g a, .destroyFuture g, .destroyPromise a]
      ((s.settleTask a ⟨.ofResult r, k⟩).drop g d) := fun out => by
  simp [settleTask, drop, Machine.exec_cons, machine, step, FutureValues.set, forwardTo,
    destroyFuture, destroyPromise, put, PEquiv.unlink_apply, hc, hv, hg, hd, hs.spent]

end Settle

/-- `set_value` or `set_exception` on the promise that the fiber has come to, and the end of the
promise: the callback that waits for it is scheduled, or the result is the one of the fiber.
`forward_to` from a future that has the result does the same. -/
theorem Head.settle {i a f : ℕ} {ks : List (Callback ν ε ρ)} (hs : Clean s n)
    (h : Head s a (ks.map (i, ·)) f) (r : Except Exn ν) :
    ∃ s' ts, Does s [.set a r, .destroyPromise a] s' ∧ Clean s' n ∧ Kept s s' (· ≠ f) ∧
      s'.futures = s.futures ∧ Holds s' i f ⟨.answer r, ks⟩ ts none ∧
      s'.scheduled = s.scheduled ++ ts ∧ ∀ g c, s.futures g = some c →
        s.values c = ⟨.ofResult r, none⟩ → ∃ s'',
          Does s [.forwardTo g a, .destroyFuture g, .destroyPromise a] s'' ∧
            Dropped s' s'' g c := by
  cases ks with
  | nil =>
    obtain ⟨c, hc, hf, hv⟩ := h.waits
    have hset := settled_value (r := r) hs hc
    exact ⟨s.settleValue a c r, [], settleValue_does hc hv, hset.clean hs h, hset.kept h.waits,
      rfl, .done ⟨c, hf, Function.update_self ..⟩, (List.append_nil _).symm,
      fun g d hg hd => ⟨_, settleValue_forwarded hc hv hg hd, dropped _ g d⟩⟩
  | cons k ks =>
    obtain ⟨c, b, hc, hv, hb⟩ := h.waits
    have hset := settled_task (a := a) (k := ⟨.ofResult r, ⟨i, b, k⟩⟩) hs
    refine ⟨s.settleTask a ⟨.ofResult r, ⟨i, b, k⟩⟩, _, settleTask_does hs hc hv,
      hset.clean hs h, hset.kept h.waits, rfl, .task ⟨hset.keep hb fun ks' h' => ?_,
        fun b' hb' => ?_⟩, rfl,
      fun g d hg hd => ⟨_, settleTask_forwarded hs hc hv hg hd, dropped _ g d⟩⟩
    · rw [(h'.unique h.waits).1]
      exact Nat.lt_succ_self _
    · obtain rfl := hs.once b' a b (hset.next_back hb') ⟨c, i, k, hc, hv⟩
      obtain ⟨c', _, _, hc', -⟩ := hb'
      rw [hset.promises, if_pos rfl] at hc'
      cases hc'

namespace Dropped
variable {g c : ℕ}

theorem values_eq (h : Dropped s s' g c) (hs : Clean s n) (hv : (s.values c).state ≠ .future)
    {a d : ℕ} (ha : s.promises a = some d) : s'.values d = s.values d := by
  refine h.values d (hs.fresh.promise_lt ha) fun hdc => hv ?_
  rw [← hdc, hs.state ha]

theorem next_back (h : Dropped s s' g c) (hs : Clean s n) (hv : (s.values c).state ≠ .future)
    {a b : ℕ} (hn : Next s' a b) : Next s a b := by
  obtain ⟨d, i, k, hd, hk⟩ := hn
  rw [h.promises] at hd
  exact ⟨d, i, k, hd, (h.values_eq hs hv hd).symm.trans hk⟩

theorem kept (h : Dropped s s' g c) (hs : Clean s n) (hg : s.futures g = some c)
    (hv : (s.values c).state ≠ .future) : Kept s s' (· ≠ g) where
  waits a ks f hf hw := by
    refine hw.keep (fun b ks _ => by rw [h.promises]) (fun b ks d _ hd => h.values_eq hs hv hd)
      fun d hd => ?_
    rw [h.futures, if_neg hf, hd]
  rest f d hf hd _ := by
    refine ⟨by rw [h.futures, if_neg hf, hd], h.values d (hs.fresh.future_lt hd) fun hdc => hf ?_⟩
    exact s.futures.inj hd (hdc ▸ hg)
  top a b ks f _ _ hn := ⟨a, h.next_back hs hv hn⟩

theorem clean (h : Dropped s s' g c) (hs : Clean s n) (hg : s.futures g = some c)
    (hv : (s.values c).state ≠ .future) : Clean s' n where
  fresh := by
    have hf := h.futures
    exact hs.fresh.grow h.le (fun a d ha => .inl (h.promises ▸ ha)) (by grind)
  spent := h.spent.trans hs.spent
  promise a ha := by rw [h.promises, hs.promise a ha]
  future f hf := by
    rw [h.futures, hs.future f hf]
    split <;> rfl
  waits a d ha := by
    obtain ⟨ks, f, hw⟩ := hs.waits a d (h.promises ▸ ha)
    refine ⟨ks, f, (h.kept hs hg hv).waits a ks f ?_ hw⟩
    rintro rfl
    obtain ⟨d', hd', hv'⟩ := hw.future
    exact hv (by rw [Option.some.inj (hg.symm.trans hd'), hv'])
  once a a' b ha ha' := hs.once a a' b (h.next_back hs hv ha) (h.next_back hs hv ha')

end Dropped

namespace FutureValues

/-- The future that `then_wrapped` gives to its callback, after its result is taken out. -/
def argument (s : ChainValues ν ε ρ) (f : ℕ) (r : Except Exn ν) : ChainValues ν ε ρ :=
  ((s.renew f (.ofResult r)).renew f .invalid).put s.next ⟨.invalid, none⟩

def forget (s : ChainValues ν ε ρ) (f : ℕ) : ChainValues ν ε ρ :=
  { s with futures := s.futures.unlink f }

/-- The promise `b` takes over the value `c`, and the future `g` of its value `d` is gone. -/
def splice (s : ChainValues ν ε ρ) (b c g d : ℕ) : ChainValues ν ε ρ :=
  ({ (s.renew g .future).put d ⟨.future, none⟩ with
    promises := (s.promises.unlink b).link b c } : ChainValues ν ε ρ).forget g

/-- The result of the future is taken out, which then has a value of its own, and is gone. -/
def takeOut (s : ChainValues ν ε ρ) (f c : ℕ) : ChainValues ν ε ρ :=
  ((s.renew f .invalid).put c ⟨.invalid, none⟩).forget f

end FutureValues

theorem argument_does (hs : Clean s n) (r : Except Exn ν) :
    Does s [.readyFuture n r, .get n] (s.argument n r) := fun out => by
  have hfn := hs.future n le_rfl
  obtain ⟨hsymm, -⟩ := hs.fresh s.next le_rfl
  simp [argument, Machine.exec_cons, machine, step, readyFuture, FutureValues.get, renew, put,
    rest, PEquiv.link_apply, hfn, hsymm]

theorem argument_made (hs : Clean s n) (r : Except Exn ν) :
    Made s (s.argument n r) n (s.next + 1) where
  promises := rfl
  values d hd := by
    have hd' : d ≠ s.next + 1 := by omega
    simp [argument, put_values, renew_values, hd.ne, hd']
  futures f := by
    have hlt (g c d : ℕ) (hg : s.futures g = some c) (hd : s.next ≤ d) : c ≠ d :=
      (hs.fresh.future_lt hg |>.trans_le hd).ne
    grind [argument]
  spent := rfl
  le := Nat.le_succ _
  lt := Nat.lt_succ_self _
  scheduled := rfl

theorem argument_values (s : ChainValues ν ε ρ) (r : Except Exn ν) :
    (s.argument n r).values (s.next + 1) = ⟨.invalid, none⟩ := by
  simp [argument, put_values, renew_values]

theorem forgotten (s : ChainValues ν ε ρ) (g c : ℕ) : Dropped s (s.forget g) g c :=
  ⟨rfl, fun _ _ _ => rfl, fun _ => rfl, rfl, le_rfl, rfl⟩

theorem forget_does {g c : ℕ} (hc : s.futures g = some c) :
    Does s [.destroyFuture g] (s.forget g) := fun out => by
  simp [forget, Machine.exec_cons, machine, step, destroyFuture, hc]

/-- The promise at `b`, that the future `g` belongs to, has taken over from the one at `a`. -/
structure Spliced (s s' : ChainValues ν ε ρ) (b a g : ℕ) : Prop where
  promises : ∀ d, s'.promises d = if d = b then s.promises a else if d = a then none
    else s.promises d
  values : ∀ c, c < s.next → s'.values c = s.values c
  futures : ∀ f, s'.futures f = if f = g then none else s.futures f
  spent : s'.spent = ∅
  le : s.next ≤ s'.next
  scheduled : s'.scheduled = s.scheduled

section Splice
variable {a b c g d : ℕ}

theorem splice_does (hs : Clean s n) (ha : s.promises a = some c) (hb : s.promises b = some d)
    (hg : s.futures g = some d) (hv : s.values d = ⟨.future, none⟩) (hne : b ≠ a) :
    Does s [.forwardTo g a, .destroyFuture g, .destroyPromise a] (s.splice b c g d) := by
  intro out
  have hd := hs.fresh.future_lt hg
  have hsymm : s.promises.symm d = some b := s.promises.eq_some_iff.mpr hb
  simp [splice, forget, Machine.exec_cons, machine, step, forwardTo, renew, put, destroyFuture,
    destroyPromise, assignPromise, movePromise, Vacant, PEquiv.unlink_apply, PEquiv.link_apply, hg,
    hv, hsymm, hne, hne.symm, hb, ha, hs.spent, hd.ne, FutureState.result?]

theorem spliced (hs : Clean s n) (ha : s.promises a = some c)
    (hv : s.values d = ⟨.future, none⟩) (hne : b ≠ a) :
    Spliced s (s.splice b c g d) b a g where
  promises e := by
    have hback (x : ℕ) (he : s.promises e = some x) : x = c → e = a := by
      rintro rfl
      exact s.promises.inj he ha
    grind [splice, forget]
  values e he := by
    by_cases hed : e = d
    · simp [splice, forget, put_values, hed, hv]
    · simp [splice, forget, put_values, renew_values, hed, he.ne]
  futures f := by
    have hnew : s.futures f ≠ some s.next := fun hf => (hs.fresh.future_lt hf).false
    grind [splice, forget]
  spent := hs.spent
  le := Nat.le_succ _
  scheduled := rfl

end Splice

namespace Spliced
variable {a b f g : ℕ} {ks : List (ℕ × Callback ν ε ρ)}

theorem keep (h : Spliced s s' b a g) (hs : Clean s n) (hb : Waits s b [] g) {d f : ℕ}
    {ks : List (ℕ × Callback ν ε ρ)} (hf : f ≠ g) (hd : Waits s d ks f)
    (ha : ∀ ks', Waits s a ks' f → ks.length < ks'.length) : Waits s' d ks f := by
  induction ks generalizing d with
  | nil =>
    have hda : d ≠ a := fun he => (ha [] (he ▸ hd)).false
    have hdb : d ≠ b := fun he => hf ((he ▸ hd).unique hb).2
    obtain ⟨c, hc, hfc, hv⟩ := hd
    exact ⟨c, by rw [h.promises, if_neg hdb, if_neg hda, hc], by rw [h.futures, if_neg hf, hfc],
      by rw [h.values c (hs.fresh.promise_lt hc), hv]⟩
  | cons k ks ih =>
    have hda : d ≠ a := fun he => (ha _ (he ▸ hd)).false
    have hdb : d ≠ b := fun he => hf ((he ▸ hd).unique hb).2
    obtain ⟨c, e, hc, hv, hd⟩ := hd
    exact ⟨c, e, by rw [h.promises, if_neg hdb, if_neg hda, hc],
      by rw [h.values c (hs.fresh.promise_lt hc), hv],
      ih hd fun ks' h' => Nat.lt_of_succ_lt (ha ks' h')⟩

/-- The chain that came to `a` comes to `b`. -/
theorem takes (h : Spliced s s' b a g) (hs : Clean s n) (hb : Waits s b [] g) (hf : f ≠ g)
    (ha : Waits s a ks f) : Waits s' b ks f := by
  have hpro : s'.promises b = s.promises a := by rw [h.promises, if_pos rfl]
  cases ks with
  | nil =>
    obtain ⟨c, hc, hfc, hv⟩ := ha
    exact ⟨c, hpro.trans hc, by rw [h.futures, if_neg hf, hfc],
      by rw [h.values c (hs.fresh.promise_lt hc), hv]⟩
  | cons k ks =>
    have haw : Waits s a (k :: ks) f := ha
    obtain ⟨c, e, hc, hv, ha⟩ := ha
    refine ⟨c, e, hpro.trans hc, by rw [h.values c (hs.fresh.promise_lt hc), hv],
      h.keep hs hb hf ha fun ks' h' => ?_⟩
    rw [(h'.unique haw).1]
    exact Nat.lt_succ_self _

/-- A chain to `g` goes on to `f`. -/
theorem joins (h : Spliced s s' b a g) (hs : Clean s n) (hb : Waits s b [] g) (hf : f ≠ g)
    (ha : Waits s a ks f) {d : ℕ} {ks' : List (ℕ × Callback ν ε ρ)} (hd : Waits s d ks' g) :
    Waits s' d (ks' ++ ks) f := by
  refine hd.plug (fun e he => ?_) fun e k ks'' he => ?_
  · obtain rfl := he.eq_of_length hs hb rfl
    exact h.takes hs he hf ha
  · have heb : e ≠ b := fun heq => by cases ((heq ▸ he).unique hb).1
    have hea : e ≠ a := fun heq => hf ((heq ▸ he).unique ha).2.symm
    refine ⟨by rw [h.promises, if_neg heb, if_neg hea], fun c hc => ?_⟩
    exact h.values c (hs.fresh.promise_lt hc)

theorem next_back (h : Spliced s s' b a g) (hs : Clean s n) {d e : ℕ} (hn : Next s' d e) :
    d = b ∧ Next s a e ∨ d ≠ b ∧ d ≠ a ∧ Next s d e := by
  obtain ⟨c, i, k, hc, hv⟩ := hn
  rw [h.promises] at hc
  split at hc
  · next hdb =>
    rw [h.values c (hs.fresh.promise_lt hc)] at hv
    exact .inl ⟨hdb, c, i, k, hc, hv⟩
  · next hdb =>
    split at hc
    · cases hc
    · next hda =>
      rw [h.values c (hs.fresh.promise_lt hc)] at hv
      exact .inr ⟨hdb, hda, c, i, k, hc, hv⟩

theorem next_some (h : Spliced s s' b a g) (hs : Clean s n) {d e : ℕ} (hn : Next s' d e) :
    ∃ d', Next s d' e := by
  obtain ⟨-, hn⟩ | ⟨-, -, hn⟩ := h.next_back hs hn
  · exact ⟨a, hn⟩
  · exact ⟨d, hn⟩

theorem kept (h : Spliced s s' b a g) (hs : Clean s n) (hb : Waits s b [] g)
    (ha : Waits s a ks f) : Kept s s' fun x => x ≠ g ∧ x ≠ f where
  waits d ks' x hx hd := h.keep hs hb hx.1 hd fun ks'' h' => absurd (h'.unique ha).2 hx.2
  rest x c hx hc _ := ⟨by rw [h.futures, if_neg hx.1, hc], h.values c (hs.fresh.future_lt hc)⟩
  top _ _ _ _ _ _ hn := h.next_some hs hn

theorem clean (h : Spliced s s' b a g) (hs : Clean s n) (hb : Waits s b [] g) (hf : f ≠ g)
    (ha : Head s a ks f) : Clean s' n where
  fresh := by
    have hfu := h.futures
    refine hs.fresh.grow h.le (fun d c hc => ?_) (by grind)
    rw [h.promises] at hc
    split at hc
    · exact .inr ((hs.fresh.promise_lt hc).trans_le h.le)
    · split at hc
      · cases hc
      · exact .inl hc
  spent := h.spent
  promise d hd := by
    obtain ⟨c, hc⟩ := hb.promise
    have hdb : d ≠ b := fun he => (he ▸ hd).not_gt (hs.promise_lt hc)
    rw [h.promises, if_neg hdb, hs.promise d hd]
    split <;> rfl
  future x hx := by
    rw [h.futures, hs.future x hx]
    split <;> rfl
  waits d c hd := by
    rw [h.promises] at hd
    split at hd
    · next he => exact ⟨ks, f, he ▸ h.takes hs hb hf ha.waits⟩
    · split at hd
      · cases hd
      · next hda =>
        obtain ⟨ks', x, hw⟩ := hs.waits d c hd
        by_cases hx : x = g
        · exact ⟨_, f, h.joins hs hb hf ha.waits (hx ▸ hw)⟩
        · refine ⟨ks', x, h.keep hs hb hx hw fun ks'' h' => ?_⟩
          obtain ⟨rfl, rfl⟩ := h'.unique ha.waits
          exact ha.length_lt hs hw hda
  once d d' e hd hd' := by
    obtain ⟨rfl, hn⟩ | ⟨hdb, hda, hn⟩ := h.next_back hs hd
    · obtain ⟨rfl, -⟩ | ⟨-, hda', hn'⟩ := h.next_back hs hd'
      · rfl
      · exact absurd (hs.once d' a e hn' hn) hda'
    · obtain ⟨rfl, hn'⟩ | ⟨-, -, hn'⟩ := h.next_back hs hd'
      · exact absurd (hs.once d a e hn hn') hda
      · exact hs.once d d' e hn hn'

end Spliced

/-- The future `f` is gone, and what its chain came to comes to the chain `f₀` was on. -/
structure Forwarded (s s' : ChainValues ν ε ρ) (n f f₀ : ℕ) : Prop where
  clean : Clean s' n
  kept : Kept s s' fun g => g ≠ f ∧ g ≠ f₀
  futures : ∀ g, s'.futures g = if g = f then none else s.futures g

/-- `forward_to` puts the stack of the fiber under the one of the future that is forwarded. -/
theorem Holds.forward {i f f₀ a : ℕ} {x : Fiber ν ε ρ}
    {ts : List (Continuation ν (Captured ν ε ρ))} {q : Option (ℕ × ρ)}
    {ks : List (Callback ν ε ρ)} (hs : Clean s n) (h : Holds s i f x ts q)
    (ha : Head s a (ks.map (i, ·)) f₀) (hne : f ≠ f₀) :
    ∃ s' ts', Does s [.forwardTo f a, .destroyFuture f, .destroyPromise a] s' ∧
      Forwarded s s' n f f₀ ∧ Holds s' i f₀ (x.under ks) (ts ++ ts') q ∧
      s'.scheduled = s.scheduled ++ ts' := by
  have hpending (d : ℕ) (st : List (Callback ν ε ρ)) (hd : Head s d (st.map (i, ·)) f) :
      ∃ s', Does s [.forwardTo f a, .destroyFuture f, .destroyPromise a] s' ∧
        Forwarded s s' n f f₀ ∧ s'.scheduled = s.scheduled ∧
        Head s' d ((st ++ ks).map (i, ·)) f₀ := by
    obtain ⟨b, hb⟩ := hd.waits.last
    obtain ⟨c, hc⟩ := ha.waits.promise
    have hba : b ≠ a := fun he => hne ((he ▸ hb).unique ha.waits).2
    obtain ⟨e, hbe, hfe, hv⟩ := id hb
    have hspl := spliced (g := f) hs hc hv hba
    refine ⟨_, splice_does hs hc hbe hfe hv hba,
      ⟨hspl.clean hs hb hne.symm ha, hspl.kept hs hb ha.waits, hspl.futures⟩,
      hspl.scheduled, ?_, fun e he => ?_⟩
    · rw [List.map_append]
      exact hspl.joins hs hb hne.symm ha.waits hd.waits
    · obtain ⟨e', he'⟩ := hspl.next_some hs he
      exact hd.top e' he'
  cases h with
  | done h =>
    obtain ⟨s', ts, -, hclean, hkept, hfut, hholds, hq, hforward⟩ := ha.settle hs ‹_›
    obtain ⟨c, hc, hv⟩ := h
    obtain ⟨s'', hdoes, hdrop⟩ := hforward f c hc hv
    have hstate : (s.values c).state ≠ .future := by
      rw [hv]
      exact ofResult_ne_future _
    obtain ⟨hc', hv'⟩ := hkept.rest f c hne hc hstate
    rw [← hv'] at hstate
    have hkept' := hdrop.kept hclean hc' hstate
    refine ⟨s'', ts, hdoes, ⟨hdrop.clean hclean hc' hstate,
      (hkept.mono fun g hg => hg.2).trans (hkept'.mono fun g hg => hg.1), fun g => ?_⟩,
      hkept'.holds hne.symm hholds, hdrop.scheduled.trans hq⟩
    rw [hdrop.futures, hfut]
  | task h =>
    obtain ⟨s', hdoes, hfor, hq, hw⟩ := hpending _ _ h
    exact ⟨s', [], hdoes, hfor, .task hw, by rw [hq, List.append_nil]⟩
  | request h =>
    obtain ⟨s', hdoes, hfor, hq, hw⟩ := hpending _ _ h
    exact ⟨s', [], hdoes, hfor, .request hw, by rw [hq, List.append_nil]⟩

/-- What is left of a task that fiber `i` has run, when the client holds the future `f`. -/
structure Ran (s s' : ChainValues ν ε ρ) (n m i f : ℕ) (x : Fiber ν ε ρ)
    (ts : List (Continuation ν (Captured ν ε ρ))) (q : Option (ℕ × ρ)) : Prop where
  le : n ≤ m
  clean : Clean s' m
  kept : Kept s s' fun g => g < n ∧ g ≠ f
  futures : ∀ g, s'.futures g = s.futures g
  holds : Holds s' i f x ts q
  scheduled : s'.scheduled = s.scheduled ++ ts

theorem forward_does {i a f : ℕ} {ks : List (Callback ν ε ρ)} (hs : Clean s n) (hf : f < n)
    (ha : Head s a (ks.map (i, ·)) f) (p : Computation ν ε ρ) :
    ∃ s' ts, Does s (((startScript i n p).forward a).ops ++ [.destroyPromise a]) s' ∧
      Ran s s' n (startScript i n p).next i f (p.enter.2.under ks) ts
        (startScript i n p).input := by
  obtain ⟨s₁, ts, hdoes, hst⟩ := start_does i n p hs
  have hne : (startScript i n p).fut ≠ f := (hf.trans_le hst.le).ne'
  obtain ⟨s', ts', hdoes', hfor, hholds, hq⟩ :=
    hst.holds.forward hst.clean (hst.kept.head hf ha) hne
  refine ⟨s', ts ++ ts', ?_, hst.le.trans hst.lt.le, hfor.clean,
    (hst.kept.mono fun g hg => hg.1).trans
      (hfor.kept.mono fun g hg => ⟨(hg.1.trans_le hst.le).ne, hg.2⟩), fun g => ?_, hholds, ?_⟩
  · rw [Script.forward, List.append_assoc]
    exact hdoes.append hdoes'
  · rw [hfor.futures]
    split
    · next he => rw [he, hs.future _ hst.le]
    · next he => exact hst.futures g he
  · rw [hq, hst.scheduled, List.append_assoc]

/-- A task calls the callback and puts the fiber where that leads to. -/
theorem task_does {i a f : ℕ} {ks : List (Callback ν ε ρ)} (hs : Clean s n) (hf : f < n)
    (ha : Head s a (ks.map (i, ·)) f) (k : Callback ν ε ρ) (r : Except Exn ν) :
    ∃ s' ts, Does s (taskScript n ⟨i, a, k⟩ r).ops s' ∧
      Ran s s' n (taskScript n ⟨i, a, k⟩ r).next i f ((k.apply r).enter.2.under ks) ts
        (taskScript n ⟨i, a, k⟩ r).input := by
  cases k with
  | value func =>
    cases r with
    | ok v => exact forward_does hs hf ha (func v)
    | error e =>
      obtain ⟨s', ts, hdoes, hclean, hkept, hfut, hholds, hq, -⟩ := ha.settle hs (.error e)
      exact ⟨s', ts, hdoes, le_rfl, hclean, hkept.mono fun g hg => hg.2, fun g => by rw [hfut],
        hholds, hq⟩
  | wrapped func =>
    have hmade := argument_made hs r
    obtain ⟨s₂, ts, hdoes₂, hran⟩ := forward_does (hmade.clean hs) (Nat.lt_succ_of_lt hf)
      ((hmade.kept hs).head hf ha) (func r)
    have hstate : ((s.argument n r).values (s.next + 1)).state ≠ .future := by
      rw [argument_values]
      exact nofun
    obtain ⟨hc, hv'⟩ := hran.kept.rest n (s.next + 1) ⟨Nat.lt_succ_self n, hf.ne'⟩
      ((hmade.futures n).trans (if_pos rfl)) hstate
    rw [← hv'] at hstate
    have hdrop := forgotten s₂ n (s.next + 1)
    have hkept := hdrop.kept hran.clean hc hstate
    refine ⟨_, ts, ?_, (Nat.le_succ n).trans hran.le, hdrop.clean hran.clean hc hstate, ?_,
      fun g => ?_, hkept.holds hf.ne hran.holds, ?_⟩
    · have hall := ((argument_does hs r).append hdoes₂).append (forget_does hc)
      rw [← List.append_assoc, List.append_assoc] at hall
      exact hall.congr (destroy_comm a n)
    · refine ((hmade.kept hs).mono fun g hg => hg.1).trans (.trans (hran.kept.mono fun g hg => ?_)
        (hkept.mono fun g hg => hg.1.ne))
      exact ⟨Nat.lt_succ_of_lt hg.1, hg.2⟩
    · have hn := hs.future n le_rfl
      rw [hdrop.futures, hran.futures, hmade.futures]
      split <;> simp_all
    · rw [hdrop.scheduled, hran.scheduled, hmade.scheduled]

theorem task_events (n i a : ℕ) (k : Callback ν ε ρ) (r : Except Exn ν) :
    (taskScript n ⟨i, a, k⟩ r).events = (k.apply r).enter.1 := by
  cases k with
  | value func =>
    cases r with
    | ok v => exact start_events i n (func v)
    | error e => rfl
  | wrapped func => exact start_events i (n + 1) (func r)

/-- `get` on a future that has its result, and the end of the future. -/
theorem take_does (hs : Clean s n) {f : ℕ} {r : Except Exn ν} (h : Done s r f) :
    ∃ s₁ c, s.step (.get f) = some (s₁, [.got r]) ∧
      s₁.step (.destroyFuture f) = some (s.takeOut f c, []) ∧ s.futures f = some c ∧
      (s.values c).state ≠ .future ∧ Dropped s (s.takeOut f c) f c := by
  obtain ⟨c, hc, hv⟩ := h
  have hstate : (s.values c).state ≠ .future := by rw [hv]; exact ofResult_ne_future r
  have hsymm : s.promises.symm c = none := by
    by_contra hne
    obtain ⟨a, ha⟩ := Option.ne_none_iff_exists'.mp hne
    exact hstate (hs.state (s.promises.eq_some_iff.mp ha))
  have hlt := hs.fresh.future_lt hc
  have hnew (g : ℕ) : s.futures g ≠ some s.next := fun hg => (hs.fresh.future_lt hg).false
  refine ⟨(s.renew f .invalid).put c ⟨.invalid, none⟩, c, ?_, ?_, hc, hstate,
    rfl, fun d hd hdc => ?_, fun g => ?_, rfl, Nat.le_succ _, rfl⟩
  · simp [step, FutureValues.get, rest, hc, hv, hsymm]
  · simp [takeOut, forget, step, destroyFuture, renew, put, PEquiv.link_apply, hlt.ne',
      FutureState.report]
  · simp [takeOut, forget, put_values, renew_values, hd.ne, hdc]
  · have hg := hnew g
    grind [takeOut, forget]

end Miniss
