import Miniss.EnableCoroutineAwait
import Mathlib.Data.List.Nodup

/-! What each step of a coroutine can do, and what becomes of its awaits. -/
namespace Miniss
variable {σ ι ν ρ : Type*}

namespace Coroutine

def suspended (s : Coroutine σ ι ν ρ) : Option ι := s.frame.bind CoroutineFrame.suspended

def awaited (s : Coroutine σ ι ν ρ) : List ι := s.yielded.map Prod.fst

/-- The awaits: each future was awaited once, is being awaited, or neither. -/
structure Awaits (s : Coroutine σ ι ν ρ) : Prop where
  fresh : ∀ i, i ∉ s.awaited → s.suspended ≠ some i → (s.inputs i).Fresh
  suspended : ∀ i, s.suspended = some i → i ∉ s.awaited ∧ (s.inputs i).Suspended i s.tasks
  taken : ∀ e ∈ s.yielded, (s.inputs e.1).Taken e.2
  idle : s.suspended = none → s.tasks = []
  nodup : s.awaited.Nodup

variable {D : CoroutineBody σ ι ν ρ} {s t : Coroutine σ ι ν ρ}

theorem Awaits.keep (h : s.Awaits) (hi : t.inputs = s.inputs) (hts : t.tasks = s.tasks)
    (hy : t.yielded = s.yielded) (hs : t.suspended = s.suspended) : t.Awaits := by
  have hw : t.awaited = s.awaited := congrArg (List.map Prod.fst) hy
  exact
    { fresh := by rw [hw, hs, hi]; exact h.fresh
      suspended := by rw [hw, hs, hi, hts]; exact h.suspended
      taken := by rw [hy, hi]; exact h.taken
      idle := by rw [hs, hts]; exact h.idle
      nodup := hw ▸ h.nodup }

variable [DecidableEq ι]

/-- The place where the body goes on, with the result of a future. -/
theorem resume_cases {fr : CoroutineFrame σ ι ρ} {i : ι} (h : s.resume D fr i = some t) :
    ∃ r a, (s.inputs i).awaitResume = some (r, a) ∧ t =
      { s with
        inputs := Function.update s.inputs i a
        frame := some { fr with body := D.resume fr.body r, suspended := none }
        yielded := s.yielded ++ [(i, r)] } := by
  obtain ⟨⟨r, a⟩, hr, rfl⟩ := Option.map_eq_some_iff.mp h
  exact ⟨r, a, hr, rfl⟩

/-- What the body can do: it ends, it takes a result, or it is suspended. -/
theorem go_cases (h : s.go D = some t) : ∃ fr, s.frame = some fr ∧ fr.suspended = none ∧
    ((∃ r, D.point fr.body = .done r ∧ s.finish (fr.pr_.set r) = some t) ∨
      ∃ i, D.point fr.body = .ask i ∧
        ((s.inputs i).awaitReady = some true ∧ s.resume D fr i = some t ∨
          (s.inputs i).awaitReady = some false ∧ ∃ d, (s.inputs i).awaitSuspend i = some d ∧ t =
            { s with
              inputs := Function.update s.inputs i d.1
              tasks := s.tasks ++ d.2.toList
              frame := some { fr with suspended := some i } })) := by
  unfold go at h
  split at h
  case h_1 => cases h
  case h_2 fr hf =>
    refine ⟨fr, hf, ?_⟩
    split at h
    case h_1 => cases h
    case h_2 v hs hp => exact ⟨hs, .inl ⟨.ok v, hp, h⟩⟩
    case h_3 e hs hp => exact ⟨hs, .inl ⟨.error e, hp, h⟩⟩
    case h_4 i hs hp =>
      refine ⟨hs, .inr ⟨i, hp, ?_⟩⟩
      split at h
      case h_1 => cases h
      case h_2 hr => exact .inl ⟨hr, h⟩
      case h_3 hr =>
        obtain ⟨d, hd, rfl⟩ := Option.map_eq_some_iff.mp h
        exact .inr ⟨hr, d, hd, rfl⟩

theorem run_cases (h : s.run D = some t) : ∃ c rest fr, s.tasks = c :: rest ∧
    s.frame = some fr ∧ fr.suspended = some c.func.awaiter ∧
      resume D
        { s with
          tasks := rest
          inputs := Function.update s.inputs c.func.awaiter
            ((s.inputs c.func.awaiter).refill c.state) } fr c.func.awaiter = some t := by
  unfold run at h
  split at h
  case h_1 c rest fr hts hf =>
    dsimp only at h
    split at h
    case isTrue hs =>
      split at h
      case h_1 hr hp =>
        cases h
        exact ⟨c, rest, fr, hts, hf, hs, hr⟩
      case h_2 => cases h
    case isFalse => cases h
  case h_2 => cases h

theorem resolve_cases {i : ι} {r : Except Exn ν} (h : s.resolve i r = some t) :
    ∃ p d, (s.inputs i).promise = some p ∧ p.set r = some d ∧ t =
      { s with
        inputs := Function.update s.inputs i
          { s.inputs i with promise := some d.1, outcome := some r }
        tasks := s.tasks ++ d.2.toList } := by
  unfold resolve at h
  split at h
  case h_1 => cases h
  case h_2 p hp =>
    obtain ⟨d, hd, rfl⟩ := Option.map_eq_some_iff.mp h
    exact ⟨p, d, hp, hd, rfl⟩

theorem destroy_cases {i : ι} (h : s.destroy i = some t) :
    ∃ p d, (s.inputs i).promise = some p ∧ p.destroy (s.inputs i).future = some d ∧ t =
      { s with
        inputs := Function.update s.inputs i
          { s.inputs i with promise := none, future := d.1 } } := by
  unfold destroy at h
  split at h
  case h_1 => cases h
  case h_2 p hp =>
    obtain ⟨d, hd, rfl⟩ := Option.map_eq_some_iff.mp h
    exact ⟨p, d, hp, hd, rfl⟩

/-- A future that the body is not suspended on. -/
theorem Awaits.fresh_or_taken (h : s.Awaits) {i : ι} (hs : s.suspended ≠ some i) :
    i ∉ s.awaited ∧ (s.inputs i).Fresh ∨ ∃ r, (s.inputs i).Taken r := by
  by_cases hi : i ∈ s.awaited
  · obtain ⟨e, he, rfl⟩ := List.mem_map.mp hi
    exact .inr ⟨e.2, h.taken e he⟩
  · exact .inl ⟨hi, h.fresh i hi hs⟩

theorem Awaits.update (h : s.Awaits) {i : ι} {a : CoroutineInput ι ν}
    {ts : List (Continuation ν (AwaitFunc ι))}
    (hf : (s.inputs i).Fresh → a.Fresh ∧ ts = s.tasks)
    (hs : (s.inputs i).Suspended i s.tasks → a.Suspended i ts)
    (ht : ∀ r, (s.inputs i).Taken r → a.Taken r ∧ ts = s.tasks) :
    Awaits { s with inputs := Function.update s.inputs i a, tasks := ts } := by
  have hts (hne : s.suspended ≠ some i) : ts = s.tasks := by
    obtain ⟨-, hfr⟩ | ⟨r, hr⟩ := h.fresh_or_taken hne
    · exact (hf hfr).2
    · exact (ht r hr).2
  refine ⟨fun j hj hsus => ?_, fun j hj => ?_, fun e he => ?_, fun hn => ?_, h.nodup⟩
  · by_cases hji : j = i
    · subst hji
      simpa only [Function.update_self] using (hf (h.fresh j hj hsus)).1
    · simpa only [Function.update_of_ne hji] using h.fresh j hj hsus
  · obtain ⟨hn, hsus⟩ := h.suspended j hj
    refine ⟨hn, ?_⟩
    by_cases hji : j = i
    · subst hji
      simpa only [Function.update_self] using hs hsus
    · have hne : s.suspended ≠ some i := fun hi => hji (Option.some.inj (hj.symm.trans hi))
      simpa only [Function.update_of_ne hji, hts hne] using hsus
  · by_cases hei : e.1 = i
    · subst hei
      simpa only [Function.update_self] using (ht e.2 (h.taken e he)).1
    · simpa only [Function.update_of_ne hei] using h.taken e he
  · have hne : s.suspended ≠ some i := fun hi => Option.some_ne_none i (hi.symm.trans hn)
    exact (hts hne).trans (h.idle hn)

theorem Awaits.resolve (h : s.Awaits) {i : ι} {r : Except Exn ν} (ht : s.resolve i r = some t) :
    t.Awaits ∧ (s.inputs i).outcome = none := by
  obtain ⟨p, d, hp, hd, rfl⟩ := resolve_cases ht
  refine ⟨h.update (fun hf => ?_) (fun hs => ?_) fun q hq => ?_, ?_⟩
  · obtain ⟨-, hnone, hfr⟩ := hf.resolve hp hd
    exact ⟨hfr, by rw [hnone, Option.toList_none, List.append_nil]⟩
  · obtain ⟨-, hts, hc, hsus⟩ := hs.resolve hp hd
    rw [hts, hc]
    exact hsus
  · exact (hq.not_resolve hp hd).elim
  · by_cases hs : s.suspended = some i
    · exact ((h.suspended i hs).2.resolve hp hd).1
    · obtain ⟨-, hf⟩ | ⟨q, hq⟩ := h.fresh_or_taken hs
      · exact (hf.resolve hp hd).1
      · exact (hq.not_resolve hp hd).elim

theorem Awaits.destroy (h : s.Awaits) {i : ι} (ht : s.destroy i = some t) : t.Awaits := by
  obtain ⟨p, d, hp, hd, rfl⟩ := destroy_cases ht
  exact h.update (fun hf => ⟨hf.destroy hp hd, rfl⟩) (fun hs => hs.destroy hp hd)
    fun r hr => ⟨hr.destroy hp hd, rfl⟩

theorem Awaits.suspend (h : s.Awaits) (hn : s.suspended = none) {i : ι} (hi : i ∉ s.awaited)
    {a : CoroutineInput ι ν} (ha : a.Suspended i []) (fr : CoroutineFrame σ ι ρ) :
    Awaits
      { s with
        inputs := Function.update s.inputs i a
        tasks := s.tasks ++ []
        frame := some { fr with suspended := some i } } := by
  have hne (j : ι) : s.suspended ≠ some j := fun hj => Option.some_ne_none j (hj.symm.trans hn)
  refine ⟨fun j hj hsus => ?_, fun j hj => ?_, fun e he => ?_, nofun, h.nodup⟩
  · have hji : j ≠ i := fun hji => hsus (congrArg some hji.symm)
    simpa only [Function.update_of_ne hji] using h.fresh j hj (hne j)
  · obtain rfl := Option.some.inj hj
    refine ⟨hi, ?_⟩
    simpa only [Function.update_self, List.append_nil, h.idle hn] using ha
  · have hei : e.1 ≠ i := fun hei => hi (hei ▸ List.mem_map_of_mem he)
    simpa only [Function.update_of_ne hei] using h.taken e he

theorem Awaits.yield (h : s.Awaits) {i : ι} (hi : i ∉ s.awaited)
    (hs : ∀ j, s.suspended = some j → j = i) {a : CoroutineInput ι ν} {r : Except Exn ν}
    (ha : a.Taken r) (fr : CoroutineFrame σ ι ρ) (b : σ) :
    Awaits
      { s with
        inputs := Function.update s.inputs i a
        tasks := []
        frame := some { fr with body := b, suspended := none }
        yielded := s.yielded ++ [(i, r)] } := by
  have hw : (s.yielded ++ [(i, r)]).map Prod.fst = s.awaited ++ [i] := List.map_append
  refine ⟨fun j hj hsus => ?_, nofun, fun e he => ?_, fun _ => rfl, ?_⟩
  · rw [awaited, hw, List.mem_append, List.mem_singleton, not_or] at hj
    simpa only [Function.update_of_ne hj.2] using h.fresh j hj.1 fun hsj => hj.2 (hs j hsj)
  · obtain he | he := List.mem_append.mp he
    · have hei : e.1 ≠ i := fun hei => hi (hei ▸ List.mem_map_of_mem he)
      simpa only [Function.update_of_ne hei] using h.taken e he
    · obtain rfl := List.mem_singleton.mp he
      simpa only [Function.update_self] using ha
  · rw [awaited, hw]
    exact List.nodup_append.mpr ⟨h.nodup, List.nodup_singleton i, fun j hj k hk hjk =>
      hi (List.mem_singleton.mp hk ▸ hjk ▸ hj)⟩

end Coroutine
end Miniss
