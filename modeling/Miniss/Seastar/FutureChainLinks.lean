import Miniss.Seastar.FutureChains
import Miniss.Seastar.FutureCustody

/-! How the futures of a chain hang together: a promise that a task or a request holds leads, over
the callbacks that are attached, to the future at the end of the chain. -/
namespace Miniss

variable {ν ε ρ : Type*}

namespace FutureValues
variable {κ ι φ : Type*} [DecidableEq κ] [DecidableEq ι]

/-- The operations lead from `s` to `s'`, whatever was shown before. -/
def Does (s : FutureValues κ ι ν φ) (ops : List (FutureOp κ ι ν φ)) (s' : FutureValues κ ι ν φ) :
    Prop :=
  ∀ out, (machine.exec (s, out) ops).map Prod.fst = some s'

variable {s s' s'' : FutureValues κ ι ν φ} {ops ops' : List (FutureOp κ ι ν φ)}

theorem does_iff : Does s ops s' ↔ ∀ out, ∃ out', machine.exec (s, out) ops = some (s', out') := by
  refine forall_congr' fun out => ?_
  rw [Option.map_eq_some_iff]
  constructor
  · rintro ⟨⟨_, out'⟩, h, rfl⟩
    exact ⟨out', h⟩
  · rintro ⟨out', h⟩
    exact ⟨_, h, rfl⟩

theorem Does.append (h : Does s ops s') (h' : Does s' ops' s'') : Does s (ops ++ ops') s'' := by
  intro out
  obtain ⟨out', hout'⟩ := does_iff.mp h out
  rw [Machine.exec_append_of_eq hout']
  exact h' out'

/-- Operations that do the same can take each other's place. -/
theorem Does.congr {l l' : List (FutureOp κ ι ν φ)}
    (hl : ∀ t, (machine.exec t l).map Prod.fst = (machine.exec t l').map Prod.fst)
    (h : Does s (ops ++ l) s') : Does s (ops ++ l') s' := by
  intro out
  have hout := h out
  rw [Machine.exec_append, Option.map_bind] at hout ⊢
  have hsame : (Option.map Prod.fst ∘ fun t => machine.exec t l') =
      Option.map Prod.fst ∘ fun t => machine.exec t l := funext fun t => (hl t).symm
  rwa [hsame]

/-- It makes no difference which of a promise and a future is destroyed first. -/
theorem destroy_comm (a : κ) (f : ι) (t : FutureValues κ ι ν φ × List (FutureOutput ν φ)) :
    (machine.exec t [.destroyPromise a, .destroyFuture f]).map Prod.fst =
      (machine.exec t [.destroyFuture f, .destroyPromise a]).map Prod.fst := by
  obtain ⟨s, out⟩ := t
  simp only [Machine.exec_cons, Machine.exec_nil, machine, step, destroyPromise, destroyFuture]
  cases hf : s.futures f with
  | none =>
    cases ha : s.promises a with
    | none => by_cases hs : a ∈ s.spent <;> simp [hs, hf]
    | some d => simp [hf]
  | some c =>
    cases ha : s.promises a with
    | none => by_cases hs : a ∈ s.spent <;> simp [hs, ha, hf]
    | some d => simp [ha, hf]

end FutureValues

theorem ofResult_ne_future (r : Except Exn ν) : FutureState.ofResult r ≠ .future := by
  cases r <;> exact nofun

open FutureValues

abbrev ChainValues (ν ε ρ : Type*) := FutureValues ℕ ℕ ν (Captured ν ε ρ)

/-- The value that the promise at `a` will set goes through the callbacks, each with the fiber it
belongs to, and then to the future `f`. -/
def Waits (s : ChainValues ν ε ρ) : ℕ → List (ℕ × Callback ν ε ρ) → ℕ → Prop
  | a, [], f => ∃ c, s.promises a = some c ∧ s.futures f = some c ∧ s.values c = ⟨.future, none⟩
  | a, k :: ks, f => ∃ c b, s.promises a = some c ∧
      s.values c = ⟨.future, some ⟨k.1, b, k.2⟩⟩ ∧ Waits s b ks f

def Done (s : ChainValues ν ε ρ) (r : Except Exn ν) (f : ℕ) : Prop :=
  ∃ c, s.futures f = some c ∧ s.values c = ⟨.ofResult r, none⟩

variable {s s' : ChainValues ν ε ρ}

theorem Waits.unique {a : ℕ} {ks ks' : List (ℕ × Callback ν ε ρ)} {f f' : ℕ}
    (h : Waits s a ks f) (h' : Waits s a ks' f') : ks = ks' ∧ f = f' := by
  induction ks generalizing a ks' with
  | nil =>
    obtain ⟨c, hc, hf, hv⟩ := h
    cases ks' with
    | nil =>
      obtain ⟨c', hc', hf', -⟩ := h'
      obtain rfl : c = c' := by grind
      exact ⟨rfl, s.futures.inj hf hf'⟩
    | cons k ks' =>
      obtain ⟨c', b, hc', hv', -⟩ := h'
      grind
  | cons k ks ih =>
    obtain ⟨c, b, hc, hv, h⟩ := h
    cases ks' with
    | nil =>
      obtain ⟨c', hc', -, hv'⟩ := h'
      grind
    | cons k' ks' =>
      obtain ⟨c', b', hc', hv', h'⟩ := h'
      obtain rfl : c = c' := by grind
      obtain ⟨-, hk⟩ := LogicalValue.mk.inj (hv.symm.trans hv')
      obtain ⟨hfiber, rfl, hfunc⟩ := Captured.mk.inj (Option.some.inj hk)
      obtain ⟨rfl, rfl⟩ := ih h h'
      exact ⟨by rw [Prod.ext hfiber hfunc], rfl⟩

/-- When the end of a chain leads on, the whole chain does. -/
theorem Waits.plug {a f f' : ℕ} {ks ks' : List (ℕ × Callback ν ε ρ)} (h : Waits s a ks f)
    (hend : ∀ b, Waits s b [] f → Waits s' b ks' f')
    (hmid : ∀ b k ks, Waits s b (k :: ks) f → s'.promises b = s.promises b ∧
      ∀ c, s.promises b = some c → s'.values c = s.values c) : Waits s' a (ks ++ ks') f' := by
  induction ks generalizing a with
  | nil => exact hend a h
  | cons k ks ih =>
    obtain ⟨hp, hv⟩ := hmid a k ks h
    obtain ⟨c, b, hc, hvc, h⟩ := h
    exact ⟨c, b, hp.trans hc, (hv c hc).trans hvc, ih h⟩

theorem Waits.keep {a g : ℕ} {ks : List (ℕ × Callback ν ε ρ)} (h : Waits s a ks g)
    (hp : ∀ b ks, Waits s b ks g → s'.promises b = s.promises b)
    (hv : ∀ b ks c, Waits s b ks g → s.promises b = some c → s'.values c = s.values c)
    (hf : ∀ c, s.futures g = some c → s'.futures g = some c) : Waits s' a ks g := by
  rw [← List.append_nil ks]
  refine h.plug (fun b hb => ?_) fun b k ks hb => ⟨hp b _ hb, fun c => hv b _ c hb⟩
  obtain ⟨c, hc, hg, hvc⟩ := hb
  have hb : Waits s b [] g := ⟨c, hc, hg, hvc⟩
  exact ⟨c, (hp b [] hb).trans hc, hf c hg, (hv b [] c hb hc).trans hvc⟩

theorem Waits.last {a f : ℕ} {ks : List (ℕ × Callback ν ε ρ)} (h : Waits s a ks f) :
    ∃ b, Waits s b [] f := by
  induction ks generalizing a with
  | nil => exact ⟨a, h⟩
  | cons k ks ih =>
    obtain ⟨c, b, -, -, h⟩ := h
    exact ih h

/-- The callback that waits for the promise at `a` has captured the promise at `b`. -/
def Next (s : ChainValues ν ε ρ) (a b : ℕ) : Prop :=
  ∃ c i k, s.promises a = some c ∧ s.values c = ⟨.future, some ⟨i, b, k⟩⟩

/-- A promise that no callback has captured. -/
structure Head (s : ChainValues ν ε ρ) (a : ℕ) (ks : List (ℕ × Callback ν ε ρ)) (f : ℕ) :
    Prop where
  waits : Waits s a ks f
  top : ∀ b, ¬ Next s b a

/-- The chains that end at such a future stay as they are, and none of their promises is captured
that was not before. -/
structure Kept (s s' : ChainValues ν ε ρ) (P : ℕ → Prop) : Prop where
  waits : ∀ a ks g, P g → Waits s a ks g → Waits s' a ks g
  rest : ∀ g c, P g → s.futures g = some c → (s.values c).state ≠ .future →
    s'.futures g = some c ∧ s'.values c = s.values c
  top : ∀ a b ks g, P g → Waits s b ks g → Next s' a b → ∃ a', Next s a' b

theorem Kept.mono {P Q : ℕ → Prop} (h : Kept s s' P) (hQ : ∀ g, Q g → P g) : Kept s s' Q :=
  ⟨fun a ks g hg => h.waits a ks g (hQ g hg), fun g c hg => h.rest g c (hQ g hg),
    fun a b ks g hg => h.top a b ks g (hQ g hg)⟩

theorem Kept.trans {s'' : ChainValues ν ε ρ} {P : ℕ → Prop} (h : Kept s s' P)
    (h' : Kept s' s'' P) : Kept s s'' P where
  waits a ks g hg hw := h'.waits a ks g hg (h.waits a ks g hg hw)
  rest g c hg hc hv := by
    obtain ⟨hc', hv'⟩ := h.rest g c hg hc hv
    obtain ⟨hc'', hv''⟩ := h'.rest g c hg hc' (hv'.symm ▸ hv)
    exact ⟨hc'', hv''.trans hv'⟩
  top a b ks g hg hw hn := by
    obtain ⟨a', ha'⟩ := h'.top a b ks g hg (h.waits b ks g hg hw) hn
    exact h.top a' b ks g hg hw ha'

theorem Waits.promise {a f : ℕ} {ks : List (ℕ × Callback ν ε ρ)} (h : Waits s a ks f) :
    ∃ c, s.promises a = some c := by
  cases ks with
  | nil =>
    obtain ⟨c, hc, -⟩ := h
    exact ⟨c, hc⟩
  | cons k ks =>
    obtain ⟨c, b, hc, -⟩ := h
    exact ⟨c, hc⟩

theorem Kept.done {P : ℕ → Prop} (h : Kept s s' P) {g : ℕ} {r : Except Exn ν} (hg : P g)
    (hd : Done s r g) : Done s' r g := by
  obtain ⟨c, hc, hv⟩ := hd
  obtain ⟨hc', hv'⟩ := h.rest g c hg hc (by rw [hv]; exact ofResult_ne_future r)
  exact ⟨c, hc', hv'.trans hv⟩

theorem Kept.head {P : ℕ → Prop} (h : Kept s s' P) {a g : ℕ} {ks : List (ℕ × Callback ν ε ρ)}
    (hg : P g) (hh : Head s a ks g) : Head s' a ks g := by
  refine ⟨h.waits a ks g hg hh.waits, fun b hb => ?_⟩
  obtain ⟨a', ha'⟩ := h.top b a ks g hg hh.waits hb
  exact hh.top a' ha'

theorem Waits.future {a f : ℕ} {ks : List (ℕ × Callback ν ε ρ)} (h : Waits s a ks f) :
    ∃ c, s.futures f = some c ∧ s.values c = ⟨.future, none⟩ := by
  obtain ⟨b, c, -, hf, hv⟩ := h.last
  exact ⟨c, hf, hv⟩

/-- New objects change no chain. -/
theorem Waits.of_new {a g : ℕ} {ks : List (ℕ × Callback ν ε ρ)} (h : Waits s a ks g)
    (hs : s.Fresh) (hp : ∀ a c, s.promises a = some c → s'.promises a = some c)
    (hv : ∀ c, c < s.next → s'.values c = s.values c)
    (hf : ∀ g c, s.futures g = some c → s'.futures g = some c) : Waits s' a ks g := by
  refine h.keep (fun b ks hb => ?_) (fun b ks c _ hc => hv c (hs.promise_lt hc)) (hf g)
  obtain ⟨c, hc⟩ := hb.promise
  rw [hc, hp b c hc]

/-- A change to the value at the end of a chain changes no other chain. -/
theorem Waits.of_end {f a g : ℕ} {ks : List (ℕ × Callback ν ε ρ)} (h : Waits s a ks g)
    (hg : g ≠ f) (hend : ∀ c, s.futures f = some c → (s.values c).func = none) (hs : s.Fresh)
    (hp : ∀ a c, s.promises a = some c → s'.promises a = some c)
    (hv : ∀ c, c < s.next → s.futures f ≠ some c → s'.values c = s.values c)
    (hf : ∀ g c, g ≠ f → s.futures g = some c → s'.futures g = some c) : Waits s' a ks g := by
  have hcell (b : ℕ) (ks : List (ℕ × Callback ν ε ρ)) (hb : Waits s b ks g) :
      ∃ c, s.promises b = some c ∧ s.futures f ≠ some c := by
    cases ks with
    | nil =>
      obtain ⟨c, hc, hgc, -⟩ := hb
      exact ⟨c, hc, fun hfc => hg (s.futures.inj hgc hfc)⟩
    | cons k ks =>
      obtain ⟨c, b', hc, hvc, -⟩ := hb
      refine ⟨c, hc, fun hfc => ?_⟩
      have hnone := hend c hfc
      rw [hvc] at hnone
      cases hnone
  refine h.keep (fun b ks hb => ?_) (fun b ks c hb hc => ?_) fun c => hf g c hg
  · obtain ⟨c, hc, -⟩ := hcell b ks hb
    rw [hc, hp b c hc]
  · obtain ⟨c', hc', hfc⟩ := hcell b ks hb
    obtain rfl := Option.some.inj (hc.symm.trans hc')
    exact hv c (hs.promise_lt hc) hfc

/-- No object is left over from the operations so far: every promise is on the way to the end of
a chain, and captured once at most. Addresses from `n` on are free. -/
structure Clean (s : ChainValues ν ε ρ) (n : ℕ) : Prop where
  fresh : s.Fresh
  spent : s.spent = ∅
  promise : ∀ a, n ≤ a → s.promises a = none
  future : ∀ f, n ≤ f → s.futures f = none
  waits : ∀ a c, s.promises a = some c → ∃ ks f, Waits s a ks f
  once : ∀ a a' b, Next s a b → Next s a' b → a = a'

theorem Clean.promise_lt {n a c : ℕ} (hs : Clean s n) (h : s.promises a = some c) : a < n := by
  by_contra hge
  cases (hs.promise a (not_lt.mp hge)).symm.trans h

theorem Clean.state {n a c : ℕ} (hs : Clean s n) (h : s.promises a = some c) :
    (s.values c).state = .future := by
  obtain ⟨ks, f, hw⟩ := hs.waits a c h
  cases ks with
  | nil =>
    obtain ⟨c', hc', -, hv⟩ := hw
    rw [Option.some.inj (h.symm.trans hc'), hv]
  | cons k ks =>
    obtain ⟨c', b, hc', hv, -⟩ := hw
    rw [Option.some.inj (h.symm.trans hc'), hv]

theorem Clean.next {n a b : ℕ} (hs : Clean s n) (h : Next s a b) : ∃ c, s.promises b = some c := by
  obtain ⟨c, i, k, hc, hv⟩ := h
  obtain ⟨ks, f, hw⟩ := hs.waits a c hc
  cases ks with
  | nil =>
    obtain ⟨c', hc', -, hv'⟩ := hw
    obtain rfl := Option.some.inj (hc.symm.trans hc')
    cases hv.symm.trans hv'
  | cons k' ks =>
    obtain ⟨c', b', hc', hv', hw⟩ := hw
    obtain rfl := Option.some.inj (hc.symm.trans hc')
    obtain ⟨-, hk⟩ := LogicalValue.mk.inj (hv.symm.trans hv')
    obtain ⟨-, rfl, -⟩ := Captured.mk.inj (Option.some.inj hk)
    exact hw.promise

/-- Where fiber `i` stands, with its task and the promise of its request, when the client holds
the future `f`. -/
inductive Holds (s : ChainValues ν ε ρ) (i f : ℕ) : Fiber ν ε ρ →
    List (Continuation ν (Captured ν ε ρ)) → Option (ℕ × ρ) → Prop
  | done {r} (h : Done s r f) : Holds s i f ⟨.answer r, []⟩ [] none
  | task {r b k ks} (h : Head s b (ks.map (i, ·)) f) :
      Holds s i f ⟨.answer r, k :: ks⟩ [⟨.ofResult r, ⟨i, b, k⟩⟩] none
  | request {q a ks} (h : Head s a (ks.map (i, ·)) f) :
      Holds s i f ⟨.request q, ks⟩ [] (some (a, q))

theorem Holds.task_nil {i f b : ℕ} {r : Except Exn ν} {k : Callback ν ε ρ} (h : Head s b [] f) :
    Holds s i f ⟨.answer r, [k]⟩ [⟨.ofResult r, ⟨i, b, k⟩⟩] none :=
  .task h

theorem Holds.request_nil {i f a : ℕ} {q : ρ} (h : Head s a [] f) :
    Holds s i f ⟨.request q, []⟩ [] (some (a, q)) :=
  .request h

theorem Kept.holds {P : ℕ → Prop} (h : Kept s s' P) {i f : ℕ} {x : Fiber ν ε ρ}
    {ts : List (Continuation ν (Captured ν ε ρ))} {a : Option (ℕ × ρ)} (hf : P f)
    (hx : Holds s i f x ts a) : Holds s' i f x ts a := by
  cases hx with
  | done hd => exact .done (h.done hf hd)
  | task hw => exact .task (h.head hf hw)
  | request hw => exact .request (h.head hf hw)

end Miniss
