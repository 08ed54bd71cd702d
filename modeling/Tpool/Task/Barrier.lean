import Mathlib.Data.Fintype.Basic
import Tpool.Concurrency.System
import Tpool.Task.TaskBase

/-!
# Running and cancelling one task from many threads

- `TaskBase.system`: threads that call `Run`, `Cancel` and `CancelAsync` of one task; every section that the task's own
  locks make atomic is a step.
- `OneAfterTheOther`: no `Run` starts while another is in progress. `Timely`: no `Cancel` that finds the task stopped
  returns while a `Run` stands between its check of the request and its write of `RUNNING`.
- `cancel_barrier`: in the runs whose steps meet both, no `DoRun` is in progress, or starts, once a `Cancel` has
  returned. `untimely_enters`: from a state where a step is not timely, the `Cancel` returns and `DoRun` begins.
-/

namespace Tpool.TaskBase

open Concurrency

variable {Tid : Type*}

/-- What a thread is doing with the task. -/
inductive PC
  | idle
  | run (p : RunPC)
  | cancel (async : Bool) (p : CancelPC)
  deriving DecidableEq

def PC.inRun : PC → Bool
  | .run _ => true
  | _ => false

inductive Call
  | run
  | cancel
  | cancelAsync

/-- Where a call starts. -/
def Call.start : Call → PC
  | .run => .run .checkCancellation
  | .cancel => .cancel false .setFlag
  | .cancelAsync => .cancel true .setFlag

/-- The task, what the threads are doing with it, and whether some call of `Cancel` has returned. -/
structure Threads (Tid : Type*) where
  task : TaskBase Tid
  pc : Tid → PC
  cancelReturned : Bool

inductive Action (Tid : Type*)
  | call (t : Tid) (c : Call)
  | step (t : Tid) (e : Exit)
  | wake (t : Tid)

section Step

variable [DecidableEq Tid]

/-- The thread `t` moves to `p` and leaves the task in `b`. -/
def Threads.goto (s : Threads Tid) (t : Tid) (b : TaskBase Tid) (p : PC) : Threads Tid :=
  { s with task := b, pc := Function.update s.pc t p }

def step (s : Threads Tid) : Action Tid → Option (Threads Tid)
  | .call t c => if s.pc t = .idle then some (s.goto t s.task c.start) else none
  | .wake t => (s.task.wake t).map fun b => { s with task := b }
  | .step t e => match s.pc t with
    | .idle => none
    | .run .ret | .run .raised | .cancel _ .raised => some (s.goto t s.task .idle)
    | .cancel async .ret => some { s.goto t s.task .idle with cancelReturned := s.cancelReturned || !async }
    | .run p => (s.task.run p e).map fun (b, p') => s.goto t b (.run p')
    | .cancel async p => (s.task.cancel async t p e).map fun (b, p') => s.goto t b (.cancel async p')

/-- A new task and its threads. -/
def system (Tid : Type*) [DecidableEq Tid] : System (Threads Tid) (Action Tid) := ⟨⟨new, fun _ => .idle, false⟩, step⟩

/-- A `Run` starts only when no other is in progress. -/
def OneAfterTheOther (s : Threads Tid) : Action Tid → Prop
  | .call _ .run => ∀ u, (s.pc u).inRun = false
  | _ => True

/-- The state read that ends a wait of `Cancel`. -/
def Threads.endsWait (s : Threads Tid) (t : Tid) : Prop :=
  (s.pc t = .cancel false .wait ∨ s.pc t = .cancel false .blocked ∧ t ∉ s.task.waiters) ∧ s.task.isStopState = true

/-- No wait of `Cancel` ends while a `Run` has passed its check and not yet written `RUNNING`. -/
def Timely (s : Threads Tid) : Action Tid → Prop
  | .step t _ => s.endsWait t → ∀ u, s.pc u ≠ .run .setRunning
  | _ => True

end Step

/-! ## The steps -/

section Steps

variable [DecidableEq Tid] {s s' : Threads Tid} {a : Action Tid}

/-- What a move can do: a call begins, a call ends, a `Run` or a `Cancel` takes a step, or a waiter wakes. -/
theorem step_cases (h : step s a = some s') :
    (∃ t c, a = .call t c ∧ s.pc t = .idle ∧ s' = s.goto t s.task c.start) ∨
    (∃ t e, a = .step t e ∧ (s.pc t = .run .ret ∨ s.pc t = .run .raised ∨ ∃ async, s.pc t = .cancel async .raised) ∧
      s' = s.goto t s.task .idle) ∨
    (∃ t e async, a = .step t e ∧ s.pc t = .cancel async .ret ∧
      s' = { s.goto t s.task .idle with cancelReturned := s.cancelReturned || !async }) ∨
    (∃ t e p b p', a = .step t e ∧ s.pc t = .run p ∧ s.task.run p e = some (b, p') ∧ s' = s.goto t b (.run p')) ∨
    (∃ t e async p b p', a = .step t e ∧ s.pc t = .cancel async p ∧ s.task.cancel async t p e = some (b, p') ∧
      s' = s.goto t b (.cancel async p')) ∨
    ∃ t, a = .wake t ∧ s' = { s with task := { s.task with waiters := s.task.waiters.erase t } } := by
  cases a with
  | call t c =>
    simp only [step] at h
    split at h <;> cases h
    exact Or.inl ⟨t, c, rfl, ‹_›, rfl⟩
  | wake t =>
    simp only [step, wake] at h
    split at h <;> cases h
    exact Or.inr (Or.inr (Or.inr (Or.inr (Or.inr ⟨t, rfl, rfl⟩))))
  | step t e =>
    simp only [step] at h
    cases ht : s.pc t with
    | idle => rw [ht] at h; cases h
    | run p =>
      by_cases hend : p = .ret ∨ p = .raised
      · rcases hend with rfl | rfl <;> simp only [ht, Option.some.injEq] at h
        · exact Or.inr (Or.inl ⟨t, e, rfl, Or.inl ht, h.symm⟩)
        · exact Or.inr (Or.inl ⟨t, e, rfl, Or.inr (Or.inl ht), h.symm⟩)
      · have h : (s.task.run p e).map (fun q => s.goto t q.1 (.run q.2)) = some s' := by
          cases p <;> simp_all
        obtain ⟨⟨b, p'⟩, hr, rfl⟩ := Option.map_eq_some_iff.mp h
        exact Or.inr (Or.inr (Or.inr (Or.inl ⟨t, e, p, b, p', rfl, ht, hr, rfl⟩)))
    | cancel async p =>
      by_cases hend : p = .raised
      · subst hend
        simp only [ht, Option.some.injEq] at h
        exact Or.inr (Or.inl ⟨t, e, rfl, Or.inr (Or.inr ⟨async, ht⟩), h.symm⟩)
      · by_cases hret : p = .ret
        · subst hret
          simp only [ht, Option.some.injEq] at h
          exact Or.inr (Or.inr (Or.inl ⟨t, e, async, rfl, ht, h.symm⟩))
        · have h : (s.task.cancel async t p e).map (fun q => s.goto t q.1 (.cancel async q.2)) = some s' := by
            cases p <;> simp_all
          obtain ⟨⟨b, p'⟩, hr, rfl⟩ := Option.map_eq_some_iff.mp h
          exact Or.inr (Or.inr (Or.inr (Or.inr (Or.inl ⟨t, e, async, p, b, p', rfl, ht, hr, rfl⟩))))

theorem goto_self (s : Threads Tid) (t : Tid) (b : TaskBase Tid) (p : PC) : (s.goto t b p).pc t = p := by
  simp [Threads.goto]

theorem goto_of_ne (s : Threads Tid) {t u : Tid} (b : TaskBase Tid) (p : PC) (h : u ≠ t) :
    (s.goto t b p).pc u = s.pc u := by
  simp [Threads.goto, h]

end Steps

/-! ## The invariant -/

/-- Some call of `Cancel` has seen the task stopped. -/
def Threads.Closed (s : Threads Tid) : Prop := s.cancelReturned = true ∨ ∃ t, s.pc t = .cancel false .ret

/-- One `Run` at a time, whose `DoRun` is visible in the state; and once a `Cancel` has seen the task stopped, the
request is set and no `Run` is where it could reach `DoRun`. -/
structure Barrier (s : Threads Tid) : Prop where
  one : ∀ t u p q, s.pc t = .run p → s.pc u = .run q → t = u
  running : ∀ t, s.pc t = .run .doRun ∨ s.pc t = .run .setFinished → s.task.state = .running
  requested : ∀ t async p, s.pc t = .cancel async p → p ≠ .setFlag → s.task.isRequestCancel = true
  closed_requested : s.Closed → s.task.isRequestCancel = true
  closed : s.Closed → ∀ t, s.pc t ≠ .run .setRunning ∧ s.pc t ≠ .run .doRun

section Invariant

variable [DecidableEq Tid] {s s' : Threads Tid} {a : Action Tid}

/-- One thread moves. What is owed: the request stays, the others still see what they saw, and the thread goes nowhere
it must not be. -/
theorem Barrier.goto (hi : Barrier s) {t : Tid} {b : TaskBase Tid} {p : PC}
    (hreq : s.task.isRequestCancel = true → b.isRequestCancel = true)
    (hone : ∀ q, p = .run q → ∀ u r, u ≠ t → s.pc u ≠ .run r)
    (hrun : ∀ u, u ≠ t → s.pc u = .run .doRun ∨ s.pc u = .run .setFinished → b.state = .running)
    (hrun' : p = .run .doRun ∨ p = .run .setFinished → b.state = .running)
    (hcancel : ∀ async q, p = .cancel async q → q ≠ .setFlag → b.isRequestCancel = true)
    (hclosed : s.Closed → p ≠ .run .setRunning ∧ p ≠ .run .doRun)
    (hret : p = .cancel false .ret → ∀ u, u ≠ t → s.pc u ≠ .run .setRunning ∧ s.pc u ≠ .run .doRun) :
    Barrier (s.goto t b p) := by
  have hself := goto_self s t b p
  have hother : ∀ u, u ≠ t → (s.goto t b p).pc u = s.pc u := fun u h => goto_of_ne s b p h
  -- who has seen the task stopped, has seen it before or is at the return now
  have hcl : (s.goto t b p).Closed → s.Closed ∨ p = .cancel false .ret := by
    rintro (h | ⟨u, hu⟩)
    · exact Or.inl (Or.inl h)
    · by_cases hut : u = t
      · subst hut; rw [hself] at hu; exact Or.inr hu
      · rw [hother u hut] at hu; exact Or.inl (Or.inr ⟨u, hu⟩)
  refine ⟨fun u v q r hu hv => ?_, fun u hu => ?_, fun u async q hu hq => ?_, fun hc => ?_, fun hc u => ?_⟩
  · by_cases hut : u = t
    · by_cases hvt : v = t
      · rw [hut, hvt]
      · subst hut
        rw [hself] at hu; rw [hother v hvt] at hv
        exact absurd hv (hone q hu v r hvt)
    · by_cases hvt : v = t
      · subst hvt
        rw [hself] at hv; rw [hother u hut] at hu
        exact absurd hu (hone r hv u q hut)
      · rw [hother u hut] at hu; rw [hother v hvt] at hv
        exact hi.one u v q r hu hv
  · by_cases hut : u = t
    · subst hut; rw [hself] at hu; exact hrun' hu
    · rw [hother u hut] at hu; exact hrun u hut hu
  · by_cases hut : u = t
    · subst hut; rw [hself] at hu; exact hcancel async q hu hq
    · rw [hother u hut] at hu; exact hreq (hi.requested u async q hu hq)
  · rcases hcl hc with h | h
    · exact hreq (hi.closed_requested h)
    · exact hcancel false .ret h (by simp)
  · by_cases hut : u = t
    · subst hut
      rw [hself]
      rcases hcl hc with h | h
      · exact hclosed h
      · simp [h]
    · rw [hother u hut]
      rcases hcl hc with h | h
      · exact hi.closed h u
      · exact hret h u hut

/-- A thread that leaves what it does. -/
theorem Barrier.leave (hi : Barrier s) (t : Tid) : Barrier (s.goto t s.task .idle) :=
  hi.goto id (by simp) (fun u _ => hi.running u) (by simp) (by simp) (by simp) (by simp)

/-- `Cancel` or `CancelAsync` takes a step. -/
theorem Barrier.cancel (hi : Barrier s) {t : Tid} {e : Exit} {async : Bool} {p p' : CancelPC} {b : TaskBase Tid}
    (ht : s.pc t = .cancel async p) (hc : s.task.cancel async t p e = some (b, p'))
    (htimely : async = false → p' = .ret → ∀ u, s.pc u ≠ .run .setRunning) :
    Barrier (s.goto t b (.cancel async p')) := by
  have hset : p ≠ .setFlag → s.task.isRequestCancel = true := hi.requested t async p ht
  have hkeep : b.state = s.task.state ∧ (s.task.isRequestCancel = true → b.isRequestCancel = true) ∧
      (p' ≠ .setFlag → b.isRequestCancel = true) := by
    rcases cancel_cases hc with ⟨rfl, rfl, -⟩ | ⟨rfl, rfl, -⟩ | ⟨rfl, rfl, -⟩ | ⟨hp, hb⟩
    · simp
    · exact ⟨rfl, id, fun _ => hset (by simp)⟩
    · exact ⟨rfl, id, fun _ => hset (by simp)⟩
    · obtain rfl : b = (s.task.awaitStop t).1 := congrArg Prod.fst hb
      have hp : p ≠ .setFlag := by rcases hp with rfl | ⟨rfl, -⟩ <;> simp
      simp [hset hp]
  refine hi.goto hkeep.2.1 (by simp) (fun u _ hu => hkeep.1 ▸ hi.running u hu) (by simp)
    (fun _ q hq hne => ?_) (by simp) fun hq u _ => ?_
  · cases hq; exact hkeep.2.2 hne
  · obtain ⟨rfl, rfl⟩ : async = false ∧ p' = .ret := by simpa using hq
    refine ⟨htimely rfl rfl u, fun hu => ?_⟩
    -- a `DoRun` in progress shows in the state, and then the wait does not end
    have hrun := hi.running u (Or.inl hu)
    rcases cancel_cases hc with ⟨-, -, h⟩ | ⟨-, -, h⟩ | ⟨-, -, h⟩ | ⟨-, h⟩
    · cases h
    · cases h
    · cases h
    · have hstop := awaitStop_ret (congrArg Prod.snd h).symm
      simp [isStopState, hrun] at hstop

/-- `Run` takes a step. -/
theorem Barrier.run (hi : Barrier s) {t : Tid} {e : Exit} {p p' : RunPC} {b : TaskBase Tid} (ht : s.pc t = .run p)
    (hr : s.task.run p e = some (b, p')) : Barrier (s.goto t b (.run p')) := by
  have hflag := run_isRequestCancel hr
  have hone : ∀ u r, u ≠ t → s.pc u ≠ .run r := fun u r hut hu => hut (hi.one u t r p hu ht)
  refine hi.goto (fun h => hflag ▸ h) (fun _ _ => hone) (fun u hut hu => ?_) (fun hp => ?_) (by simp)
    (fun hc => ?_) (by simp)
  · rcases hu with hu | hu <;> exact absurd hu (hone u _ hut)
  · rcases run_cases hr with ⟨-, rfl, -⟩ | ⟨-, -, rfl⟩ | ⟨-, -, rfl⟩ | ⟨-, -, rfl⟩ | ⟨rfl, h⟩
    · rfl
    · simp at hp
    · simp at hp
    · simp at hp
    · rcases h with ⟨-, rfl⟩ | ⟨rfl, -⟩ | ⟨-, rfl | rfl⟩
      · split at hp <;> simp at hp
      · exact hi.running t (Or.inl ht)
      · simp at hp
      · simp at hp
  · have hset := hi.closed_requested hc
    have hout := hi.closed hc t
    rw [ht] at hout
    rcases run_cases hr with ⟨rfl, -, -⟩ | ⟨-, -, rfl⟩ | ⟨-, -, rfl⟩ | ⟨-, -, rfl⟩
      | ⟨-, ⟨-, rfl⟩ | ⟨rfl, -⟩ | ⟨-, rfl | rfl⟩⟩
    all_goals simp_all

/-- A move that starts no second `Run` and ends no wait early keeps the invariant. -/
theorem Barrier.step (hi : Barrier s) (h1 : OneAfterTheOther s a) (h2 : Timely s a) (h : step s a = some s') :
    Barrier s' := by
  rcases step_cases h with ⟨t, c, rfl, ht, rfl⟩ | ⟨t, e, rfl, -, rfl⟩ | ⟨t, e, async, rfl, ht, rfl⟩ |
    ⟨t, e, p, b, p', rfl, ht, hr, rfl⟩ | ⟨t, e, async, p, b, p', rfl, ht, hc, rfl⟩ | ⟨t, rfl, rfl⟩
  · cases c with
    | run =>
      refine hi.goto id (fun _ _ u r _ hu => ?_) (fun u _ => hi.running u) ?_ ?_ ?_ ?_ <;> try simp [Call.start]
      have := h1 u
      rw [hu] at this; cases this
    | cancel | cancelAsync =>
      refine hi.goto id ?_ (fun u _ => hi.running u) ?_ ?_ ?_ ?_ <;> simp [Call.start]
  · exact hi.leave t
  · have hl := hi.leave t
    have hcl : ({ s.goto t s.task .idle with cancelReturned := s.cancelReturned || !async } : Threads Tid).Closed →
        s.Closed := by
      rintro (hc | ⟨u, hu⟩)
      · cases async with
        | true => exact Or.inl (by simpa using hc)
        | false => exact Or.inr ⟨t, ht⟩
      · by_cases hut : u = t
        · subst hut; simp [Threads.goto] at hu
        · exact Or.inr ⟨u, by simpa [Threads.goto, hut] using hu⟩
    refine ⟨hl.one, hl.running, hl.requested, fun hc => hi.closed_requested (hcl hc), fun hc u => ?_⟩
    by_cases hut : u = t
    · subst hut; simp [Threads.goto]
    · simpa [Threads.goto, hut] using hi.closed (hcl hc) u
  · exact hi.run ht hr
  · refine hi.cancel ht hc fun hasync hret => h2 ?_
    subst hasync hret
    rcases cancel_cases hc with ⟨-, -, h⟩ | ⟨rfl, -, h⟩ | ⟨-, -, h⟩ | ⟨hp, hb⟩
    · cases h
    · simp at h
    · cases h
    · refine ⟨?_, awaitStop_ret (congrArg Prod.snd hb).symm⟩
      rcases hp with rfl | ⟨rfl, hw⟩
      · exact Or.inl ht
      · exact Or.inr ⟨ht, hw⟩
  · exact ⟨hi.one, hi.running, hi.requested, hi.closed_requested, hi.closed⟩

theorem Barrier.init : Barrier (system Tid).init := by
  constructor <;> simp [system, Threads.Closed]

end Invariant

/-! ## Cancel is a barrier -/

section Runs

variable [DecidableEq Tid] {s s' : Threads Tid}

/-- The steps of the runs in which `Cancel` is a barrier. -/
def Orderly (s : Threads Tid) (a : Action Tid) : Prop := OneAfterTheOther s a ∧ Timely s a

theorem barrier (h : (system Tid).Reachable Orderly s) : Barrier s :=
  h.induct Barrier.init fun _ _ _ _ hok hs hi => hi.step hok.1 hok.2 hs

/-- A `Cancel` that has returned stays so. -/
theorem step_cancelReturned {a : Action Tid} (h : step s a = some s') (hc : s.cancelReturned = true) :
    s'.cancelReturned = true := by
  rcases step_cases h with ⟨_, _, _, _, rfl⟩ | ⟨_, _, _, _, rfl⟩ | ⟨_, _, _, _, _, rfl⟩
    | ⟨_, _, _, _, _, _, _, _, rfl⟩ |
    ⟨_, _, _, _, _, _, _, _, _, rfl⟩ | ⟨_, _, rfl⟩ <;> simp [Threads.goto, hc]

/-- **Cancel is a barrier.** In a run without an untimely step, once a `Cancel` has returned, `DoRun` is neither in
progress nor ever entered again, whatever comes later. -/
theorem cancel_barrier (h : (system Tid).Reachable Orderly s) (hc : s.cancelReturned = true)
    (hs : (system Tid).Reaches OneAfterTheOther s s') (t : Tid) : s'.pc t ≠ .run .doRun := by
  have key : Barrier s' ∧ s'.cancelReturned = true := by
    refine hs.keeps (I := fun s => Barrier s ∧ s.cancelReturned = true) (fun s a s' h1 hst hI => ?_) ⟨barrier h, hc⟩
    have hout := hI.1.closed (Or.inl hI.2)
    refine ⟨hI.1.step h1 ?_ hst, step_cancelReturned hst hI.2⟩
    cases a with
    | step t e => exact fun _ u => (hout u).1
    | call t c => trivial
    | wake t => trivial
  exact (key.1.closed (Or.inl key.2) t).2

/-- From a state where a wait ends untimely, the `Cancel` returns and `DoRun` begins. -/
theorem untimely_enters {t u : Tid} (ht : s.endsWait t) (hu : s.pc u = .run .setRunning) :
    ∃ s', (system Tid).Reaches OneAfterTheOther s s' ∧ s'.cancelReturned = true ∧ s'.pc u = .run .doRun := by
  obtain ⟨hpc, hstop⟩ := ht
  have hut : u ≠ t := by
    rintro rfl
    rcases hpc with h | ⟨h, -⟩ <;> rw [hu] at h <;> cases h
  obtain ⟨s1, hs1⟩ : ∃ s1, s1 = s.goto t s.task (.cancel false .ret) := ⟨_, rfl⟩
  obtain ⟨s2, hs2⟩ : ∃ s2, s2 = { s1.goto t s1.task .idle with cancelReturned := true } := ⟨_, rfl⟩
  -- the state read, the return, and the write of RUNNING
  have h1 : step s (.step t .ret) = some s1 := by
    rcases hpc with h | ⟨h, hw⟩
    · simp [step, h, cancel, awaitStop, hstop, hs1]
    · simp [step, h, cancel, awaitStop, hstop, hw, hs1]
  have h2 : step s1 (.step t .ret) = some s2 := by simp [step, hs1, hs2, Threads.goto]
  have h3 : step s2 (.step u .ret) = some (s2.goto u (s2.task.setState .running) (.run .doRun)) := by
    simp [step, hs1, hs2, Threads.goto, hut, hu, run]
  refine ⟨_, .head ⟨.step t .ret, trivial, h1⟩ (.head ⟨.step t .ret, trivial, h2⟩
    (.head ⟨.step u .ret, trivial, h3⟩ .refl)), ?_, ?_⟩
  · simp [hs2, Threads.goto]
  · simp [Threads.goto]

/-! ## Two threads -/

section Two

variable [Fintype Tid]

instance (s : Threads Tid) (a : Action Tid) : Decidable (OneAfterTheOther s a) := match a with
  | .call _ .run => inferInstanceAs (Decidable (∀ u, (s.pc u).inRun = false))
  | .call _ .cancel | .call _ .cancelAsync | .step _ _ | .wake _ => isTrue trivial

instance (s : Threads Tid) (a : Action Tid) : Decidable (Timely s a) := match a with
  | .step t _ => inferInstanceAs (Decidable ((s.pc t = .cancel false .wait ∨ s.pc t = .cancel false .blocked ∧
      t ∉ s.task.waiters) ∧ s.task.isStopState = true → ∀ u, s.pc u ≠ .run .setRunning))
  | .call _ _ | .wake _ => isTrue trivial

instance (s : Threads Tid) (a : Action Tid) : Decidable (Orderly s a) := inferInstanceAs (Decidable (_ ∧ _))

end Two

/-- A run that ends while another thread waits in `Cancel`. -/
theorem cancel_barrier_run : ∃ s, (system (Fin 2)).Reachable Orderly s ∧ s.cancelReturned = true ∧
    ∀ s', (system (Fin 2)).Reaches OneAfterTheOther s s' → ∀ t, s'.pc t ≠ .run .doRun := by
  obtain ⟨s, hs, hp⟩ := System.reachable_of_exec (system (Fin 2)) Orderly
    [.call 0 .run, .step 0 .ret, .step 0 .ret, .call 1 .cancel, .step 1 .ret, .step 1 .ret, .step 1 .ret, .step 0 .ret,
      .step 0 .ret, .step 0 .ret, .step 1 .ret, .step 1 .ret] (fun s => s.cancelReturned) (by decide)
  exact ⟨s, hs, hp, fun s' h => cancel_barrier hs hp h⟩

/-- **Cancel is no barrier between two runs of an interval task.** The second `Run` has passed its check when the flag
is set, and the `Cancel` returns on the state the first `Run` has left. -/
theorem cancel_between_runs : ∃ s, (system (Fin 2)).Reachable OneAfterTheOther s ∧ s.cancelReturned = true ∧
    s.pc 0 = .run .doRun := by
  obtain ⟨s, hs, hp⟩ := System.reachable_of_exec (system (Fin 2)) OneAfterTheOther
    ([.call 0 .run] ++ List.replicate 6 (.step 0 .ret) ++ [.call 0 .run, .step 0 .ret, .call 1 .cancel] ++
      List.replicate 4 (.step 1 .ret) ++ [.step 0 .ret])
    (fun s => s.cancelReturned && s.pc 0 == .run .doRun) (by decide)
  simp only [Bool.and_eq_true, beq_iff_eq] at hp
  exact ⟨s, hs, hp.1, hp.2⟩

end Runs

end Tpool.TaskBase
