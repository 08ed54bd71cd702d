import Tpool.Pool.Destructor

/-!
# The pool while it is destroyed

- `Dying`: what holds of a pool whose `StopAsync` has returned and that nobody calls any more: all `EndTask`s were
  pushed, so that no worker sleeps for ever.
- `Doomed`: the timer thread was asked to end, so that it does not sleep for ever either.
- `Sound`: what holds of a pool and its destructor, wherever this is.
- `destructor_safe`: no thread uses a member that was destroyed. `destructor_returns`: the destructor does not hang.
-/

namespace Tpool

open Concurrency Tpool.Core

namespace FixedThreadPool

variable {n : Nat} {Cl T : Type*} {isEndTask : T → Bool} {s s' : FixedThreadPool n Cl T}

/-! ## The timer -/

section Doomed

/-- The timer thread was asked to end. -/
def Doomed (s : FixedThreadPool n Cl T) : Prop := ∀ tm, s.timer = some tm → tm.thread.isRequestCancel = true

/-- A client is in `Timer::Stop`, as `Stop` calls it. -/
def ClientPC.stopsTimer : ClientPC T → Bool
  | .stopTimerAsync k | .clearTimer k | .cancelTimer k | .waitTimer k | .blockedTimer k => k == .stop
  | _ => false

variable [DecidableEq Cl] [DecidableEq T] {c : Cl} {i : Fin n} {e : Exit}

omit [DecidableEq Cl] in
theorem Doomed.timerStep (hd : Doomed s) (hi : Waits s) (h : TimerStep s s') : Doomed s' := by
  obtain ⟨tm, tm', htm, htm', -, hflag, -⟩ := h.live hi.timer
  intro t ht
  rw [htm', Option.some.injEq] at ht
  rw [← ht, hflag]
  exact hd tm htm

omit [DecidableEq Cl] [DecidableEq T] in
theorem Doomed.of_eq (hd : Doomed s) (h : s'.timer = s.timer) : Doomed s' := fun tm htm => hd tm (h ▸ htm)

theorem Doomed.wakeStep (hd : Doomed s) (w : Wake n Cl T) : Doomed (s.wakeStep w) := by
  cases w with
  | timer | timerThread =>
    intro tm' htm'
    obtain ⟨tm, htm, rfl⟩ := Option.map_eq_some_iff.mp htm'
    exact hd tm htm
  | _ => exact hd

theorem Doomed.clientStep (hd : Doomed s) (ht : s.timer.isSome = true) (h : ClientStep c s s') : Doomed s' := by
  intro tm' htm'
  rcases h.timerMove htm' with ⟨hnone, -, -⟩ | ⟨tm, htm, hm⟩
  · rw [hnone] at ht
    cases ht
  · have hflag := hd tm htm
    cases hm with
    | same | setQueue => exact hflag
    | cancelAsync => rfl
    | await => simpa using hflag

/-- What a client does in `Timer::Stop`: it touches the timer only, and goes on, or comes to its end. -/
theorem ClientStep.stopsTimer (h : ClientStep c s s') (hpc : (s.client c).stopsTimer = true) :
    s'.view = s.view ∧ s'.ctor = s.ctor ∧ s'.threads = s.threads ∧ s'.stateGuard = s.stateGuard ∧
      ((s'.client c).stopsTimer = true ∨ (s'.client c = .unlockState ∧ (s.client c).asksTimer = true)) := by
  have move : ∀ {pc}, s'.client c = pc → pc.stopsTimer = true ∨ (pc = .unlockState ∧ (s.client c).asksTimer = true) →
      s'.view = s.view → s'.ctor = s.ctor → s'.threads = s.threads → s'.stateGuard = s.stateGuard →
      s'.view = s.view ∧ s'.ctor = s.ctor ∧ s'.threads = s.threads ∧ s'.stateGuard = s.stateGuard ∧
        ((s'.client c).stopsTimer = true ∨ (s'.client c = .unlockState ∧ (s.client c).asksTimer = true)) := by
    rintro pc rfl hor h1 h2 h3 h4
    exact ⟨h1, h2, h3, h4, hor⟩
  cases h with
  | @silent pc pc' hc hs =>
    rw [hc] at hpc
    cases hs with
    | timerFinished hor =>
      have hasks : (s.client c).asksTimer = true := by rw [hc]; rcases hor with rfl | rfl <;> rfl
      exact move (Function.update_self ..) (Or.inr ⟨rfl, hasks⟩) rfl rfl rfl rfl
    | threadFinished _ hor => rcases hor with rfl | rfl <;> cases hpc
    | _ => cases hpc
  | cancelTimer htm hor =>
    rcases hor with ⟨hc, rfl⟩ | ⟨hc, rfl⟩ | ⟨hc, rfl⟩ <;> rw [hc] at hpc
    · cases hpc
    · exact move (Function.update_self ..) (Or.inl hpc) rfl rfl rfl rfl
    · exact move (Function.update_self ..) (Or.inl hpc) rfl rfl rfl rfl
  | clearTimer htm _ hor =>
    rcases hor with ⟨hc, rfl⟩ | ⟨hc, rfl⟩ <;> rw [hc] at hpc
    · cases hpc
    · exact move (Function.update_self ..) (Or.inl hpc) rfl rfl rfl rfl
  | waitTimer htm hor =>
    rcases hor with hc | ⟨hc, -⟩ <;> rw [hc] at hpc <;>
      exact move (Function.update_self ..) (Or.inl hpc) rfl rfl rfl rfl
  | stopNowReturned hc hor => rw [hc] at hpc; rcases hor with rfl | rfl | rfl <;> cases hpc
  | finished hor | join hor | waitThread _ hor => rcases hor with hc | ⟨hc, -⟩ <;> rw [hc] at hpc <;> cases hpc
  | cancelThread _ hor => rcases hor with ⟨hc, -⟩ | ⟨hc, -⟩ <;> rw [hc] at hpc <;> cases hpc
  | push hc | makeTimer hc | setDeadline hc | setInterval hc | pushTask hc | win hc | pushEndTask hc | pushedAll hc
  | unlockState hc | lockRunningTask _ hc | cancelRunningTask _ hc | unlockRunningTask _ hc | cancelTask hc =>
    rw [hc] at hpc
    cases hpc

end Doomed

/-! ## A pool that nobody calls -/

section Dying

variable [DecidableEq Cl] [DecidableEq T] {c : Cl} {i : Fin n} {e : Exit}

/-- The pool was stopped, and nobody but the destructor is in a call. -/
structure Dying (isEndTask : T → Bool) (s : FixedThreadPool n Cl T) : Prop where
  view : Core.Reachable isEndTask s.view
  constructed : s.ctor = .done
  ends : s.endsPushed = n
  present : ∀ i, (s.threads i).pc ≠ .absent
  shape : Shape isEndTask s
  held : Held s
  waits : Waits s
  free : s.stateGuard = none

omit [DecidableEq T] in
theorem Shows.reachable {v v' : Core n Cl T} (h : Shows isEndTask v v') (hv : Core.Reachable isEndTask v) :
    Core.Reachable isEndTask v' := by
  rcases h with rfl | h
  · exact hv
  · exact hv.tail h

theorem Dying.workerStep (hd : Dying isEndTask s) (h : WorkerStep isEndTask i e s s') : Dying isEndTask s' := by
  obtain ⟨hctor, -, -, -, -, -, -, -, -, -, hpushes⟩ := h.rest
  refine ⟨(h.shows hd.shape).reachable hd.view, hctor.trans hd.constructed, by rw [endsPushed, hpushes]; exact hd.ends,
    fun j => ?_, hd.shape.workerStep h, hd.held.workerStep h, hd.waits.workerStep h, by cases h <;> exact hd.free⟩
  by_cases hji : j = i
  · subst hji
    exact h.present.2.2
  · rw [h.others j hji]
    exact hd.present j

theorem Dying.timerStep (hd : Dying isEndTask s) (h : TimerStep s s') : Dying isEndTask s' := by
  refine ⟨(h.shows hd.constructed).reachable hd.view, h.frame.ctor.trans hd.constructed, ?_, fun j => ?_,
    hd.shape.frame h.frame, hd.held.timerStep h, hd.waits.timerStep h, by cases h <;> exact hd.free⟩
  · have hends := hd.ends
    cases h with
    | push => simpa [endsPushed, TaskQueue.push, Item.isStop] using hends
    | _ => exact hends
  · rw [h.threads]
    exact hd.present j

theorem Dying.wakeStep (hd : Dying isEndTask s) (w : Wake n Cl T) : Dying isEndTask (s.wakeStep w) := by
  have hf := wakeStep_frame (s := s) w
  refine ⟨(wakeStep_shows w).reachable hd.view, hf.ctor.trans hd.constructed, ?_, fun j => ?_, hd.shape.frame hf,
    hd.held.wakeStep w, hd.waits.wakeStep w, by cases w <;> exact hd.free⟩
  · cases w <;> exact hd.ends
  · rw [(hf.threads j).1]
    exact hd.present j

theorem Dying.clientStep (hd : Dying isEndTask s) (h : ClientStep c s s') (hpc : (s.client c).stopsTimer = true) :
    Dying isEndTask s' := by
  obtain ⟨hview, hctor, hthreads, hguard, -⟩ := h.stopsTimer hpc
  refine ⟨hview ▸ hd.view, hctor.trans hd.constructed, ?_, fun j => hthreads ▸ hd.present j, hd.shape.frame h.frame,
    hd.held.clientStep h, hd.waits.clientStep h, hguard.trans hd.free⟩
  rw [show s'.endsPushed = s'.view.endsPushed from rfl, hview]
  exact hd.ends

omit [DecidableEq T] in
/-- No worker of it sleeps for ever. -/
theorem Dying.not_blocked (hd : Dying isEndTask s) (i : Fin n) : ¬ s.Blocked i := by
  rintro ⟨hpc, hwait⟩
  have hle := hd.view.served.ends_left hd.ends
  rw [show s.view.queue.elems = [] from s.taskQueue.waiting_empty ⟨i, hwait⟩, List.countP_nil, Nat.le_zero,
    Finset.card_eq_zero, Finset.filter_eq_empty_iff] at hle
  refine hle (Finset.mem_univ i) ?_
  rw [show s.view.queue.pushes = s.taskQueue.pushes from rfl, mayTake_view hd.shape]
  simp [WorkerThread.mayTake, hpc]

end Dying

/-! ## Threads that have ended -/

section Over

variable [DecidableEq Cl] [DecidableEq T] {c : Cl} {i : Fin n} {e : Exit} {o : Owner n}

omit [DecidableEq Cl] [DecidableEq T] in
/-- The timer thread has ended, or there is none. -/
theorem isOver_none : s.isOver none = true ↔ ∀ tm, s.timer = some tm → tm.pc = .terminated := by
  cases htm : s.timer with
  | none => simp [isOver, htm]
  | some tm => cases hpc : tm.pc <;> simp [isOver, htm, hpc]

omit [DecidableEq Cl] in
theorem WorkerStep.isOver (h : WorkerStep isEndTask i e s s') (ho : s.isOver o = true) : s'.isOver o = true := by
  cases o with
  | none =>
    refine isOver_none.mpr fun tm htm => isOver_none.mp ho tm ?_
    rw [← h.rest.2.2.1, htm]
  | some j =>
    by_cases hji : j = i
    · subst hji
      have := h.present.2.1
      rw [show (s.threads j).pc.isTerminated = true from ho] at this
      cases this
    · show (s'.threads j).pc.isTerminated = true
      rw [h.others j hji]
      exact ho

omit [DecidableEq Cl] in
/-- The timer thread makes no step when it has ended. -/
theorem TimerStep.not_over (h : TimerStep s s') : s.isOver none = false := by
  have not : ∀ {tm}, s.timer = some tm → tm.pc ≠ .terminated → s.isOver none = false := by
    intro tm htm hpc
    by_contra ho
    exact hpc (isOver_none.mp (by simpa using ho) tm htm)
  cases h with
  | @own tm i w htm hw =>
    refine not htm fun hpc => ?_
    cases hw with
    | move hpc' hm => exact hm.ne_terminated.1 (hpc'.symm.trans hpc)
    | pop hpc' hp => exact hp.ne_terminated (hpc'.symm.trans hpc)
    | setRunning hpc' | lock hpc' | wait hpc' | wake hpc' | again hpc' | sleep hpc' | awake hpc' | unlock hpc'
    | leave hpc' | run hpc' | notifyFinished hpc' => cases hpc'.symm.trans hpc
  | move htm hpc | run htm hpc | caught htm hpc | cancelAsync htm hpc | leave htm hpc | push htm hpc =>
    exact not htm (by simp [hpc])

omit [DecidableEq Cl] in
theorem TimerStep.isOver (h : TimerStep s s') (ho : s.isOver o = true) : s'.isOver o = true := by
  cases o with
  | none =>
    rw [h.not_over] at ho
    cases ho
  | some j =>
    show (s'.threads j).pc.isTerminated = true
    rw [h.threads]
    exact ho

theorem wakeStep_isOver (w : Wake n Cl T) (ho : s.isOver o = true) : (s.wakeStep w).isOver o = true := by
  cases o with
  | none =>
    refine isOver_none.mpr fun tm' htm' => ?_
    cases w with
    | timer | timerThread =>
      obtain ⟨tm, htm, rfl⟩ := Option.map_eq_some_iff.mp htm'
      exact isOver_none.mp ho tm htm
    | _ => exact isOver_none.mp ho tm' htm'
  | some j =>
    show ((s.wakeStep w).threads j).pc.isTerminated = true
    rw [((wakeStep_frame w).threads j).1]
    exact ho

omit [DecidableEq T] in
/-- Where nobody calls the pool and no thread can make a step, all of them have ended. -/
theorem Dying.over_of_stuck (hd : Dying isEndTask s) (hidle : ∀ c, s.client c = .idle) (hdoomed : Doomed s)
    (hstuck : Stuck s) (o : Owner n) : s.isOver o = true := by
  have hbuilt : Built s := fun i => by
    rw [show s.ctor = .done from hd.constructed]
    simpa using hd.present i
  cases o with
  | some i => exact (hstuck.worker_rests hd.waits hd.held hbuilt i).resolve_right (hd.not_blocked i)
  | none =>
    refine isOver_none.mpr fun tm htm => (hstuck.timer tm htm).resolve_right ?_
    rintro ⟨hwait, hasleep⟩
    obtain ⟨c, hc⟩ := hd.waits.woken tm htm hwait hasleep (hdoomed tm htm)
    rw [hidle c] at hc
    cases hc

end Over

/-! ## StopAsync in the destructor -/

section StopsAsync

variable [DecidableEq Cl] [DecidableEq T] {c : Cl}

/-- A client is in `StopAsync`. -/
def ClientPC.stopsAsync : ClientPC T → Bool
  | .compareAndSet k | .timerStarted k | .timerCancelAsync k | .timerClear k | .pushEndTask k _ => k == .async
  | _ => false

/-- `StopAsync` goes on, or returns when the stop was requested. -/
theorem ClientStep.stopsAsync (h : ClientStep c s s') (ha : s.Asserts (s.client c))
    (hpc : (s.client c).stopsAsync = true) :
    (s'.client c).stopsAsync = true ∨ (s'.client c = .idle ∧ s'.isRequestStop = true) := by
  have move : ∀ {pc}, s'.client c = pc → pc.stopsAsync = true ∨ (pc = .idle ∧ s'.isRequestStop = true) →
      (s'.client c).stopsAsync = true ∨ (s'.client c = .idle ∧ s'.isRequestStop = true) := by
    rintro pc rfl hor
    exact hor
  have async : ∀ {k : Stopper}, (k == .async) = true → (k.afterAsync : ClientPC T) = .idle := by
    intro k hk
    cases k with
    | async => rfl
    | stop | now => cases hk
  cases h with
  | @silent pc pc' hc hs =>
    rw [hc] at hpc
    cases hs with
    | lost hr => exact move (Function.update_self ..) (Or.inr ⟨async hpc, hr⟩)
    | timerStarted | noTimer => exact move (Function.update_self ..) (Or.inl hpc)
    | threadFinished _ hor | timerFinished hor => rcases hor with rfl | rfl <;> cases hpc
    | _ => cases hpc
  | win hc => rw [hc] at hpc; exact move (Function.update_self ..) (Or.inl hpc)
  | pushEndTask hc => rw [hc] at hpc; exact move (Function.update_self ..) (Or.inl hpc)
  | pushedAll hc =>
    rw [hc] at hpc ha
    exact move (Function.update_self ..) (Or.inr ⟨async hpc, ha⟩)
  | cancelTimer htm hor =>
    rcases hor with ⟨hc, rfl⟩ | ⟨hc, rfl⟩ | ⟨hc, rfl⟩ <;> rw [hc] at hpc
    · exact move (Function.update_self ..) (Or.inl hpc)
    · cases hpc
    · cases hpc
  | clearTimer htm _ hor =>
    rcases hor with ⟨hc, rfl⟩ | ⟨hc, rfl⟩ <;> rw [hc] at hpc
    · exact move (Function.update_self ..) (Or.inl hpc)
    · cases hpc
  | stopNowReturned hc hor => rw [hc] at hpc; rcases hor with rfl | rfl | rfl <;> cases hpc
  | finished hor | join hor | waitThread _ hor | waitTimer _ hor =>
    rcases hor with hc | ⟨hc, -⟩ <;> rw [hc] at hpc <;> cases hpc
  | cancelThread _ hor => rcases hor with ⟨hc, -⟩ | ⟨hc, -⟩ <;> rw [hc] at hpc <;> cases hpc
  | push hc | makeTimer hc | setDeadline hc | setInterval hc | pushTask hc | unlockState hc | lockRunningTask _ hc
  | cancelRunningTask _ hc | unlockRunningTask _ hc | cancelTask hc =>
    rw [hc] at hpc
    cases hpc

/-- A pool that was stopped and that nobody is in a call of. -/
theorem Reachable.dying {ok : FixedThreadPool n Cl T → FixedThreadPool.Action n Cl T → Prop}
    (h : (FixedThreadPool.system n Cl isEndTask).Reachable ok s) (hctor : s.ctor = .done) (hr : s.isRequestStop = true)
    (hidle : ∀ c, s.client c = .idle) : Dying isEndTask s := by
  have hnone : ∀ c, (s.client c).pushing = none := fun c => by rw [hidle c]; rfl
  refine ⟨Reachable.view h, hctor, ?_, fun i habs => ?_, Reachable.shape h, Reachable.held h, Reachable.waits h,
    ?_⟩
  · cases Reachable.winning h with
    | nobody hno => rw [hr] at hno; cases hno
    | pushing c _ _ _ _ _ hpush => rw [hnone c] at hpush; cases hpush
    | pushed _ hends => exact hends
  · obtain ⟨k, -, hk⟩ := (Reachable.built h i).mp habs
    rw [hctor] at hk
    cases hk
  · by_contra hne
    obtain ⟨c, hc⟩ := Option.ne_none_iff_exists'.mp hne
    have hholds := (Reachable.held h).state c hc
    rw [hidle c] at hholds
    cases hholds

end StopsAsync

end FixedThreadPool

open FixedThreadPool

namespace Destruction

variable {n : Nat} {Cl T : Type*} [DecidableEq Cl] [DecidableEq T] {isEndTask : T → Bool} {d d' : Destruction n Cl T}

/-! ## Wherever the destructor is -/

/-- Where the destructor is, and what holds there. -/
def Sound (isEndTask : T → Bool) (d : Destruction n Cl T) : Prop := match d.dtor with
  | .alive => (FixedThreadPool.system n Cl isEndTask).Reachable Anything d.pool ∧ d.destroyed = []
  | .stopAsync c => (FixedThreadPool.system n Cl isEndTask).Reachable Anything d.pool ∧ d.destroyed = [] ∧
      d.pool.ctor = .done ∧ (∀ c' ≠ c, d.pool.client c' = .idle) ∧
      ((d.pool.client c).stopsAsync = true ∨ (d.pool.client c = .idle ∧ d.pool.isRequestStop = true))
  | .stopTimer c => Dying isEndTask d.pool ∧ d.destroyed = [] ∧ d.pool.timer.isSome = true ∧
      (∀ c' ≠ c, d.pool.client c' = .idle) ∧
      ((d.pool.client c).stopsTimer = true ∨ (d.pool.client c = .unlockState ∧ Doomed d.pool))
  | .destroy ps => Dying isEndTask d.pool ∧ (∀ c, d.pool.client c = .idle) ∧ Doomed d.pool ∧
      ∃ joined, Ordered joined ps ∧ (∀ o, o ∈ joined ∨ .join o ∈ ps) ∧ (∀ o ∈ joined, d.pool.isOver o = true) ∧
        ∀ m ∈ d.destroyed, ∀ o, m.usedBy o = true → o ∈ joined

/-- Whoever makes a step while the destructor runs is a worker, the timer thread, somebody that wakes, or the client
that runs the destructor. -/
theorem pool_cases {s' : FixedThreadPool n Cl T} {a : FixedThreadPool.Action n Cl T} (hctor : d.pool.ctor = .done)
    (hcall : ∀ c m, a ≠ .call c m) (hs : (FixedThreadPool.system n Cl isEndTask).step d.pool a = some s') :
    (∃ i e, WorkerStep isEndTask i e d.pool s') ∨ TimerStep d.pool s' ∨ (∃ w, s' = d.pool.wakeStep w) ∨
      ∃ c i, a = .client c i ∧ d.pool.client c ≠ .idle ∧ ClientStep c d.pool s' := by
  cases step_cases hs with
  | start _ hc | started hc | constructed hc => rw [hctor] at hc; cases hc
  | call => exact absurd rfl (hcall _ _)
  | client hidle h => exact Or.inr (Or.inr (Or.inr ⟨_, _, rfl, hidle, h⟩))
  | worker h => exact Or.inl ⟨_, _, h⟩
  | timer _ h => exact Or.inr (Or.inl h)
  | wake w => exact Or.inr (Or.inr (Or.inl ⟨w, rfl⟩))

/-- A step of the pool keeps it. -/
theorem Sound.pool (hd : Sound isEndTask d) {a : FixedThreadPool.Action n Cl T} {s' : FixedThreadPool n Cl T}
    (hlet : d.lets a = true) (hs : d.pool.step isEndTask a = some s') : Sound isEndTask { d with pool := s' } := by
  obtain ⟨s, dtor, destroyed⟩ := d
  cases dtor with
  | alive => exact ⟨hd.1.step trivial hs, hd.2⟩
  | stopAsync c =>
    obtain ⟨hr, hnone, hctor, hothers, hc⟩ := hd
    have hr' := hr.step trivial hs
    have hcall : ∀ c m, a ≠ .call c m := by
      rintro c m rfl
      cases hlet
    refine ⟨hr', hnone, ?_⟩
    rcases pool_cases hctor hcall hs with ⟨i, e, h⟩ | h | ⟨w, rfl⟩ | ⟨c', i, rfl, hidle, h⟩
    · obtain ⟨h1, h2, -, -, h3, -⟩ := h.rest
      exact ⟨h1.trans hctor, by rw [h2]; exact hothers, by rw [h2, h3]; exact hc⟩
    · have hstop := h.frame.isRequestStop
      refine ⟨h.frame.ctor.trans hctor, by rw [h.client]; exact hothers, ?_⟩
      rw [h.client]
      exact hc.imp_right fun hc => ⟨hc.1, hstop hc.2⟩
    · refine ⟨(wakeStep_frame w).ctor.trans hctor, ?_, ?_⟩
      · cases w <;> exact hothers
      · cases w <;> exact hc
    · obtain rfl : c' = c := by
        by_contra hne
        exact hidle (hothers c' hne)
      refine ⟨h.frame.ctor.trans hctor, fun c'' hne => by rw [h.others c'' hne]; exact hothers c'' hne, ?_⟩
      rcases hc with hc | ⟨hc, -⟩
      · exact h.stopsAsync ((Reachable.outline hr).asserts c') hc
      · exact absurd hc hidle
  | stopTimer c =>
    obtain ⟨hdying, hnone, htm, hothers, hc⟩ := hd
    have hcall : ∀ c m, a ≠ .call c m := by
      rintro c m rfl
      cases hlet
    rcases pool_cases hdying.constructed hcall hs with ⟨i, e, h⟩ | h | ⟨w, rfl⟩ | ⟨c', i, rfl, hidle, h⟩
    · obtain ⟨-, h1, h2, -⟩ := h.rest
      refine ⟨hdying.workerStep h, hnone, by rw [h2]; exact htm, by rw [h1]; exact hothers, ?_⟩
      rw [h1]
      exact hc.imp_right fun hc => ⟨hc.1, hc.2.of_eq h2⟩
    · have hdoomed := fun hd : Doomed s => hd.timerStep hdying.waits h
      obtain ⟨tm, tm', -, htm', -⟩ := h.live hdying.waits.timer
      refine ⟨hdying.timerStep h, hnone, by rw [htm']; rfl, by rw [h.client]; exact hothers, ?_⟩
      rw [h.client]
      exact hc.imp_right fun hc => ⟨hc.1, hdoomed hc.2⟩
    · refine ⟨hdying.wakeStep w, hnone, ?_, ?_, ?_⟩
      · cases w <;> first | exact htm | simpa [wakeStep] using htm
      · cases w <;> exact hothers
      · exact hc.imp (by cases w <;> exact id) fun hc => ⟨by cases w <;> exact hc.1, hc.2.wakeStep w⟩
    · obtain rfl : c' = c := by
        by_contra hne
        exact hidle (hothers c' hne)
      rcases hc with hc | ⟨hc, -⟩
      · obtain ⟨-, -, -, -, hor⟩ := h.stopsTimer hc
        have hdying' := hdying.clientStep h hc
        refine ⟨hdying', hnone, h.timerStays htm, fun c'' hne => by rw [h.others c'' hne]; exact hothers c'' hne, ?_⟩
        -- the end of the thread was asked for before it was waited for
        exact hor.imp_right fun h' => ⟨h'.1, Doomed.clientStep (fun tm htm => hdying.waits.asks tm htm c' h'.2) htm h⟩
      · have hc : s.client c' = .unlockState := hc
        simp [lets, hc] at hlet
  | destroy ps =>
    obtain ⟨hdying, hidle, hdoomed, joined, hord, hleft, hover, hdestroyed⟩ := hd
    have hcall : ∀ c m, a ≠ .call c m := by
      rintro c m rfl
      cases hlet
    rcases pool_cases hdying.constructed hcall hs with ⟨i, e, h⟩ | h | ⟨w, rfl⟩ | ⟨c', i, rfl, hnot, h⟩
    · obtain ⟨-, h1, h2, -⟩ := h.rest
      exact ⟨hdying.workerStep h, by rw [h1]; exact hidle, hdoomed.of_eq h2, joined, hord, hleft,
        fun o ho => h.isOver (hover o ho), hdestroyed⟩
    · exact ⟨hdying.timerStep h, by rw [h.client]; exact hidle, hdoomed.timerStep hdying.waits h, joined, hord, hleft,
        fun o ho => h.isOver (hover o ho), hdestroyed⟩
    · exact ⟨hdying.wakeStep w, by cases w <;> exact hidle, hdoomed.wakeStep w, joined, hord, hleft,
        fun o ho => wakeStep_isOver w (hover o ho), hdestroyed⟩
    · exact absurd (hidle c') hnot

/-- The call of the destructor. -/
theorem Sound.dtor (hd : Sound isEndTask d) {c : Cl} (hidle : ∀ c', d.pool.client c' = .idle)
    (hs : d.step isEndTask (.dtor c) = some d') : Sound isEndTask d' := by
  obtain ⟨s, dtor, destroyed⟩ := d
  cases dtor with
  | alive =>
    obtain ⟨s', hs', rfl⟩ := Option.map_eq_some_iff.mp hs
    obtain ⟨hr, hnone⟩ := hd
    have hr' : (FixedThreadPool.system n Cl isEndTask).Reachable Anything s' :=
      hr.step (a := .call c .stopAsync) trivial hs'
    have hstep : PoolStep isEndTask s (.call c .stopAsync) s' := step_cases hs'
    cases hstep with
    | call hctor hc =>
      refine ⟨hr', hnone, hctor, fun c' hne => ?_, Or.inl (by simp [goto, Method.start, ClientPC.stopsAsync])⟩
      simpa [goto, hne] using hidle c'
  | stopAsync | stopTimer | destroy => cases hs

/-- The next part of the destructor. -/
theorem Sound.next (hd : Sound isEndTask d) (hs : d.nextStep = some d') : Sound isEndTask d' := by
  obtain ⟨s, dtor, destroyed⟩ := d
  cases dtor with
  | alive => cases hs
  | stopAsync c =>
    obtain ⟨hr, hnone, hctor, hothers, hc⟩ := hd
    simp only [nextStep] at hs
    split at hs
    · rename_i hidle
      have hall : ∀ c', s.client c' = .idle := fun c' => by
        by_cases hcc : c' = c
        · rw [hcc]; exact hidle
        · exact hothers c' hcc
      have hreq : s.isRequestStop = true := by
        rcases hc with hc | hc
        · rw [show s.client c = .idle from hidle] at hc
          cases hc
        · exact hc.2
      have hdying := Reachable.dying hr hctor hreq hall
      split at hs <;> cases hs
      · rename_i htm
        obtain ⟨h1, h2, h3, h4, h5, h6, h7, h8⟩ := hdying
        refine ⟨⟨h1, h2, h3, h4, h5, h6.frame rfl (fun _ => ⟨rfl, rfl⟩) fun c' => Or.inr (hall c'),
          h7.frame rfl .refl fun c' => ?_, h8⟩, hnone, htm, fun c' hne => by simpa [goto, hne] using hothers c' hne,
          Or.inl (by simp [goto, ClientPC.stopsTimer])⟩
        by_cases hcc : c' = c
        · subst hcc
          right
          rw [show (s.goto c' (.stopTimerAsync .stop)).client c' = .stopTimerAsync .stop by simp [goto]]
          exact ⟨by rw [hidle]; rfl, htm, rfl⟩
        · exact Or.inl (by simp [goto, hcc])
      · rename_i htm
        have htm : s.timer = none := by simpa using htm
        have hdoomed : Doomed s := fun tm h => by rw [htm] at h; cases h
        refine ⟨hdying, hall, hdoomed, {none}, ordered_parts n false, joins_parts n false, fun o ho => ?_,
          fun m hm => ?_⟩
        · rw [Set.mem_singleton_iff.mp ho]
          exact isOver_none.mpr fun tm h => by rw [htm] at h; cases h
        · rw [show destroyed = [] from hnone] at hm
          exact absurd hm List.not_mem_nil
    · cases hs
  | stopTimer c =>
    obtain ⟨⟨h1, h2, h3, h4, h5, h6, h7, h8⟩, hnone, htm, hothers, hc⟩ := hd
    simp only [nextStep] at hs
    split at hs
    · rename_i hend
      cases hs
      have hdoomed : Doomed s := by
        rcases hc with hc | hc
        · rw [show s.client c = .unlockState from hend] at hc
          cases hc
        · exact hc.2
      have hidle : ∀ c', (s.goto c .idle).client c' = .idle := fun c' => by
        by_cases hcc : c' = c
        · simp [goto, hcc]
        · simpa [goto, hcc] using hothers c' hcc
      have hheld : Held (s.goto c .idle) := by
        refine ⟨fun c' h => ?_, h6.worker, fun c' i h => ?_⟩
        · rw [show (s.goto c .idle).stateGuard = none from h8] at h
          cases h
        · have hg := h6.client c' i h
          by_cases hcc : c' = c
          · rw [hcc, show s.client c = .unlockState from hend] at hg
            cases hg
          · rw [show s.client c' = .idle from hothers c' hcc] at hg
            cases hg
      refine ⟨⟨h1, h2, h3, h4, h5, hheld, h7.frame rfl .refl fun c' => ?_, h8⟩, hidle, hdoomed, ∅, ordered_parts n true,
        joins_parts n true, fun o ho => ?_, fun m hm => ?_⟩
      · by_cases hcc : c' = c
        · subst hcc
          refine Or.inr ⟨by rw [show s.client c' = .unlockState from hend]; rfl, ?_, ?_⟩
          · rw [hidle c']
            trivial
          · rw [hidle c']
            rfl
        · exact Or.inl (by simp [goto, hcc])
      · exact absurd ho (Set.notMem_empty o)
      · rw [show destroyed = [] from hnone] at hm
        exact absurd hm List.not_mem_nil
    · cases hs
  | destroy ps =>
    obtain ⟨hdying, hidle, hdoomed, joined, hord, hleft, hover, hdestroyed⟩ := hd
    cases ps with
    | nil => cases hs
    | cons p ps =>
      cases p with
      | join o =>
        simp only [nextStep] at hs
        split at hs <;> cases hs
        rename_i ho
        refine ⟨hdying, hidle, hdoomed, insert o joined, hord, fun o' => ?_, fun o' ho' => ?_, fun m hm o' hu =>
          Set.mem_insert_of_mem o (hdestroyed m hm o' hu)⟩
        · rcases hleft o' with hin | hin
          · exact Or.inl (Set.mem_insert_of_mem o hin)
          · rcases List.mem_cons.mp hin with heq | hin
            · cases heq
              exact Or.inl (Set.mem_insert _ _)
            · exact Or.inr hin
        rcases Set.mem_insert_iff.mp ho' with rfl | ho'
        · exact ho
        · exact hover o' ho'
      | destroy m =>
        cases hs
        refine ⟨hdying, hidle, hdoomed, joined, hord.2, fun o => (hleft o).imp_right fun h => ?_, hover,
          fun m' hm' o hu => ?_⟩
        · exact (List.mem_cons.mp h).resolve_left (by simp)
        rcases List.mem_append.mp hm' with hm' | hm'
        · exact hdestroyed m' hm' o hu
        · rw [List.mem_singleton.mp hm'] at hu
          exact hord.1 o hu

theorem Reachable.sound (h : (system n Cl isEndTask).Reachable Proper d) : Sound isEndTask d := by
  have hinit : Sound isEndTask (system n Cl isEndTask).init := ⟨.init, rfl⟩
  refine h.induct hinit fun d a d' _ hok hs hi => ?_
  cases a with
  | pool a =>
    simp only [system, step] at hs
    split at hs
    · obtain ⟨s', hs', rfl⟩ := Option.map_eq_some_iff.mp hs
      exact hi.pool ‹_› hs'
    · cases hs
  | dtor c => exact hi.dtor hok hs
  | next => exact hi.next hs

/-! ## Safety -/

/-- **No thread uses a member that was destroyed.** -/
theorem destructor_safe (h : (system n Cl isEndTask).Reachable Proper d) :
    (∀ i, ∀ m ∈ (d.pool.threads i).pc.uses i, m ∉ d.destroyed) ∧
    ∀ tm, d.pool.timer = some tm → ∀ m ∈ tm.pc.uses, m ∉ d.destroyed := by
  have hd := Reachable.sound h
  obtain ⟨s, dtor, destroyed⟩ := d
  have hempty : destroyed = [] → (∀ i, ∀ m ∈ (s.threads i).pc.uses i, m ∉ destroyed) ∧
      ∀ tm, s.timer = some tm → ∀ m ∈ tm.pc.uses, m ∉ destroyed := by
    rintro rfl
    exact ⟨fun i m _ => List.not_mem_nil, fun tm _ m _ => List.not_mem_nil⟩
  cases dtor with
  | alive => exact hempty hd.2
  | stopAsync c => exact hempty hd.2.1
  | stopTimer c => exact hempty hd.2.1
  | destroy ps =>
    obtain ⟨-, -, -, joined, -, -, hover, hdestroyed⟩ := hd
    refine ⟨fun i m hm hmem => ?_, fun tm htm m hm hmem => ?_⟩
    · obtain ⟨hused, hruns⟩ := uses_worker hm
      have hterm : (s.threads i).pc.isTerminated = true := hover _ (hdestroyed m hmem _ hused)
      rw [show (s.threads i).pc.isTerminated = false from hruns] at hterm
      cases hterm
    · obtain ⟨hused, hruns⟩ := uses_timer hm
      exact hruns (isOver_none.mp (hover _ (hdestroyed m hmem _ hused)) tm htm)

/-- A client adds a task and a timer task and destroys the pool; the members of the timer are gone, and the worker has
not made a step. -/
def teardown : List (Action 1 Unit Unit) :=
  List.replicate 3 (.pool .construct) ++
    [.pool (.call () (.addTask (some ())))] ++ List.replicate 2 (.pool (.client () ⟨.ret, 0, 0⟩)) ++
    [.pool (.call () (.addTimerTask (some ()) 1))] ++ List.replicate 6 (.pool (.client () ⟨.ret, 0, 0⟩)) ++
    [.dtor ()] ++ List.replicate 6 (.pool (.client () ⟨.ret, 0, 0⟩)) ++
    [.next] ++ List.replicate 4 (.pool (.client () ⟨.ret, 0, 0⟩)) ++ List.replicate 3 (.pool (.timer ⟨.ret, 0, 0⟩)) ++
    [.pool (.client () ⟨.ret, 0, 0⟩)] ++ List.replicate 12 .next

theorem destructor_safe_teardown : ∃ d : Destruction 1 Unit Unit, .timerQueue ∈ d.destroyed ∧
    ∃ m : Member 1, m ∈ (d.pool.threads 0).pc.uses 0 ∧ m ∉ d.destroyed := by
  obtain ⟨d, hr, hd⟩ := System.reachable_of_exec (system 1 Unit fun _ : Unit => false) Proper teardown
    (fun d => decide (.timerQueue ∈ d.destroyed) &&
      decide ((.threadState (some 0) : Member 1) ∈ (d.pool.threads 0).pc.uses 0)) (by decide +kernel)
  simp only [Bool.and_eq_true, decide_eq_true_eq] at hd
  exact ⟨d, hd.1, _, hd.2, (destructor_safe hr).1 0 _ hd.2⟩

/-! ## Progress -/

/-- The destructor has returned. -/
def HasReturned (d : Destruction n Cl T) : Prop := d.dtor = .destroy []

variable {ok : FixedThreadPool n Cl T → FixedThreadPool.Action n Cl T → Prop}

/-- Some thread can make a step that the user's code allows, or the destructor goes on. -/
def CanMove (isEndTask : T → Bool) (ok : FixedThreadPool n Cl T → FixedThreadPool.Action n Cl T → Prop)
    (d : Destruction n Cl T) : Prop :=
  (∃ a d', a.isProgress = true ∧ ok d.pool a ∧ d.step isEndTask (.pool a) = some d') ∨ ∃ d', d.nextStep = some d'

/-- A pool in which only what the destructor forbids can go on is stuck. -/
theorem stuck_of_not_canMove (hok : Unhindered ok) (hi : Waits d.pool) (hctor : d.pool.ctor = .done)
    (hlet : ∀ a, a.isProgress = true → d.lets a = true) (h : ¬ CanMove isEndTask ok d) : Stuck d.pool := by
  have hpool : ¬ FixedThreadPool.CanMove isEndTask ok d.pool → Stuck d.pool :=
    FixedThreadPool.stuck_of_not_canMove hok hi hctor
  refine hpool ?_
  rintro ⟨a, s', ha, hoka, hs⟩
  have hs : d.pool.step isEndTask a = some s' := hs
  refine h (Or.inl ⟨a, { d with pool := s' }, ha, hoka, ?_⟩)
  simp only [step, hlet a ha, if_true, hs, Option.map_some]

/-- **The destructor never hangs**: when the user's code returns, until the destructor has returned it can go on, or
some thread can make a step. -/
theorem destructor_returns (hok : Unhindered ok) (h : (system n Cl isEndTask).Reachable Proper d)
    (hrun : d.dtor ≠ .alive) (hret : ¬ d.HasReturned) : CanMove isEndTask ok d := by
  have hd := Reachable.sound h
  by_contra hmove
  have hnext : ∀ d', d.nextStep ≠ some d' := fun d' hs => hmove (Or.inr ⟨d', hs⟩)
  obtain ⟨s, dtor, destroyed⟩ := d
  cases dtor with
  | alive => exact hrun rfl
  | stopAsync c =>
    obtain ⟨hr, -, hctor, -, hc⟩ := hd
    have hi := Reachable.waits hr
    have hstuck : Stuck s := stuck_of_not_canMove hok hi hctor (fun a ha => by
      cases a with
      | call => cases ha
      | _ => rfl) hmove
    rcases hc with hc | ⟨hidle, -⟩
    · have hclient := hstuck.client c
      have hclears := hstuck.clears hi c
      unfold ClientStuck at hclient
      cases hpc : s.client c with
      | compareAndSet | timerStarted | timerCancelAsync | pushEndTask => rw [hpc] at hclient; exact hclient
      | timerClear k => rw [hpc] at hclears; cases hclears
      | _ => rw [show s.client c = _ from hpc] at hc; cases hc
    · have hidle : s.client c = .idle := hidle
      cases htm : s.timer with
      | none => exact hnext _ (by simp only [nextStep, hidle, htm]; rfl)
      | some tm => exact hnext _ (by simp only [nextStep, hidle, htm]; rfl)
  | stopTimer c =>
    obtain ⟨hdying, -, -, hothers, hc⟩ := hd
    rcases hc with hc | ⟨hend, -⟩
    · have hstuck : Stuck s := stuck_of_not_canMove hok hdying.waits hdying.constructed (fun a ha => by
        cases a with
        | call => cases ha
        | client c' i =>
          by_cases hcc : c' = c
          · subst hcc
            cases hpc : s.client c' with
            | unlockState => rw [show s.client c' = _ from hpc] at hc; cases hc
            | _ => simp [lets, hpc]
          · have hidle : s.client c' = .idle := hothers c' hcc
            simp [lets, hidle]
        | _ => rfl) hmove
      have hclient := hstuck.client c
      have hclears := hstuck.clears hdying.waits c
      unfold ClientStuck at hclient
      cases hpc : s.client c with
      | stopTimerAsync | cancelTimer | waitTimer => rw [hpc] at hclient; exact hclient
      | clearTimer k => rw [hpc] at hclears; cases hclears
      | blockedTimer k => exact hstuck.not_blockedTimer hdying.waits c k hpc
      | _ => rw [show s.client c = _ from hpc] at hc; cases hc
    · have hend : s.client c = .unlockState := hend
      exact hnext _ (by simp only [nextStep, hend]; rfl)
  | destroy ps =>
    obtain ⟨hdying, hidle, hdoomed, -⟩ := hd
    have hstuck : Stuck s := stuck_of_not_canMove hok hdying.waits hdying.constructed (fun a ha => by
      cases a with
      | call => cases ha
      | client c i => simp only [lets]
      | _ => rfl) hmove
    have hover := hdying.over_of_stuck hidle hdoomed hstuck
    cases ps with
    | nil => exact hret rfl
    | cons p ps =>
      cases p with
      | join o => exact hnext _ (by simp only [nextStep, hover o]; rfl)
      | destroy m => exact hnext _ rfl

theorem destructor_returns_teardown : ∃ d : Destruction 1 Unit Unit, .timerQueue ∈ d.destroyed ∧
    CanMove (fun _ => false) Anything d := by
  obtain ⟨d, hr, hd⟩ := System.reachable_of_exec (system 1 Unit fun _ : Unit => false) Proper teardown
    (fun d => decide (.timerQueue ∈ d.destroyed) && decide (d.dtor ≠ .alive) && decide (d.dtor ≠ .destroy []))
    (by decide +kernel)
  simp only [Bool.and_eq_true, decide_eq_true_eq] at hd
  exact ⟨d, hd.1.1, destructor_returns unhindered_anything hr hd.1.2 hd.2⟩

/-! ## What has been run -/

/-- When the destructor has returned every thread has ended. -/
theorem HasReturned.isOver (hret : d.HasReturned) (h : (system n Cl isEndTask).Reachable Proper d) (o : Owner n) :
    Dying isEndTask d.pool ∧ d.pool.isOver o = true := by
  have hd := Reachable.sound h
  obtain ⟨s, dtor, destroyed⟩ := d
  obtain rfl : dtor = .destroy [] := hret
  obtain ⟨hdying, -, -, joined, -, hleft, hover, -⟩ := hd
  exact ⟨hdying, hover o ((hleft o).resolve_right List.not_mem_nil)⟩

/-- Nothing the destructor does asks a worker to cancel or lets an exception out. -/
theorem Reachable.calm (h : (system n Cl isEndTask).Reachable Calm d) : Contained d.pool ∧ NeverNow d.pool := by
  refine h.induct (I := fun d => Contained d.pool ∧ NeverNow d.pool) ⟨.new, .new⟩ fun d a d' _ hok hs hi => ?_
  have move : ∀ {c : Cl} {pc : ClientPC T}, pc.stopper ≠ some .now →
      Contained (d.pool.goto c pc) ∧ NeverNow (d.pool.goto c pc) := by
    intro c pc hpc
    refine ⟨hi.1, fun c' => ?_, hi.2.2⟩
    by_cases hcc : c' = c
    · simpa [goto, hcc] using hpc
    · simpa [goto, hcc] using hi.2.1 c'
  cases a with
  | pool a =>
    have hcalm := hok.2 a rfl
    simp only [system, step] at hs
    split at hs
    · obtain ⟨s', hs', rfl⟩ := Option.map_eq_some_iff.mp hs
      have hstep : PoolStep isEndTask d.pool a s' := step_cases hs'
      refine ⟨hi.1.step (calm_exits hcalm) hstep, hi.2.step (fun c => ?_) hstep⟩
      rintro rfl
      cases hcalm
    · cases hs
  | dtor c =>
    simp only [system, step] at hs
    split at hs
    · obtain ⟨s', hs', rfl⟩ := Option.map_eq_some_iff.mp hs
      have hstep : PoolStep isEndTask d.pool (.call c .stopAsync) s' := step_cases hs'
      exact ⟨hi.1.step rfl hstep, hi.2.step (by simp) hstep⟩
    · cases hs
  | next =>
    obtain ⟨s, dtor, destroyed⟩ := d
    simp only [system, step, nextStep] at hs
    split at hs
    · cases hs
    · split at hs
      · split at hs <;> cases hs
        · exact move (by simp [ClientPC.stopper])
        · exact hi
      · cases hs
    · split at hs <;> cases hs
      exact move (by simp [ClientPC.stopper])
    · cases hs
    · split at hs <;> cases hs
      exact hi
    · cases hs
      exact hi

/-- **The destructor loses nothing that was pushed before its `EndTask`s**: when it has returned, every task pushed
before the first `EndTask` was passed to `Run` once, by one worker, and that `Run` has ended. -/
theorem destructor_runs (h : (system n Cl isEndTask).Reachable Calm d) (h0 : 0 < n) (hret : d.HasReturned) :
    (∀ o, d.pool.isOver o = true) ∧ ∀ j, d.pool.BeforeEnd isEndTask j →
      ∃ w, d.pool.runs.count (w, .start j) = 1 ∧ d.pool.runs.count (w, .stop j) = 1 ∧
        ∀ w' ≠ w, (w', .start j) ∉ d.pool.runs ∧ (w', .stop j) ∉ d.pool.runs := by
  have hproper : (system n Cl isEndTask).Reachable Proper d := h.mono fun _ _ hok => hok.1
  obtain ⟨hcontained, -, hflag⟩ := Reachable.calm h
  refine ⟨fun o => (hret.isOver hproper o).2, fun j hj => ?_⟩
  have hdying := (hret.isOver hproper none).1
  refine hdying.view.served.run_once (fun i => ?_) h0 hj
  have hterm : (d.pool.threads i).pc.isTerminated = true := (hret.isOver hproper (some i)).2
  cases hpc : (d.pool.threads i).pc with
  | terminated why =>
    have hview : d.pool.view.worker i = .left why .terminated := congrArg WorkerThread.PC.view hpc
    have hnot : ¬ (why = .cancelled ∨ ∃ k, why = .dropped k) := by
      intro hw
      have := hdying.view.flagged i why _ hview hw
      rw [show d.pool.view.isRequestCancel i = false from hflag i] at this
      cases this
    cases why with
    | endTask k => exact ⟨k, _, hview⟩
    | cancelled => exact absurd (Or.inl rfl) hnot
    | dropped k => exact absurd (Or.inr ⟨k, rfl⟩) hnot
    | escaped k => exact absurd (by rw [hpc]; rfl) ((hcontained i).2 k)
  | _ => rw [hpc] at hterm; cases hterm

instance (d : Destruction 1 Unit Unit) (a : Action 1 Unit Unit) : Decidable (Calm d a) :=
  decidable_of_iff (Proper d a ∧ (match a with | .pool a' => d.pool.calm a' | _ => true) = true) (by
    cases a <;> simp [Calm])

/-- The worker runs the task and ends, and the destructor returns. -/
theorem destructor_runs_teardown : ∃ d : Destruction 1 Unit Unit, d.pool.BeforeEnd (fun _ => false) 0 ∧
    ∃ w, d.pool.runs.count (w, .start 0) = 1 ∧ d.pool.runs.count (w, .stop 0) = 1 := by
  obtain ⟨d, hr, hd⟩ := System.reachable_of_exec (system 1 Unit fun _ : Unit => false) Calm
    (teardown ++ List.replicate 23 (.pool (.worker 0 .ret)) ++ List.replicate 17 .next)
    (fun d : Destruction 1 Unit Unit => decide (d.pool.taskQueue.pushes[0]? = some (Item.task ())) &&
      decide (d.dtor = .destroy []))
    (by decide +kernel)
  simp only [Bool.and_eq_true, decide_eq_true_eq] at hd
  obtain ⟨hpush, hret⟩ := hd
  have hbefore : d.pool.BeforeEnd (fun _ => false) 0 := fun l hl => ⟨(), by
    obtain rfl : l = 0 := by omega
    exact ⟨hpush, rfl⟩⟩
  obtain ⟨w, h1, h2, -⟩ := (destructor_runs hr Nat.one_pos hret).2 0 hbefore
  exact ⟨d, hbefore, w, h1, h2⟩

end Destruction

end Tpool
