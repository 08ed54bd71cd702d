import Mathlib.Data.Finset.Image
import Tpool.Pool.Fair
import Tpool.Pool.Interval
import Tpool.Task.Cancellers

/-!
# The pool, seen from one task

- `seen`: what the workers, the timer thread and the clients of the pool do with one task, as threads that run and
  cancel that task and do nothing else. `CancelNow` of a worker that runs the task is a `CancelAsync` of it.
- `Hop`: what one of them does with the task in one step of the pool, which is a step of that system, two, or none
  (`Hop.leads`).
- `SeenStep`: in a step of the pool one thread hops, or nobody moves (`PoolStep.seen`).
- `refines`: so a run of the pool is, seen from any of its tasks, a run of threads that share this task, and what holds
  of every run of those holds of the pool.
-/

namespace Tpool

open Concurrency

namespace TaskBase

variable {Tid Tid' : Type*}

/-- The task when those who wait go by other names. -/
def rename (f : Tid ↪ Tid') (b : TaskBase Tid) : TaskBase Tid' := ⟨b.state, b.isRequestCancel, b.waiters.map f⟩

variable {f : Tid ↪ Tid'} {b b' : TaskBase Tid}

theorem run_rename {p p' : RunPC} {e : Exit} (h : b.run p e = some (b', p')) :
    (b.rename f).run p e = some (b'.rename f, p') := by
  cases p with
  | checkCancellation | setRunning | setFinished | setCancelled => cases h; rfl
  | doRun =>
    cases e with
    | ret | other => cases h; rfl
    | cancel =>
      simp only [run] at h ⊢
      split at h <;> cases h
      exact if_pos ‹_›
  | onCancel => cases e <;> cases h <;> rfl
  | notify =>
    cases h
    cases hf : b.isRequestCancel <;> simp [run, rename, hf]
  | ret | raised => cases h

variable [DecidableEq Tid] [DecidableEq Tid']

theorem awaitStop_rename (b : TaskBase Tid) (t : Tid) :
    (b.rename f).awaitStop (f t) = ((b.awaitStop t).1.rename f, (b.awaitStop t).2) := by
  unfold awaitStop
  by_cases hstop : b.isStopState = true
  · rw [if_pos hstop]
    exact if_pos hstop
  · rw [if_neg hstop]
    refine (if_neg hstop).trans ?_
    simp [rename, Finset.map_insert]

theorem cancel_rename {async : Bool} {t : Tid} {p p' : CancelPC} {e : Exit}
    (h : b.cancel async t p e = some (b', p')) : (b.rename f).cancel async (f t) p e = some (b'.rename f, p') := by
  cases p with
  | setFlag => cases h; rfl
  | onCallCancel => cases e <;> cases h <;> rfl
  | wait =>
    have heq : b.awaitStop t = (b', p') := Option.some.inj h
    simp only [cancel, awaitStop_rename, heq]
  | blocked =>
    simp only [cancel] at h ⊢
    split at h
    · cases h
    · rename_i hnot
      have heq : b.awaitStop t = (b', p') := Option.some.inj h
      rw [if_neg (by simpa [rename] using hnot), awaitStop_rename, heq]
  | ret | raised => cases h

/-! ## What a thread does with the task -/

section Hop

/-- What the thread `t` of a larger program does with the task in one step: it begins or ends a call, takes a step of
it, does both at once, or nothing. -/
inductive Hop (t : Tid) (e : Exit) (b : TaskBase Tid) : TaskBase Tid → PC → PC → Prop
  | stay : Hop t e b b .idle .idle
  | call (m : Call) : Hop t e b b .idle m.start
  | run {b' p p'} : b.run p e = some (b', p') → Hop t e b b' (.run p) (.run p')
  | leave {p} : p = .ret ∨ p = .raised → Hop t e b b (.run p) .idle
  -- what leaves OnCancel leaves Run, and what has called it
  | escape : e = .cancel → Hop t e b b (.run .onCancel) .idle
  | cancel {async e' b' p p'} :
      b.cancel async t p e' = some (b', p') → Hop t e b b' (.cancel async p) (.cancel async p')
  | returned {async p} : p = .ret ∨ p = .raised → Hop t e b b (.cancel async p) .idle
  -- CancelAsync up to OnCallCancel, and from there
  | request : Hop t e b { b with isRequestCancel := true } .idle (.cancel true .onCallCancel)
  | requested : Hop t e b b (.cancel true .onCallCancel) .idle

variable {ok : Threads Tid → Action Tid → Prop} {x : Threads Tid} {t : Tid} {c c' : TaskBase Tid} {p q : PC} {e : Exit}

/-- Steps of the threads take `t` to `p`, leave the task in `c`, and move nobody else. -/
def Leads (ok : Threads Tid → Action Tid → Prop) (x : Threads Tid) (t : Tid) (c : TaskBase Tid) (p : PC) : Prop :=
  ∃ x', (system Tid).Reaches ok x x' ∧ x'.task = c ∧ x'.pc = Function.update x.pc t p

theorem Leads.refl : Leads ok x t x.task (x.pc t) := ⟨x, .refl, rfl, (Function.update_eq_self ..).symm⟩

theorem Leads.of_step {a : Action Tid} (hok : ok x a) {y : Threads Tid} (h : step x a = some y) (hc : y.task = c)
    (hpc : y.pc = Function.update x.pc t p) : Leads ok x t c p :=
  ⟨y, .single ⟨a, hok, h⟩, hc, hpc⟩

/-- One step after another. -/
theorem Leads.trans (h : Leads ok x t c p) (h' : ∀ x', x'.task = c → x'.pc t = p → Leads ok x' t c' q) :
    Leads ok x t c' q := by
  obtain ⟨x', hreach, hc, hpc⟩ := h
  obtain ⟨x'', hreach', hc', hpc'⟩ := h' x' hc (by rw [hpc, Function.update_self])
  exact ⟨x'', hreach.trans hreach', hc', by rw [hpc', hpc, Function.update_idem]⟩

theorem leads_run {r r' : RunPC} (ht : x.pc t = .run r) (hr : x.task.run r e = some (c, r')) (hok : ok x (.step t e)) :
    Leads ok x t c (.run r') := by
  refine .of_step hok (y := x.goto t c (.run r')) ?_ rfl rfl
  cases r with
  | ret | raised => cases hr
  | _ => simp only [step, ht, hr, Option.map_some]

theorem leads_cancel {async : Bool} {r r' : CancelPC} (ht : x.pc t = .cancel async r)
    (hr : x.task.cancel async t r e = some (c, r')) (hok : ok x (.step t e)) : Leads ok x t c (.cancel async r') := by
  refine .of_step hok (y := x.goto t c (.cancel async r')) ?_ rfl rfl
  cases r with
  | ret | raised => cases hr
  | _ => simp only [step, ht, hr, Option.map_some]

/-- The end of a call. -/
theorem leads_idle (ht : x.pc t = .run .ret ∨ x.pc t = .run .raised ∨ (∃ async, x.pc t = .cancel async .raised) ∨
    ∃ async, x.pc t = .cancel async .ret) (hok : ok x (.step t e)) : Leads ok x t x.task .idle := by
  rcases ht with ht | ht | ⟨async, ht⟩ | ⟨async, ht⟩
  · exact .of_step hok (y := x.goto t x.task .idle) (by simp only [step, ht]) rfl rfl
  · exact .of_step hok (y := x.goto t x.task .idle) (by simp only [step, ht]) rfl rfl
  · exact .of_step hok (y := x.goto t x.task .idle) (by simp only [step, ht]) rfl rfl
  · exact .of_step hok (y := { x.goto t x.task .idle with cancelReturned := x.cancelReturned || !async })
      (by simp only [step, ht]) rfl rfl

/-- **What a thread does in one step of the program** is none, one or two steps with the task. -/
theorem Hop.leads (h : Hop t e x.task c (x.pc t) p) (htame : ∀ x a, Tame x a → ok x a)
    (hesc : (x.pc t).escapes e = true → ok x (.step t e)) : Leads ok x t c p := by
  have hok : ∀ {x : Threads Tid} {e : Exit}, (x.pc t).escapes e = false → ok x (.step t e) := fun h => htame _ _ h
  generalize hpc : x.pc t = q at h
  cases h with
  | stay => exact hpc ▸ .refl
  | call m => exact .of_step (htame x (.call t m) trivial) (y := x.goto t x.task m.start) (by simp [step, hpc]) rfl rfl
  | run hr =>
    refine leads_run hpc hr ?_
    cases hesc' : (x.pc t).escapes e with
    | false => exact hok hesc'
    | true => exact hesc hesc'
  | leave hp =>
    refine leads_idle (by rcases hp with rfl | rfl <;> simp [hpc]) (hok (e := .ret) ?_)
    rcases hp with rfl | rfl <;> rw [hpc] <;> rfl
  | escape he =>
    subst he
    have hraised : Leads ok x t x.task (.run .raised) := leads_run hpc rfl (hesc (by rw [hpc]; rfl))
    refine hraised.trans fun x' hc hpc' => ?_
    exact hc ▸ leads_idle (Or.inr (Or.inl hpc')) (hok (e := .ret) (by rw [hpc']; rfl))
  | cancel hr => exact leads_cancel hpc hr (hok (by rw [hpc]; rfl))
  | returned hp => exact leads_idle (by rcases hp with rfl | rfl <;> simp [hpc]) (hok (e := .ret) (by rw [hpc]; rfl))
  | request =>
    have hcall : Leads ok x t x.task (.cancel true .setFlag) := .of_step (htame x (.call t .cancelAsync) trivial)
      (y := x.goto t x.task (.cancel true .setFlag)) (by simp [step, hpc, Call.start]) rfl rfl
    refine hcall.trans fun x' hc hpc' => ?_
    exact hc ▸ leads_cancel (e := .ret) hpc' rfl (hok (by rw [hpc']; rfl))
  | requested =>
    have hret : Leads ok x t x.task (.cancel true .ret) := leads_cancel (e := .ret) hpc rfl (hok (by rw [hpc]; rfl))
    refine hret.trans fun x' hc hpc' => ?_
    exact hc ▸ leads_idle (Or.inr (Or.inr (Or.inr ⟨true, hpc'⟩))) (hok (e := .ret) (by rw [hpc']; rfl))

end Hop

end TaskBase

namespace FixedThreadPool

open TaskBase

variable {n : Nat} {Cl T : Type*} [DecidableEq T] {isEndTask : T → Bool}

/-! ## What the pool shows -/

/-- What a client does with the task. Whoever is in the `OnCallCancel` of `CancelNow` has asked what the worker runs. -/
def clientDoes (s : FixedThreadPool n Cl T) (t : T) : ClientPC T → PC
  | .cancelTask u async p => if u = t then .cancel async p else .idle
  | .onCallCancel j =>
    if h : j < n then if (s.threads ⟨j, h⟩).runningTask = some (.task t) then .cancel true .onCallCancel else .idle
    else .idle
  | _ => .idle

/-- What each thread does with the task. -/
def does (s : FixedThreadPool n Cl T) (t : T) : Party n Cl → PC
  | .worker i => ((s.threads i).pc.runs t).elim .idle .run
  | .timer => (s.timerRuns t).elim .idle .run
  | .client c => s.clientDoes t (s.client c)

/-- The clients among the threads. -/
def Party.clients (n : Nat) (Cl : Type*) : Cl ↪ Party n Cl := ⟨.client, fun _ _ h => by cases h; rfl⟩

/-- The task, and what the threads do with it. -/
def seen (s : FixedThreadPool n Cl T) (t : T) (cancelReturned : Bool) : Threads (Party n Cl) :=
  ⟨(s.task t).rename (Party.clients n Cl), s.does t, cancelReturned⟩

variable {s s' : FixedThreadPool n Cl T} {t : T} {i : Fin n} {e : Exit}

/-! ## The workers -/

section Worker

variable [DecidableEq Cl]

/-- What a worker does with the task. -/
theorem WorkerStep.hop (h : WorkerStep isEndTask i e s s') (t : T) : Hop (.worker i : Party n Cl) e
    ((s.task t).rename (Party.clients n Cl)) ((s'.task t).rename (Party.clients n Cl)) (s.does t (.worker i))
    (s'.does t (.worker i)) := by
  have stay : s'.task t = s.task t → (s.threads i).pc.runs t = none → (s'.threads i).pc.runs t = none →
      Hop (.worker i : Party n Cl) e ((s.task t).rename (Party.clients n Cl))
        ((s'.task t).rename (Party.clients n Cl)) (s.does t (.worker i)) (s'.does t (.worker i)) := by
    intro h1 h2 h3
    simp only [does, h1, h2, h3]
    exact .stay
  cases h with
  | count hpc | notLast hpc | last hpc =>
    exact stay rfl (by rw [hpc]; rfl) (by simp [setThread, WorkerThread.goto, WorkerThread.PC.runs])
  | @thread w h =>
    simp only [does, setWorld_threads_self]
    have out : ∀ {pc}, (s.threads i).pc = pc → pc.runs t = none → w.worker.pc.runs t = none → w.task = s.task →
        Hop (.worker i : Party n Cl) e ((s.task t).rename (Party.clients n Cl))
          (((s.setWorld i w).task t).rename (Party.clients n Cl)) (((s.threads i).pc.runs t).elim .idle .run)
          ((w.worker.pc.runs t).elim .idle .run) := by
      rintro pc rfl h2 h3 h4
      rw [h2, h3, show (s.setWorld i w).task = s.task from h4]
      exact .stay
    cases h with
    | @run k u p b p' hpc hr =>
      have hpc : (s.threads i).pc = .run k u p := hpc
      simp only [hpc, WorkerThread.goto, WorkerThread.PC.runs, setWorld]
      by_cases hut : u = t
      · subst hut
        rw [if_pos rfl, if_pos rfl, Function.update_self]
        exact .run (run_rename hr)
      · rw [if_neg hut, if_neg hut, Function.update_of_ne (fun h => hut h.symm)]
        exact .stay
    | @start k u hpc =>
      have hpc : (s.threads i).pc = .dispatch k := hpc
      simp only [hpc, WorkerThread.goto, WorkerThread.PC.runs]
      by_cases hut : u = t
      · rw [if_pos hut]
        exact .call .run
      · rw [if_neg hut]
        exact .stay
    | @stop k u hpc | @escape k u hpc =>
      have hpc : (s.threads i).pc = .run k u _ := hpc
      simp only [hpc, WorkerThread.goto, WorkerThread.PC.runs]
      by_cases hut : u = t
      · rw [if_pos hut]
        exact .leave (by simp)
      · rw [if_neg hut]
        exact .stay
    | setRunning hpc | enter hpc | check hpc | lock hpc | unlock hpc => exact out hpc rfl rfl rfl
    | recheck hpc | dropped hpc | null hpc | ended hpc | notifyFinished hpc => exact out hpc rfl rfl rfl
    | cancelled hpc | block _ hpc =>
      rcases hpc with hpc | hpc
      · exact out hpc rfl rfl rfl
      · exact out hpc rfl rfl rfl
    | pop hpc =>
      rcases hpc with hpc | ⟨hpc, -⟩
      · exact out hpc rfl rfl rfl
      · exact out hpc rfl rfl rfl

end Worker

/-! ## The timer thread -/

theorem timerRuns_none (t : T) (h : ∀ tm id p, s.timer = some tm → tm.pc ≠ .doRun id (.run p)) :
    s.timerRuns t = none := by
  cases hr : s.timerRuns t with
  | none => rfl
  | some p =>
    obtain ⟨tm, htm, hp⟩ := Option.bind_eq_some_iff.mp hr
    cases hpc : tm.pc with
    | doRun id d =>
      cases d with
      | run q => exact absurd hpc (h tm id q htm)
      | _ => simp [hpc] at hp
    | _ => simp [hpc] at hp

theorem timerRuns_of {tm : Timer Cl ThreadPoolTimerTask.PC} {id : Nat} {p : RunPC} {task : TimerTask Cl T}
    (htm : s.timer = some tm) (hpc : tm.pc = .doRun id (.run p)) (ht : s.timerTasks[id]? = some task) (t : T) :
    s.timerRuns t = if task.task = t then some p else none := by
  simp only [timerRuns, htm, Option.bind_some, hpc, ht]

variable [DecidableEq Cl]

/-- What the timer thread does with the task. -/
theorem timerStep_hop {input : Input} (hs : TimerSound s) (h : s.timerStep input = some s') (t : T) :
    Hop (.timer : Party n Cl) input.exit ((s.task t).rename (Party.clients n Cl))
      ((s'.task t).rename (Party.clients n Cl)) (s.does t .timer) (s'.does t .timer) := by
  by_cases hrun : ∃ tm id p, s.timer = some tm ∧ tm.pc = .doRun id (.run p)
  · obtain ⟨tm, id, p, htm, hpc⟩ := hrun
    obtain ⟨-, task, ht, -⟩ := hs tm id p htm hpc
    have hbefore := timerRuns_of htm hpc ht t
    simp only [timerStep, htm, hpc, ht] at h
    -- `Run` is left
    have left : ∀ {s'' : FixedThreadPool n Cl T} {tm'}, s''.timer = some tm' → (∀ id p, tm'.pc ≠ .doRun id (.run p)) →
        s''.task t = s.task t → p = .ret ∨ p = .raised ∨ p = .onCancel ∧ input.exit = .cancel →
        Hop (.timer : Party n Cl) input.exit ((s.task t).rename (Party.clients n Cl))
          ((s''.task t).rename (Party.clients n Cl)) (s.does t .timer) (s''.does t .timer) := by
      intro s'' tm' htm' hno htask hp
      have hafter : s''.timerRuns t = none := timerRuns_none t fun tm₁ id p h => by
        cases htm'.symm.trans h
        exact hno id p
      simp only [does, hbefore, hafter, htask]
      by_cases htt : task.task = t
      · rw [if_pos htt]
        rcases hp with rfl | rfl | ⟨rfl, he⟩
        · exact .leave (Or.inl rfl)
        · exact .leave (Or.inr rfl)
        · exact .escape he
      · rw [if_neg htt]
        exact .stay
    by_cases hret : p = .ret
    · subst hret
      cases h
      exact left rfl (by simp [Timer.goto]) rfl (Or.inl rfl)
    by_cases hraised : p = .raised
    · subst hraised
      obtain ⟨w, hw, rfl⟩ := Option.map_eq_some_iff.mp (by simpa only [doRunStep] using h)
      obtain ⟨b, p, -, rfl⟩ := leaveDoRun_cases ht hw
      exact left rfl (by simp [Timer.goto]) rfl (Or.inr (Or.inl rfl))
    have h : (if p = .onCancel ∧ input.exit = .cancel then some (s.setTimer (tm.goto (.run id .setCancelled)))
        else ((s.task task.task).run p input.exit).map fun r =>
          { (s.setTask task.task r.1).setTimer (tm.goto (.doRun id (.run r.2))) with
            returned := WorkerThread.note s.returned task.task p input.exit }) = some s' := by
      cases p <;> simp_all [doRunStep]
    by_cases hcaught : p = .onCancel ∧ input.exit = .cancel
    · rw [if_pos hcaught] at h
      cases h
      exact left rfl (by simp [Timer.goto]) rfl (Or.inr (Or.inr hcaught))
    · rw [if_neg hcaught] at h
      obtain ⟨⟨b, p'⟩, hr, rfl⟩ := Option.map_eq_some_iff.mp h
      have hafter : (FixedThreadPool.timerRuns { (s.setTask task.task b).setTimer (tm.goto (.doRun id (.run p'))) with
          returned := WorkerThread.note s.returned task.task p input.exit } t) =
          if task.task = t then some p' else none :=
        timerRuns_of (s := { (s.setTask task.task b).setTimer (tm.goto (.doRun id (.run p'))) with
          returned := WorkerThread.note s.returned task.task p input.exit }) rfl rfl ht t
      simp only [does, hbefore, hafter]
      by_cases htt : task.task = t
      · subst htt
        simp only [if_true, Option.elim_some, setTask, setTimer, Function.update_self]
        exact .run (run_rename hr)
      · simp only [if_neg htt, Option.elim_none, setTask, setTimer, Function.update_of_ne (fun h => htt h.symm)]
        exact .stay
  · have hbefore : s.timerRuns t = none := timerRuns_none t fun tm id p htm hpc => hrun ⟨tm, id, p, htm, hpc⟩
    rcases (timerStep_cases h).runs (t := t) with ⟨p, _, _, _, hp, -⟩ | ⟨htask, hafter⟩
    · rw [hbefore] at hp
      cases hp
    · simp only [does, hbefore, htask]
      cases hr : s'.timerRuns t with
      | none => exact .stay
      | some p =>
        obtain rfl := hafter p hr
        exact .call .run

/-- Nobody else moves it. -/
theorem PoolStep.timerRuns {a : Action n Cl T} (h : PoolStep isEndTask s a s') (hi : Waits s) (hs : TimerSound s)
    (hp : a.party ≠ some .timer) (hk : Timer.SameTasks s.timerTasks s'.timerTasks)
    (hnew : s.timer = none → ∀ tm', s'.timer = some tm' → tm'.pc = .setRunning) (t : T) :
    s'.timerRuns t = s.timerRuns t := by
  cases htm : s.timer with
  | none =>
    have hbefore : s.timerRuns t = none := timerRuns_none t fun tm id p h => by rw [htm] at h; cases h
    rw [hbefore]
    refine timerRuns_none t fun tm' id p htm' hpc => ?_
    rw [hnew htm tm' htm'] at hpc
    cases hpc
  | some tm =>
    obtain ⟨tm', htm', hpc, -⟩ := h.timer_pc hi htm
    have hpc := hpc.resolve_right hp
    by_cases hrun : ∃ id p, tm.pc = .doRun id (.run p)
    · obtain ⟨id, p, hrun⟩ := hrun
      obtain ⟨-, task, ht, -⟩ := hs tm id p htm hrun
      obtain ⟨task', ht', heq⟩ := hk id task ht
      rw [timerRuns_of htm hrun ht t, timerRuns_of htm' (hpc.trans hrun) ht' t, heq]
    · have hbefore : s.timerRuns t = none := timerRuns_none t fun tm₁ id p h hpc₁ => by
        cases htm.symm.trans h
        exact hrun ⟨id, p, hpc₁⟩
      rw [hbefore]
      refine timerRuns_none t fun tm₁ id p h hpc₁ => ?_
      cases htm'.symm.trans h
      exact hrun ⟨id, p, hpc.symm.trans hpc₁⟩

/-! ## The clients -/

section Client

variable {c : Cl}

/-- What a client does with the task. -/
theorem ClientStep.hop (h : ClientStep c s s') (e : Exit) (t : T) : Hop (.client c : Party n Cl) e
    ((s.task t).rename (Party.clients n Cl)) ((s'.task t).rename (Party.clients n Cl)) (s.does t (.client c))
    (s'.does t (.client c)) := by
  have out : ∀ {pc pc'}, s.client c = pc → s'.client c = pc' → s.clientDoes t pc = .idle → s'.clientDoes t pc' = .idle →
      s'.task t = s.task t → Hop (.client c : Party n Cl) e ((s.task t).rename (Party.clients n Cl))
        ((s'.task t).rename (Party.clients n Cl)) (s.does t (.client c)) (s'.does t (.client c)) := by
    rintro pc pc' rfl rfl h1 h2 h3
    simp only [does, h1, h2, h3]
    exact .stay
  cases h with
  | @silent pc pc' hc hs =>
    cases hs with
    | @onCallCancel j raised =>
      simp only [does, hc, goto, Function.update_self, clientDoes]
      split
      · split
        · exact .requested
        · exact .stay
      · exact .stay
    | @cancelReturned u async p hp =>
      simp only [does, hc, goto, Function.update_self, clientDoes]
      split
      · exact .returned hp
      · exact .stay
    | @lost k => cases k <;> exact out hc (Function.update_self ..) rfl rfl rfl
    | threadFinished _ hpc => rcases hpc with rfl | rfl <;> exact out hc (Function.update_self ..) rfl rfl rfl
    | timerFinished hpc => rcases hpc with rfl | rfl <;> exact out hc (Function.update_self ..) rfl rfl rfl
    | _ => exact out hc (Function.update_self ..) rfl rfl rfl
  | @cancelRunningTask j u hj hc hr =>
    simp only [does, hc, goto, setTask, Function.update_self, clientDoes, hj, hr, dif_pos]
    by_cases hut : u = t
    · subst hut
      rw [if_pos rfl, Function.update_self]
      exact .request
    · rw [if_neg (by simpa using hut), Function.update_of_ne (fun h => hut h.symm)]
      exact .stay
  | @cancelTask u async p e' b p' hc hb =>
    simp only [does, hc, goto, setTask, Function.update_self, clientDoes]
    by_cases hut : u = t
    · subst hut
      rw [if_pos rfl, if_pos rfl, Function.update_self]
      exact .cancel (cancel_rename hb)
    · rw [if_neg hut, if_neg hut, Function.update_of_ne (fun h => hut h.symm)]
      exact .stay
  | setDeadline hc _ hor => rcases hor with rfl | ⟨_, rfl⟩ <;> exact out hc (Function.update_self ..) rfl rfl rfl
  | @pushedAll k _ hc => cases k <;> exact out hc (Function.update_self ..) rfl rfl rfl
  | finished hor | join hor | waitThread _ hor | waitTimer _ hor =>
    rcases hor with hc | ⟨hc, -⟩ <;> exact out hc (Function.update_self ..) rfl rfl rfl
  | cancelThread _ hor | clearTimer _ _ hor =>
    rcases hor with ⟨hc, rfl⟩ | ⟨hc, rfl⟩ <;> exact out hc (Function.update_self ..) rfl rfl rfl
  | cancelTimer _ hor =>
    rcases hor with ⟨hc, rfl⟩ | ⟨hc, rfl⟩ | ⟨hc, rfl⟩ <;> exact out hc (Function.update_self ..) rfl rfl rfl
  | stopNowReturned hc hor => rcases hor with rfl | rfl | rfl <;> exact out hc (Function.update_self ..) rfl rfl rfl
  | @unlockRunningTask _ raised _ hc => cases raised <;> exact out hc (Function.update_self ..) rfl rfl rfl
  | push hc | makeTimer hc | setInterval hc | pushTask hc | win hc | pushEndTask hc | unlockState hc
  | lockRunningTask _ hc => exact out hc (Function.update_self ..) rfl rfl rfl

/-- Whoever holds the guard of a worker finds there what it found before. -/
theorem PoolStep.runningTask {a : Action n Cl T} (h : PoolStep isEndTask s a s') (hg : Guards s) (hq : Quiet s)
    (hc : (s.client c).guards i = true) : (s'.threads i).runningTask = (s.threads i).runningTask := by
  cases h with
  | @start k hk hctor =>
    have hidle := (hq (by simp [hctor])).1 c
    rw [hidle] at hc
    cases hc
  | started | constructed | call => rfl
  | client _ hs => exact (hs.frame.threads i).2.1
  | @worker j e s' hs =>
    by_cases hij : i = j
    · subst hij
      exact hs.runningTask (hg.not_popping hc)
    · rw [hs.others i hij]
  | timer _ hs => exact (hs.frame.threads i).2.1
  | wake w => exact ((wakeStep_frame w).threads i).2.1

omit [DecidableEq Cl] in
/-- A client that stays where it is goes on doing what it does. -/
theorem clientDoes_same {pc : ClientPC T} (h : ∀ i : Fin n, pc.guards i = true →
    (s'.threads i).runningTask = (s.threads i).runningTask) (t : T) : s'.clientDoes t pc = s.clientDoes t pc := by
  cases pc with
  | onCallCancel j =>
    simp only [clientDoes]
    split
    · rename_i hj
      rw [h ⟨j, hj⟩ (by simp [ClientPC.guards])]
    · rfl
  | _ => rfl

end Client

/-! ## The whole pool -/

section Whole

variable {a : Action n Cl T} {ok : FixedThreadPool n Cl T → Action n Cl T → Prop}
  {okTask : Threads (Party n Cl) → TaskBase.Action (Party n Cl) → Prop}

/-- Who makes the step, and how user code is left if the step leaves it. -/
def Action.leaves : Action n Cl T → Option (Party n Cl × Exit)
  | .worker i e => some (.worker i, e)
  | .timer i => some (.timer, i.exit)
  | _ => none

/-- Whoever does not move goes on doing with the task what it does. -/
theorem does_same (h : PoolStep isEndTask s a s') (hr : (system n Cl isEndTask).Reachable ok s) {q : Party n Cl}
    (hq : a.party ≠ some q) (hcall : ∀ c m, a = .call c m → q ≠ .client c) (t : T) : s'.does t q = s.does t q := by
  cases q with
  | worker i =>
    suffices hpc : (s'.threads i).pc.runs t = (s.threads i).pc.runs t by simp only [does, hpc]
    cases h with
    | @start k hk hctor =>
      by_cases hik : i = ⟨k, hk⟩
      · subst hik
        have habsent : (s.threads ⟨k, hk⟩).pc = .absent := (Reachable.built hr ⟨k, hk⟩).mpr ⟨k, le_rfl, hctor⟩
        simp [habsent, WorkerThread.PC.runs]
      · simp [hik]
    | started | constructed | call => rfl
    | client _ hs => rw [(hs.frame.threads i).1]
    | @worker j e s' hs => rw [hs.others i fun hij => hq (by rw [hij]; rfl)]
    | timer _ hs => rw [(hs.frame.threads i).1]
    | wake w => rw [((wakeStep_frame w).threads i).1]
  | timer =>
    have hruns := h.timerRuns (Reachable.waits hr) (Reachable.timerSound hr) hq h.keeps.timerTasks
        (fun hnone tm' htm' => by
      cases h with
      | start | started | constructed | call => cases hnone.symm.trans htm'
      | client _ hs =>
        rcases hs.timer htm' with hnew | ⟨tm, htm, -⟩
        · exact hnew
        · rw [hnone] at htm
          cases htm
      | worker hs => rw [hs.rest.2.2.1, hnone] at htm'; cases htm'
      | timer hsome => exact absurd hnone hsome
      | wake w =>
        have : (s.wakeStep w).timer = none := by cases w <;> simp [wakeStep, hnone, setThread, setTask]
        rw [this] at htm'
        cases htm') t
    simp only [does, hruns]
  | client d =>
    have hclient : s'.client d = s.client d := by
      cases h with
      | start | started | constructed => rfl
      | @call c m =>
        have hdc : d ≠ c := fun hdc => hcall c m rfl (by rw [hdc])
        simp [goto, hdc]
      | client _ hs => exact hs.others d fun hdc => hq (by rw [hdc]; rfl)
      | worker hs => rw [hs.rest.2.1]
      | timer _ hs => rw [hs.client]
      | wake w => cases w <;> rfl
    simp only [does, hclient]
    exact clientDoes_same (fun i hi => h.runningTask (Reachable.guards hr) (Reachable.quiet hr) hi) t

/-- What a step of the pool is, seen from one task: who makes it hops, or nobody moves. -/
inductive SeenStep (a : Action n Cl T) (t : T) (s s' : FixedThreadPool n Cl T) : Prop
  | hop {q : Party n Cl} {e : Exit} (party : ∀ u, a.party = some u → u = q)
      (leaves : (s.does t q).escapes e = true → a.leaves = some (q, e))
      (hop : Hop q e ((s.task t).rename (Party.clients n Cl)) ((s'.task t).rename (Party.clients n Cl)) (s.does t q)
        (s'.does t q)) (others : ∀ q' ≠ q, s'.does t q' = s.does t q')
  | still (party : a.party = none) (does : s'.does t = s.does t) (task : s'.task t = s.task t)
  | wake {c : Cl} (party : a.party = none) (does : s'.does t = s.does t) (waits : c ∈ (s.task t).waiters)
      (task : s'.task t = { s.task t with waiters := (s.task t).waiters.erase c })

theorem PoolStep.seen (h : PoolStep isEndTask s a s') (hr : (system n Cl isEndTask).Reachable ok s)
    (hs : (system n Cl isEndTask).step s a = some s') (t : T) : SeenStep a t s s' := by
  have others : ∀ {q}, a.party = some q → (∀ c m, a ≠ .call c m) → ∀ q' ≠ q, s'.does t q' = s.does t q' :=
    fun hq hcall q' hne => does_same h hr (by rw [hq]; simpa using hne.symm) (fun c m ha => absurd ha (hcall c m)) t
  have still : a.party = none → (∀ c m, a ≠ .call c m) → s'.does t = s.does t := fun hq hcall =>
    funext fun q => does_same h hr (by simp [hq]) (fun c m ha => absurd ha (hcall c m)) t
  cases h with
  | start | started | constructed => exact .still rfl (still rfl (by simp)) rfl
  | @call c m hctor hidle =>
    have hothers : ∀ q' ≠ .client c, (s.goto c m.start).does t q' = s.does t q' := fun q' hq =>
      does_same (.call hctor hidle) hr (by simp [Action.party]) (fun c' m' heq => by cases heq; exact hq) t
    refine .hop (e := .ret) (fun u hu => by cases hu) (by simp [does, hidle, clientDoes, PC.escapes]) ?_ hothers
    simp only [does, hidle, goto, Function.update_self, clientDoes]
    cases m with
    | cancel u | cancelAsync u =>
      simp only [Method.start]
      by_cases hut : u = t
      · rw [if_pos hut]
        first | exact .call .cancel | exact .call .cancelAsync
      · rw [if_neg hut]
        exact .stay
    | _ => exact .stay
  | @client c i s' hidle h' =>
    refine .hop (fun u hu => (Option.some.inj hu).symm) (fun hno => ?_) (h'.hop .ret t) (others rfl (by simp))
    simp only [does, clientDoes] at hno
    split at hno
    · split at hno <;> cases hno
    · split at hno
      · split at hno <;> cases hno
      · cases hno
    · cases hno
  | worker h' => exact .hop (fun u hu => (Option.some.inj hu).symm) (fun _ => rfl) (h'.hop t) (others rfl (by simp))
  | @timer i s' htm h' =>
    exact .hop (fun u hu => (Option.some.inj hu).symm) (fun _ => rfl) (timerStep_hop (Reachable.timerSound hr) hs t)
      (others rfl (by simp))
  | wake w =>
    have hdoes := still rfl (by simp)
    cases w with
    | task u c =>
      by_cases hut : u = t
      · subst hut
        by_cases hc : c ∈ (s.task u).waiters
        · exact .wake rfl hdoes hc (by simp [wakeStep, setTask])
        · exact .still rfl hdoes (by simp [wakeStep, setTask, Finset.erase_eq_of_notMem hc])
      · exact .still rfl hdoes (Function.update_of_ne (fun h => hut h.symm) ..)
    | _ => exact .still rfl hdoes rfl

/-- What one thread does with the task in a step. -/
theorem SeenStep.thread (h : SeenStep a t s s') (q : Party n Cl) : (s'.does t q = s.does t q ∧ a.party ≠ some q) ∨
    ∃ e, ((s.does t q).escapes e = true → a.leaves = some (q, e)) ∧
      Hop q e ((s.task t).rename (Party.clients n Cl)) ((s'.task t).rename (Party.clients n Cl)) (s.does t q)
        (s'.does t q) := by
  cases h with
  | @hop q' e hparty hleaves hop hothers =>
    by_cases hq : q = q'
    · subst hq
      exact Or.inr ⟨e, hleaves, hop⟩
    · exact Or.inl ⟨hothers q hq, fun h => hq (hparty q h)⟩
  | still hparty hdoes | wake hparty hdoes => exact Or.inl ⟨congrFun hdoes q, by simp [hparty]⟩

/-- **A step of the pool, seen from one task**, is steps of the threads that share it. -/
theorem SeenStep.reaches (h : SeenStep a t s s') (htame : ∀ x a, Tame x a → okTask x a) {r : Bool}
    (hesc : ∀ q e, a.leaves = some (q, e) → (s.does t q).escapes e = true → okTask (s.seen t r) (.step q e)) :
    ∃ r', (TaskBase.system (Party n Cl)).Reaches okTask (s.seen t r) (s'.seen t r') := by
  cases h with
  | @hop q e hparty hleaves hop hothers =>
    obtain ⟨x, hx, htask, hpc⟩ := Hop.leads (x := s.seen t r) hop htame fun h => hesc q e (hleaves h) h
    have hdoes : x.pc = s'.does t := by
      rw [hpc]
      funext q'
      by_cases hq : q' = q
      · subst hq
        rw [Function.update_self]
      · rw [Function.update_of_ne hq]
        exact (hothers q' hq).symm
    have heq : x = s'.seen t x.cancelReturned := by
      cases x
      simp only [seen, Threads.mk.injEq]
      exact ⟨htask, hdoes, trivial⟩
    exact ⟨x.cancelReturned, heq ▸ hx⟩
  | still _ hdoes htask =>
    refine ⟨r, ?_⟩
    simp only [seen, htask, hdoes]
    exact .refl
  | @wake c _ hdoes hc htask =>
    have hmem : Party.clients n Cl c ∈ (s.seen t r).task.waiters := Finset.mem_map_of_mem _ hc
    have hstep : TaskBase.step (s.seen t r) (.wake (Party.clients n Cl c)) = some (s'.seen t r) := by
      simp only [TaskBase.step, TaskBase.wake, if_pos hmem, Option.map_some, Option.some.injEq]
      simp only [seen, hdoes, htask, rename, Finset.map_erase]
    exact ⟨r, .single ⟨.wake _, htame _ (.wake _) trivial, hstep⟩⟩

/-- Before the constructor the threads have done nothing. -/
theorem new_seen (t : T) : (new n Cl T).seen t false = (TaskBase.system (Party n Cl)).init := by
  refine congrArg₂ (fun b p => (⟨b, p, false⟩ : Threads (Party n Cl))) rfl (funext fun q => ?_)
  cases q <;> rfl

/-- What the pool shows of a task in a run is reached by the threads that share it, when those may do what is done. -/
theorem Reachable.seen (hok : ∀ s a, ok s a → ∀ t r q e, a.leaves = some (q, e) → (s.does t q).escapes e = true →
      okTask (s.seen t r) (.step q e)) (htame : ∀ x a, Tame x a → okTask x a)
    (h : (system n Cl isEndTask).Reachable ok s) (t : T) :
    ∃ r, (TaskBase.system (Party n Cl)).Reachable okTask (s.seen t r) := by
  refine h.induct (I := fun s => ∃ r, (TaskBase.system (Party n Cl)).Reachable okTask (s.seen t r))
    ⟨false, ?_⟩ ?_
  · rw [show (system n Cl isEndTask).init = new n Cl T from rfl, new_seen]
    exact .init
  rintro s a s' hr ha hs ⟨r, hseen⟩
  obtain ⟨r', hreach⟩ := ((step_cases hs).seen hr hs t).reaches htame (r := r) fun q e => hok s a ha t r q e
  exact ⟨r', hseen.reaches hreach⟩

/-- **The pool refines the threads that share a task**, for each of its tasks: what a reachable state shows of the task
is reachable there, and what a step does to it, some steps do there. -/
theorem refines (h : (system n Cl isEndTask).Reachable Anything s) (t : T) :
    ∃ r, (TaskBase.system (Party n Cl)).Reachable Anything (s.seen t r) ∧
      ∀ a s', (system n Cl isEndTask).step s a = some s' →
        ∃ r', (TaskBase.system (Party n Cl)).Reaches Anything (s.seen t r) (s'.seen t r') := by
  obtain ⟨r, hr⟩ : ∃ r, (TaskBase.system (Party n Cl)).Reachable Anything (s.seen t r) :=
    Reachable.seen (fun _ _ _ _ _ _ _ _ _ => trivial) (fun _ _ _ => trivial) h t
  exact ⟨r, hr, fun a s' hs => ((step_cases hs).seen h hs t).reaches (fun _ _ _ => trivial) fun _ _ _ _ => trivial⟩

/-- A client adds a task, and waits in `Cancel` for its end while the worker runs it. -/
def cancelRun : List (Action 1 Unit Unit) := List.flatten [
  List.replicate 3 .construct,
  [.call () (.addTask (some ())), .client () ⟨.ret, 0, 0⟩, .client () ⟨.ret, 0, 0⟩],
  List.replicate 10 (.worker (Fin.last 0) .ret),
  .call () (.cancel ()) :: List.replicate 3 (.client () ⟨.ret, 0, 0⟩)]

theorem refines_cancelRun : ∃ s : FixedThreadPool 1 Unit Unit,
    (s.does () (.worker (Fin.last 0)) = .run .doRun ∧ s.does () (.client ()) = .cancel false .blocked) ∧
      ∃ r, (TaskBase.system (Party 1 Unit)).Reachable Anything (s.seen () r) ∧
        ∀ a s', (system 1 Unit fun _ : Unit => false).step s a = some s' →
          ∃ r', (TaskBase.system (Party 1 Unit)).Reaches Anything (s.seen () r) (s'.seen () r') := by
  obtain ⟨s, hs, hp⟩ := System.reachable_of_exec (system 1 Unit fun _ : Unit => false) Anything cancelRun
    (fun s => decide (s.does () (.worker (Fin.last 0)) = .run .doRun ∧ s.does () (.client ()) = .cancel false .blocked))
    (by decide)
  exact ⟨s, of_decide_eq_true hp, refines hs ()⟩

end Whole

end FixedThreadPool

end Tpool
