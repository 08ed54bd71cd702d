import Mathlib.Data.Fintype.Option
import Tpool.Pool.Tasks
import Tpool.Task.Overlap

/-!
# The state of a task that the timer pushes again and again

- `runners`: where the workers, and the timer thread, are in the `Run` of a task.
- `Separate`: nobody checks for a cancel of the task while another `Run` of it is between its check and its last write.
- `step_runners`: a step of the pool is a step of one such `Run`, or none of them moves except at its ends.
- `truthful`: in the runs whose steps are separate, the task is in no `DoRun` while its state says that it has stopped,
  and once cancelled it stays cancelled.
-/

namespace Tpool

open Concurrency TaskBase

/-- Where a worker is in the `Run` of `t`. -/
def WorkerThread.PC.runs {T : Type*} [DecidableEq T] (t : T) : WorkerThread.PC T → Option RunPC
  | .run _ u p => if u = t then some p else none
  | _ => none

namespace FixedThreadPool

variable {n : Nat} {Cl T : Type*} [DecidableEq T] {isEndTask : T → Bool}

/-- Where the timer thread is in the `Run` of `t` that `ThreadPoolTimerTask::DoRun` calls. -/
def timerRuns (s : FixedThreadPool n Cl T) (t : T) : Option RunPC := s.timer.bind fun tm => match tm.pc with
  | .doRun id (.run p) => (s.timerTasks[id]?).bind fun task => if task.task = t then some p else none
  | _ => none

/-- Who may be in the `Run` of a task: a worker, or the timer thread (`none`). -/
abbrev Runner (n : Nat) := Option (Fin n)

def runners (s : FixedThreadPool n Cl T) (t : T) : Runners (Runner n) Cl where
  task := s.task t
  pc
    | some i => (s.threads i).pc.runs t
    | none => s.timerRuns t

/-- Who makes the step. -/
def Action.runner : Action n Cl T → Option (Runner n)
  | .worker i _ => some (some i)
  | .timer _ => some none
  | _ => none

/-- Nobody checks for a cancel of `t` while another `Run` of it is between its check and its last write. -/
def Separate (t : T) (s : FixedThreadPool n Cl T) (a : Action n Cl T) : Prop :=
  ∀ r, a.runner = some r → (s.runners t).Separate r

/-- Some thread is in the `DoRun` of `t`. -/
def InDoRun (s : FixedThreadPool n Cl T) (t : T) : Prop := ∃ r, (s.runners t).pc r = some .doRun

/-! ## A step, seen from the runs of one task -/

section Steps

variable {s s' : FixedThreadPool n Cl T} {t : T}

/-- The timer thread never gets to be active in the `Run` of a task. -/
theorem TimerSound.inactive (hs : TimerSound s) (p : RunPC) (h : s.timerRuns t = some p) : p.active = false := by
  obtain ⟨tm, htm, h⟩ := Option.bind_eq_some_iff.mp h
  cases hpc : tm.pc with
  | doRun id d =>
    cases d with
    | run q =>
      simp only [hpc] at h
      obtain ⟨task, -, h⟩ := Option.bind_eq_some_iff.mp h
      split at h
      · cases h
        obtain ⟨⟨h1, h2, h3⟩, -⟩ := hs tm id p htm hpc
        cases p <;> simp_all [RunPC.active]
      · cases h
    | _ => simp [hpc] at h
  | _ => simp [hpc] at h

/-- The timer thread is in no `Run`, unless it is at its beginning. -/
theorem timerRuns_of_ne {tm : Timer Cl ThreadPoolTimerTask.PC} (htm : s.timer = some tm)
    (h : ∀ id p, tm.pc = .doRun id (.run p) → p = .checkCancellation) {p : RunPC} (hp : s.timerRuns t = some p) :
    p = .checkCancellation := by
  simp only [timerRuns, htm, Option.bind_some] at hp
  cases hpc : tm.pc with
  | doRun id d =>
    cases d with
    | run q =>
      simp only [hpc] at hp
      obtain ⟨task, -, hp⟩ := Option.bind_eq_some_iff.mp hp
      split at hp
      · cases hp; exact h id p hpc
      · cases hp
    | _ => simp [hpc] at hp
  | _ => simp [hpc] at hp

/-- The timer thread stays where it is, and the timer tasks stay with what they work on. -/
theorem timerRuns_frame (hs : TimerSound s) (hk : Timer.SameTasks s.timerTasks s'.timerTasks)
    (htm : ∀ tm', s'.timer = some tm' → tm'.pc = .setRunning ∨ ∃ tm, s.timer = some tm ∧ tm'.pc = tm.pc) :
    s'.timerRuns t = s.timerRuns t ∨ ∀ p, s'.timerRuns t = some p → p = .checkCancellation := by
  cases htm' : s'.timer with
  | none => exact Or.inr fun p hp => by simp [timerRuns, htm'] at hp
  | some tm' =>
    rcases htm tm' htm' with hpc | ⟨tm, h, hpc⟩
    · exact Or.inr fun p hp => timerRuns_of_ne htm' (by simp [hpc]) hp
    · left
      simp only [timerRuns, htm', h, Option.bind_some, hpc]
      cases hd : tm.pc with
      | doRun id d =>
        cases d with
        | run p =>
          obtain ⟨-, task, ht, -⟩ := hs tm id p h hd
          obtain ⟨task', ht', heq⟩ := hk id task ht
          simp only [ht, ht', Option.bind_some, heq]
        | _ => rfl
      | _ => rfl

/-- No `Run` moves except at its ends. -/
theorem runners_frame (hs : TimerSound s) (hk : Keeps s s') (hstate : (s'.task t).state = (s.task t).state)
    (hw : ∀ i, (s'.threads i).pc.runs t = (s.threads i).pc.runs t ∨
      (∀ p, (s.threads i).pc.runs t = some p → p.active = false) ∧
        ∀ p, (s'.threads i).pc.runs t = some p → p = .checkCancellation)
    (htm : s'.timerRuns t = s.timerRuns t ∨ ∀ p, s'.timerRuns t = some p → p = .checkCancellation) :
    (s.runners t).Frame (s'.runners t) := by
  refine ⟨hstate, hk.isRequestCancel t, fun r => ?_⟩
  cases r with
  | some i => exact hw i
  | none => exact htm.imp_right fun h => ⟨hs.inactive, h⟩

/-- A step of a worker is one of a `Run` of `t`, or the worker comes to such a `Run` or leaves it. -/
theorem WorkerStep.runs {i : Fin n} {e : Exit} (h : WorkerStep isEndTask i e s s') :
    (∃ p b p', (s.threads i).pc.runs t = some p ∧ (s.task t).run p e = some (b, p') ∧
      (s'.threads i).pc.runs t = some p' ∧ s'.task = Function.update s.task t b) ∨
    s'.task t = s.task t ∧ ((s'.threads i).pc.runs t = (s.threads i).pc.runs t ∨
      (∀ p, (s.threads i).pc.runs t = some p → p.active = false) ∧
        ∀ p, (s'.threads i).pc.runs t = some p → p = .checkCancellation) := by
  cases h with
  | count hpc | notLast hpc | last hpc =>
    right
    refine ⟨rfl, Or.inl ?_⟩
    simp [setThread, WorkerThread.goto, hpc, WorkerThread.PC.runs]
  | @thread w h =>
    rw [setWorld_threads_self]
    -- between two points outside `Run`
    have hout : ∀ {pc}, (s.threads i).pc = pc → pc.runs t = none → w.worker.pc.runs t = none →
        w.worker.pc.runs t = (s.threads i).pc.runs t := by
      intro pc hpc hn hn'
      rw [hpc, hn, hn']
    cases h with
    | @run k u p b p' hpc hr =>
      have hpc : (s.threads i).pc = .run k u p := hpc
      by_cases hut : u = t
      · subst hut
        exact Or.inl
          ⟨p, b, p', by simp [hpc, WorkerThread.PC.runs], hr, by simp [WorkerThread.goto, WorkerThread.PC.runs],
          rfl⟩
      · right
        have htask : (s.setWorld i ⟨(s.world i).worker.goto (.run k u p'), (s.world i).queue,
            Function.update (s.world i).task u b, (s.world i).runs, WorkerThread.note s.returned u p e⟩).task t =
            s.task t :=
          Function.update_of_ne (fun h => hut h.symm) _ _
        refine ⟨htask, Or.inl ?_⟩
        simp [hpc, WorkerThread.goto, WorkerThread.PC.runs, hut]
    | @start k u hpc =>
      have hpc : (s.threads i).pc = .dispatch k := hpc
      refine Or.inr ⟨rfl, Or.inr ⟨by simp [hpc, WorkerThread.PC.runs], fun p hp => ?_⟩⟩
      simp only [WorkerThread.goto, WorkerThread.PC.runs] at hp
      split at hp
      · cases hp; rfl
      · cases hp
    | @stop k u hpc | @escape k u hpc =>
      have hpc : (s.threads i).pc = .run k u _ := hpc
      refine Or.inr ⟨rfl, Or.inr ⟨fun p hp => ?_, by simp [WorkerThread.goto, WorkerThread.PC.runs]⟩⟩
      simp only [hpc, WorkerThread.PC.runs] at hp
      split at hp
      · cases hp; rfl
      · cases hp
    | setRunning hpc | enter hpc | check hpc | lock hpc | unlock hpc => exact Or.inr ⟨rfl, Or.inl (hout hpc rfl rfl)⟩
    | recheck hpc | dropped hpc | null hpc | ended hpc | notifyFinished hpc =>
      exact Or.inr ⟨rfl, Or.inl (hout hpc rfl rfl)⟩
    | cancelled hpc | block _ hpc =>
      rcases hpc with hpc | hpc
      · exact Or.inr ⟨rfl, Or.inl (hout hpc rfl rfl)⟩
      · exact Or.inr ⟨rfl, Or.inl (hout hpc rfl rfl)⟩
    | pop hpc =>
      rcases hpc with hpc | ⟨hpc, -⟩
      · exact Or.inr ⟨rfl, Or.inl (hout hpc rfl rfl)⟩
      · exact Or.inr ⟨rfl, Or.inl (hout hpc rfl rfl)⟩

/-- A step of the timer thread is one of its `Run` of `t`, or it is not in such a `Run` unless it was, or begins. -/
theorem TimerStep.runs (h : TimerStep s s') :
    (∃ p e b p', s.timerRuns t = some p ∧ (s.task t).run p e = some (b, p') ∧ s'.timerRuns t = some p' ∧
      s'.task = Function.update s.task t b) ∨
    s'.task t = s.task t ∧ ∀ p, s'.timerRuns t = some p → p = .checkCancellation := by
  cases h with
  | @own tm i w htm hw =>
    refine Or.inr ⟨rfl, fun p hp => timerRuns_of_ne rfl (fun id q hq => ?_) hp⟩
    have := hw.doRun hq
    cases this
  | @move tm id task d d' htm hpc ht hm =>
    refine Or.inr ⟨rfl, fun p hp => timerRuns_of_ne rfl (fun id' q hq => ?_) hp⟩
    simp only [Timer.goto, Timer.PC.doRun.injEq] at hq
    obtain ⟨-, rfl⟩ := hq
    cases hm
    rfl
  | @run tm id task p e b p' htm hpc ht hr =>
    by_cases htt : task.task = t
    · subst htt
      refine Or.inl ⟨p, e, b, p', ?_, hr, ?_, rfl⟩
      · simp [timerRuns, htm, hpc, ht]
      · simp [timerRuns, setTimer, setTask, Timer.goto, ht]
    · right
      refine ⟨by simp [setTimer, setTask, Function.update_of_ne fun h => htt h.symm], fun q hq => ?_⟩
      simp [timerRuns, setTimer, setTask, Timer.goto, ht, htt] at hq
  | caught | cancelAsync | leave | push =>
    exact Or.inr ⟨rfl, fun p hp => timerRuns_of_ne rfl (by simp [Timer.goto]) hp⟩

variable [DecidableEq Cl]

/-- A client changes no state of a task. -/
theorem ClientStep.task_state {c : Cl} (h : ClientStep c s s') : (s'.task t).state = (s.task t).state := by
  have hset : ∀ {u : T} {b : TaskBase Cl}, b.state = (s.task u).state →
      (Function.update s.task u b t).state = (s.task t).state := by
    intro u b hb
    by_cases hut : t = u
    · subst hut; rw [Function.update_self, hb]
    · rw [Function.update_of_ne hut]
  cases h with
  | @cancelRunningTask j u => exact hset (u := u) (b := { s.task u with isRequestCancel := true }) rfl
  | cancelTask _ hc => exact hset (cancel_keeps hc).1
  | _ => rfl

theorem wakeStep_task_state (w : Wake n Cl T) : ((s.wakeStep w).task t).state = (s.task t).state := by
  cases w with
  | task u c =>
    by_cases hut : t = u
    · subst hut; simp [wakeStep, setTask]
    · simp [wakeStep, setTask, hut]
  | _ => rfl

/-- **A step of the pool, seen from the runs of one task.** -/
theorem step_runners {a : Action n Cl T} (hb : Built s) (hs : TimerSound s) (h : PoolStep isEndTask s a s') :
    (∃ r p e b p', a.runner = some r ∧ (s.runners t).pc r = some p ∧ (s.task t).run p e = some (b, p') ∧
      s'.runners t = (s.runners t).goto r b p') ∨ (s.runners t).Frame (s'.runners t) := by
  have hstay : Keeps s s' → (s'.task t).state = (s.task t).state → (∀ i, (s'.threads i).pc = (s.threads i).pc) →
      (∀ tm', s'.timer = some tm' → tm'.pc = .setRunning ∨ ∃ tm, s.timer = some tm ∧ tm'.pc = tm.pc) →
      (s.runners t).Frame (s'.runners t) := fun hk hstate hw htm =>
    runners_frame hs hk hstate (fun i => Or.inl (by rw [hw i])) (timerRuns_frame hs hk.timerTasks htm)
  cases h with
  | @start k hk hc =>
    right
    refine runners_frame hs (.of_eq rfl .refl) rfl (fun i => Or.inl ?_) (Or.inl rfl)
    by_cases hik : i = ⟨k, hk⟩
    · subst hik
      have habs : (s.threads ⟨k, hk⟩).pc = .absent := (hb ⟨k, hk⟩).mpr ⟨k, le_rfl, hc⟩
      simp [habs, WorkerThread.PC.runs]
    · simp [hik]
  | started hc hk => exact Or.inr (hstay (.of_eq rfl .refl) rfl (fun _ => rfl) fun tm h => Or.inr ⟨tm, h, rfl⟩)
  | constructed hc => exact Or.inr (hstay (.of_eq rfl .refl) rfl (fun _ => rfl) fun tm h => Or.inr ⟨tm, h, rfl⟩)
  | call hc hidle => exact Or.inr (hstay (.of_eq rfl .refl) rfl (fun _ => rfl) fun tm h => Or.inr ⟨tm, h, rfl⟩)
  | client hidle h => exact Or.inr (hstay h.keeps h.task_state (fun i => (h.frame.threads i).1) fun tm => h.timer)
  | @worker i e s' h =>
    have hothers : ∀ j, j ≠ i → (s'.threads j).pc.runs t = (s.threads j).pc.runs t := fun j hj => by rw [h.others j hj]
    have htimer : s'.timerRuns t = s.timerRuns t := by
      obtain ⟨-, -, htm, hts, -⟩ := h.rest
      rw [timerRuns, timerRuns, htm, hts]
    rcases h.runs (t := t) with ⟨p, b, p', hp, hr, hp', htask⟩ | ⟨htask, hw⟩
    · refine Or.inl ⟨some i, p, e, b, p', rfl, hp, hr, ?_⟩
      have hpc : (s'.runners t).pc = Function.update (s.runners t).pc (some i) (some p') := by
        funext r
        cases r with
        | none => simpa [runners] using htimer
        | some j =>
          by_cases hji : j = i
          · subst hji; simpa [runners] using hp'
          · simpa [runners, hji] using hothers j hji
      have hb : (s'.runners t).task = b := by simp [runners, htask]
      exact congrArg₂ Runners.mk hb hpc
    · refine Or.inr (runners_frame hs h.keeps (by rw [htask]) (fun j => ?_) (Or.inl htimer))
      by_cases hji : j = i
      · subst hji; exact hw
      · exact Or.inl (hothers j hji)
  | @timer i s' _ h =>
    have hw : ∀ j, (s'.threads j).pc.runs t = (s.threads j).pc.runs t := fun j => by rw [(h.frame.threads j).1]
    rcases h.runs (t := t) with ⟨p, e, b, p', hp, hr, hp', htask⟩ | ⟨htask, htm⟩
    · refine Or.inl ⟨none, p, e, b, p', rfl, hp, hr, ?_⟩
      have hpc : (s'.runners t).pc = Function.update (s.runners t).pc none (some p') := by
        funext r
        cases r with
        | none => simpa [runners] using hp'
        | some j => simpa [runners] using hw j
      have hb : (s'.runners t).task = b := by simp [runners, htask]
      exact congrArg₂ Runners.mk hb hpc
    · exact Or.inr (runners_frame hs h.keeps (by rw [htask]) (fun j => Or.inl (hw j)) (Or.inr htm))
  | wake w =>
    refine Or.inr (hstay (wakeStep_keeps w) (wakeStep_task_state w) (fun i => ((wakeStep_frame w).threads i).1) ?_)
    intro tm' htm'
    right
    cases w with
    | timer | timerThread c =>
      obtain ⟨tm, htm, rfl⟩ := Option.map_eq_some_iff.mp htm'
      exact ⟨tm, htm, rfl⟩
    | _ => exact ⟨tm', htm', rfl⟩

end Steps

/-! ## The runs of the pool -/

section Runs

variable [DecidableEq Cl] {s s' : FixedThreadPool n Cl T} {t : T}

theorem Reachable.stateIsTrue (h : (system n Cl isEndTask).Reachable (Separate t) s) : Truthful (s.runners t) := by
  refine h.induct (I := fun s => Truthful (s.runners t)) ?_ ?_
  · have hnone : ∀ r, ((system n Cl isEndTask).init.runners t).pc r = none := by
      intro r
      cases r <;> rfl
    constructor
    · intro r r' p p' hp
      rw [hnone] at hp; cases hp
    · intro r hr
      simp [hnone] at hr
    · rintro (hc | ⟨r, hr⟩)
      · cases hc
      · rw [hnone] at hr; cases hr
  · intro s a s' hr hok hs hi
    rcases step_runners (t := t) (Reachable.built hr) (Reachable.timerSound hr) (step_cases hs) with
      ⟨r, p, e, b, p', ha, hp, hrun, heq⟩ | hf
    · rw [heq]
      exact hi.run hp (hok r ha) hrun
    · exact hi.frame hf

/-- **The state of a task is truthful.** In the runs whose steps are separate for `t`, no thread is in the `DoRun` of
`t` while the state of `t` is `FINISHED` or `CANCELLED`, and once `CANCELLED` it stays so. -/
theorem truthful (h : (system n Cl isEndTask).Reachable (Separate t) s) :
    ((s.task t).isStopState = true → ¬ s.InDoRun t) ∧
    ∀ s', (system n Cl isEndTask).Reaches (Separate t) s s' → (s.task t).state = .cancelled →
      (s'.task t).state = .cancelled := by
  constructor
  · rintro hstop ⟨r, hr⟩
    have hrun : (s.task t).state = .running := (Reachable.stateIsTrue h).running r (Or.inl hr)
    simp [isStopState, hrun] at hstop
  · intro s' hs' hc
    have := hs'.keeps (I := fun s => (system n Cl isEndTask).Reachable (Separate t) s ∧ (s.task t).state = .cancelled)
      ?_ ⟨h, hc⟩
    · exact this.2
    · rintro s a s' hok hs ⟨hr, hc⟩
      refine ⟨hr.step hok hs, ?_⟩
      rcases step_runners (t := t) (Reachable.built hr) (Reachable.timerSound hr) (step_cases hs) with
        ⟨r, p, e, b, p', -, hp, hrun, heq⟩ | hf
      · have hb : s'.task t = b := congrArg Runners.task heq
        rw [hb]
        exact (Reachable.stateIsTrue hr).run_keeps hp hrun hc
      · exact hf.state.trans hc

end Runs

/-! ## An interval task and its workers -/

section Evaluated

variable [DecidableEq Cl]

instance (s : FixedThreadPool n Cl T) (t : T) (r : Runner n) : Decidable ((s.runners t).Separate r) :=
  inferInstanceAs (Decidable ((s.runners t).pc r = some .checkCancellation →
    ∀ r', r' ≠ r → ∀ p ∈ (s.runners t).pc r', p.active = false))

instance (s : FixedThreadPool n Cl T) (t : T) (a : Action n Cl T) : Decidable (Separate t s a) :=
  inferInstanceAs (Decidable (∀ r ∈ a.runner, (s.runners t).Separate r))

end Evaluated

/-- The constructor, `AddIntervalTask` with a period of 1 ms and a run at once, and the timer thread up to its first
push. -/
def firstPush (n : Nat) : List (Action n Unit Unit) :=
  List.replicate (n + 2) .construct ++ [.call () (.addIntervalTask (some ()) 1 true)] ++
    List.replicate 7 (.client () ⟨.ret, 1, 0⟩) ++ List.replicate 15 (.timer ⟨.ret, 1, 0⟩)

/-- An interval task that a worker has run once. -/
theorem truthful_run : ∃ s : FixedThreadPool 1 Unit Unit, (s.task ()).state = .finished ∧ ¬ s.InDoRun () := by
  obtain ⟨s, hs, hp⟩ := System.reachable_of_exec (system 1 Unit fun _ : Unit => false) (Separate ())
    (firstPush 1 ++ List.replicate 13 (.worker 0 .ret)) (fun s => (s.task ()).state == .finished) (by decide)
  have hfin : (s.task ()).state = .finished := by simpa using hp
  exact ⟨s, hfin, (truthful hs).1 (by rw [isStopState, hfin]; rfl)⟩

/-- **The state of an interval task is not truthful.** The timer pushes the task again while a worker is in its `DoRun`,
a second worker takes it, and the first writes `FINISHED` while the second is in `DoRun`. -/
theorem finished_in_doRun : ∃ s, (system 2 Unit fun _ : Unit => false).Reachable Anything s ∧
    (s.task ()).state = .finished ∧ s.InDoRun () := by
  obtain ⟨s, hs, hp⟩ := System.reachable_of_exec (system 2 Unit fun _ : Unit => false) Anything
    (firstPush 2 ++ List.replicate 10 (.worker 0 .ret) ++ List.replicate 16 (.timer ⟨.ret, 3, 0⟩) ++
      List.replicate 10 (.worker 1 .ret) ++ List.replicate 2 (.worker 0 .ret))
    (fun s => (s.task ()).state == .finished && (s.runners ()).pc (some 1) == some .doRun) (by decide)
  simp only [Bool.and_eq_true, beq_iff_eq] at hp
  exact ⟨s, hs, hp.1, some 1, hp.2⟩

end FixedThreadPool

end Tpool
