import Tpool.Pool.Failure

/-!
# What becomes of the accepted tasks

- `Handed`: a task for which a call returned it is among the pushes, or a timer task works on it.
- `Settled`: a task is finished or cancelled, or a worker is at it, or no worker has ever run it and it is where it
  began.
- `accepted_fate`: so when the pool was stopped every accepted task is finished or cancelled if a worker ever ran it,
  and if none did its occurrences are left in the queue or were dropped. `late_push`: one that is left.
-/

namespace Tpool

open Concurrency Tpool.Core

/-- The last state of the task is yet to be set. -/
def TaskBase.RunPC.unsettled : TaskBase.RunPC → Bool
  | .checkCancellation | .setRunning | .doRun | .setFinished | .setCancelled => true
  | _ => false

namespace FixedThreadPool

variable {n : Nat} {Cl T : Type*} {isEndTask : T → Bool} {s s' : FixedThreadPool n Cl T} {t : T}

/-! ## Where an accepted task is -/

/-- What was accepted was pushed, or handed to the timer. -/
def Handed (s : FixedThreadPool n Cl T) : Prop :=
  ∀ t ∈ s.accepted, (∃ k : Nat, s.taskQueue.pushes[k]? = some (.task t)) ∨
    ∃ (id : Nat) (task : TimerTask Cl T), s.timerTasks[id]? = some task ∧ task.task = t

theorem Handed.grow (hi : Handed s) (hp : s.taskQueue.pushes <+: s'.taskQueue.pushes) (hk : Keeps s s')
    (ha : ∀ t ∈ s'.accepted, t ∈ s.accepted ∨ (∃ k : Nat, s'.taskQueue.pushes[k]? = some (.task t)) ∨
      ∃ (id : Nat) (task : TimerTask Cl T), s'.timerTasks[id]? = some task ∧ task.task = t) : Handed s' := by
  intro t ht
  rcases ha t ht with hold | hnew
  · rcases hi t hold with ⟨k, hk⟩ | ⟨id, task, htask, rfl⟩
    · exact Or.inl ⟨k, getElem?_grow hp hk⟩
    · exact Or.inr ⟨id, hk.timerTasks id task htask⟩
  · exact hnew

variable [DecidableEq Cl] [DecidableEq T]

/-- A call that returns its task has pushed it, or handed it to the timer. -/
theorem ClientStep.accepted {c : Cl} (h : ClientStep c s s') : ∀ t ∈ s'.accepted, t ∈ s.accepted ∨
    (∃ k : Nat, s'.taskQueue.pushes[k]? = some (.task t)) ∨
      ∃ (id : Nat) (task : TimerTask Cl T), s'.timerTasks[id]? = some task ∧ task.task = t := by
  intro t ht
  cases h with
  | @push u hpc =>
    rcases List.mem_append.mp ht with ht | ht
    · exact Or.inl ht
    · obtain rfl := List.mem_singleton.mp ht
      exact Or.inr (Or.inl ⟨s.taskQueue.pushes.length, by simp [TaskQueue.push]⟩)
  | @pushTask id task tm hpc htask =>
    rcases List.mem_append.mp ht with ht | ht
    · exact Or.inl ht
    · obtain rfl := List.mem_singleton.mp ht
      exact Or.inr (Or.inr ⟨id, task, htask, rfl⟩)
  | _ => exact Or.inl ht

theorem Reachable.handed {ok : FixedThreadPool n Cl T → Action n Cl T → Prop}
    (h : (system n Cl isEndTask).Reachable ok s) : Handed s := by
  refine h.induct (fun _ h => by cases h) fun s a s' _ _ hs hi => ?_
  have same : ∀ {s'}, s.taskQueue.pushes <+: s'.taskQueue.pushes → Keeps s s' → s'.accepted = s.accepted → Handed s' :=
    fun hp hk ha => hi.grow hp hk fun t ht => Or.inl (ha ▸ ht)
  cases step_cases hs with
  | start | started | constructed | call => exact same List.prefix_rfl (.of_eq rfl .refl) rfl
  | client hidle hs => exact hi.grow hs.frame.pushes hs.keeps hs.accepted
  | worker hs =>
    obtain ⟨-, -, -, -, -, -, -, h1, -, -, h2⟩ := hs.rest
    exact same (by rw [h2]) hs.keeps h1
  | timer htm hs => exact same hs.frame.pushes hs.keeps (by cases hs <;> rfl)
  | wake w => exact same (wakeStep_frame w).pushes (wakeStep_keeps w) (by cases w <;> rfl)

/-! ## What its state says -/

/-- A worker is at `t` and has yet to set its last state. -/
def Settling (s : FixedThreadPool n Cl T) (t : T) : Prop :=
  ∃ i k p, (s.threads i).pc = .run k t p ∧ p.unsettled = true

/-- No worker has called `Run` of `t`. -/
def NeverRun (s : FixedThreadPool n Cl T) (t : T) : Prop :=
  ∀ i k, (i, Event.start k) ∈ s.runs → s.taskQueue.pushes[k]? ≠ some (.task t)

def Settled (s : FixedThreadPool n Cl T) (t : T) : Prop :=
  (s.task t).isStopState = true ∨ s.Settling t ∨ ((s.task t).state = .init ∧ s.NeverRun t)

section Settled

omit [DecidableEq Cl] [DecidableEq T]

theorem isStopState_of_state {b b' : TaskBase Cl} (h : b'.state = b.state) : b'.isStopState = b.isStopState := by
  simp only [TaskBase.isStopState, h]

/-- Pushes change nothing about what was run. -/
theorem NeverRun.frame (h : s.NeverRun t) (hserved : Served isEndTask s.view) (hruns : s'.runs = s.runs)
    (hp : s.taskQueue.pushes <+: s'.taskQueue.pushes) : s'.NeverRun t := by
  intro i k hk
  rw [hruns] at hk
  obtain ⟨u, hu, -⟩ := hserved.runs_of_mem hk
  have hu : s.taskQueue.pushes[k]? = some (.task u) := hu
  rw [getElem?_grow hp hu, ← hu]
  exact h i k hk

/-- What leaves the workers where they are, and the state of the task as it is or at its end. -/
theorem Settled.frame (h : s.Settled t) (hserved : Served isEndTask s.view) (hf : Frame s s') (hruns : s'.runs = s.runs)
    (hs : (s'.task t).state = (s.task t).state ∨ (s'.task t).isStopState = true) : s'.Settled t := by
  rcases hs with hs | hs
  · rcases h with h | ⟨i, k, p, hpc, hp⟩ | ⟨h1, h2⟩
    · exact Or.inl ((isStopState_of_state hs).trans h)
    · exact Or.inr (Or.inl ⟨i, k, p, (hf.threads i).1.trans hpc, hp⟩)
    · exact Or.inr (Or.inr ⟨hs.trans h1, h2.frame hserved hruns hf.pushes⟩)
  · exact Or.inl hs

/-- A worker that is not at `t`, or has set its last state. -/
theorem Settled.worker (h : s.Settled t) {i : Fin n} (hothers : ∀ j ≠ i, s'.threads j = s.threads j)
    (hi : ∀ k p, (s.threads i).pc = .run k t p → p.unsettled = false) (hs : (s'.task t).state = (s.task t).state)
    (hn : s.NeverRun t → s'.NeverRun t) : s'.Settled t := by
  rcases h with h | ⟨j, k, p, hpc, hp⟩ | ⟨h1, h2⟩
  · exact Or.inl ((isStopState_of_state hs).trans h)
  · have hji : j ≠ i := by
      rintro rfl
      rw [hi k p hpc] at hp
      cases hp
    exact Or.inr (Or.inl ⟨j, k, p, by rw [hothers j hji, hpc], hp⟩)
  · exact Or.inr (Or.inr ⟨hs.trans h1, hn h2⟩)

end Settled

omit [DecidableEq Cl] in
/-- A step of a `Run` of `t`: it stays on its way to the last state, or sets it, or has set it. -/
theorem Settled.run {i : Fin n} {k : Nat} {p p' : TaskBase.RunPC} {e : Exit} {b : TaskBase Cl} (h : s.Settled t)
    (hpc : (s.threads i).pc = .run k t p) (hr : (s.task t).run p e = some (b, p')) (hraised : p' ≠ .raised) :
    (s.setWorld i ⟨(s.threads i).goto (.run k t p'), s.taskQueue, Function.update s.task t b, s.runs,
      WorkerThread.note s.returned t p e⟩).Settled t := by
  generalize hs' : s.setWorld i _ = s'
  have hnew : s'.task t = b := by rw [← hs']; exact Function.update_self ..
  have hat : (s'.threads i).pc = .run k t p' := by rw [← hs', setWorld_threads_self]; rfl
  have hothers : ∀ j ≠ i, s'.threads j = s.threads j := fun j hj => by rw [← hs', setWorld_threads_of_ne _ hj]
  have hnever : s.NeverRun t → s'.NeverRun t := by rw [← hs']; exact id
  have early : p'.unsettled = true → s'.Settled t := fun hp' => Or.inr (Or.inl ⟨i, k, p', hat, hp'⟩)
  have atEnd : b.isStopState = true → s'.Settled t := fun hb => Or.inl (by rw [hnew, hb])
  have late : p.unsettled = false → b.state = (s.task t).state → s'.Settled t := by
    intro hp hb
    refine h.worker hothers (fun l q hq => ?_) (by rw [hnew, hb]) hnever
    rw [hpc] at hq
    cases hq
    exact hp
  rcases TaskBase.run_cases hr with ⟨-, -, rfl⟩ | ⟨-, rfl, -⟩ | ⟨-, rfl, -⟩ | ⟨rfl, rfl, -⟩ |
    ⟨rfl, ⟨-, rfl⟩ | ⟨-, rfl | ⟨rfl, -⟩ | rfl⟩ | ⟨rfl, -⟩⟩
  · exact early rfl
  · exact atEnd rfl
  · exact atEnd rfl
  · exact late rfl rfl
  · exact early (by split <;> rfl)
  · exact early rfl
  · exact early rfl
  · exact absurd rfl hraised
  · exact late rfl rfl

omit [DecidableEq Cl] in
/-- A step of a worker, when no exception leaves a `Run`. -/
theorem WorkerStep.settled {i : Fin n} {e : Exit} (h : WorkerStep isEndTask i e s s') (hi : s.Settled t)
    (hshape : Shape isEndTask s) (hcont : Contained s') : s'.Settled t := by
  have hothers := h.others
  have hheld := (hshape i).holds
  cases h with
  | count hpc | notLast hpc | last hpc =>
    exact hi.worker hothers (fun k p h => by rw [hpc] at h; cases h) rfl id
  | thread h =>
    have away : ∀ {w : WorkerThread.World Cl T (Fin n)}, (∀ j ≠ i, (s.setWorld i w).threads j = s.threads j) →
        (∀ k u p, (s.threads i).pc ≠ .run k u p) → w.task = s.task → w.runs = s.runs →
        w.queue.pushes = s.taskQueue.pushes → (s.setWorld i w).Settled t := by
      intro w ho hpc ht hr hq
      refine hi.worker ho (fun k p h => absurd h (hpc k t p)) (congrArg (fun f => (f t).state) ht) fun hn => ?_
      intro j k hk
      rw [show (s.setWorld i w).runs = s.runs from hr] at hk
      rw [show (s.setWorld i w).taskQueue.pushes = s.taskQueue.pushes from hq]
      exact hn j k hk
    cases h with
    | setRunning hpc | enter hpc | check hpc | lock hpc | unlock hpc | recheck hpc | dropped hpc | null hpc | ended hpc
    | notifyFinished hpc =>
      exact away hothers (fun k u p h => by cases hpc.symm.trans h) rfl rfl rfl
    | cancelled hpc =>
      exact away hothers (fun k u p h => by rcases hpc with hpc | hpc <;> cases hpc.symm.trans h) rfl rfl rfl
    | pop hpc hpop =>
      refine away hothers (fun k u p h => ?_) rfl rfl (TaskQueue.pop_spec hpop).2.2.1
      rcases hpc with hpc | ⟨hpc, -⟩ <;> cases hpc.symm.trans h
    | block he hpc =>
      exact away hothers (fun k u p h => by rcases hpc with hpc | hpc <;> cases hpc.symm.trans h) rfl rfl rfl
    | escape hpc =>
      refine hi.worker hothers (fun k p h => ?_) rfl id
      cases hpc.symm.trans h
      rfl
    | @stop k u hpc =>
      refine hi.worker hothers (fun k p h => ?_) rfl fun hn j l hl => ?_
      · cases hpc.symm.trans h
        rfl
      · rcases List.mem_append.mp hl with hl | hl
        · exact hn j l hl
        · simp at hl
    | @start k u hpc hrun he =>
      by_cases hu : u = t
      · subst hu
        exact Or.inr (Or.inl ⟨i, k, .checkCancellation, by simp [WorkerThread.goto], rfl⟩)
      · refine hi.worker hothers (fun l p h => by cases hpc.symm.trans h) rfl fun hn j l hl => ?_
        rcases List.mem_append.mp hl with hl | hl
        · exact hn j l hl
        · -- the item that is run now is another task
          obtain ⟨-, rfl⟩ : j = i ∧ l = k := by simpa using hl
          rw [show (s.threads i).pc = .dispatch l from hpc] at hheld
          obtain ⟨item, h1, h2⟩ := hheld
          rw [show (s.threads i).runningTask = _ from hrun] at h1
          cases h1
          intro h3
          rw [show (s.setWorld i _).taskQueue.pushes = s.taskQueue.pushes from rfl, h2] at h3
          cases h3
          exact hu rfl
    | @run k u p b p' hpc hr =>
      by_cases hu : u = t
      · subst hu
        refine hi.run hpc hr ?_
        rintro rfl
        exact (hcont i).1 k u (by simp [WorkerThread.goto])
      · refine hi.worker hothers (fun l q h => ?_) ?_ id
        · cases hpc.symm.trans h
          exact absurd rfl hu
        · show (Function.update s.task u b t).state = _
          rw [Function.update_of_ne (Ne.symm hu)]

/-- Clients do not set the state of a task. -/
theorem ClientStep.state {c : Cl} (h : ClientStep c s s') (t : T) : (s'.task t).state = (s.task t).state := by
  have hset : ∀ {u : T} {b : TaskBase Cl}, b.state = (s.task u).state →
      ((s.setTask u b).task t).state = (s.task t).state := by
    intro u b hb
    by_cases htu : t = u
    · subst htu; simpa [setTask] using hb
    · simp [setTask, htu]
  cases h with
  | cancelRunningTask => exact hset (by rfl)
  | cancelTask hpc hb => exact hset (TaskBase.cancel_keeps hb).1
  | _ => rfl

omit [DecidableEq Cl] in
/-- The timer thread does not set the state of a task but to cancelled. -/
theorem TimerStep.state (hi : TimerSound s) (h : TimerStep s s') (t : T) :
    (s'.task t).state = (s.task t).state ∨ (s'.task t).isStopState = true := by
  cases h with
  | @run tm id task p e b p' htm hpc htask hr =>
    obtain ⟨⟨h1, -, h3⟩, -⟩ := hi tm id p htm hpc
    by_cases ht : t = task.task
    · subst ht
      have hnew : ((s.setTask task.task b).setTimer (tm.goto (.doRun id (.run p')))).task task.task = b :=
        Function.update_self ..
      rw [hnew]
      rcases TaskBase.run_cases hr with ⟨rfl, -⟩ | ⟨rfl, -⟩ | ⟨-, rfl, -⟩ | ⟨-, rfl, -⟩ | ⟨rfl, -⟩
      · exact absurd rfl h1
      · exact absurd rfl h3
      · exact Or.inr rfl
      · exact Or.inl rfl
      · exact Or.inl rfl
    · exact Or.inl (by simp [setTimer, setTask, ht])
  | _ => exact Or.inl rfl

theorem wakeStep_state (w : Wake n Cl T) (t : T) : ((s.wakeStep w).task t).state = (s.task t).state := by
  cases w with
  | task u c =>
    by_cases htu : t = u
    · subst htu; simp [wakeStep, setTask]
    · simp [wakeStep, setTask, htu]
  | _ => rfl

theorem Reachable.settled (h : (system n Cl isEndTask).Reachable (fun s a => s.exits a = true) s) (t : T) :
    s.Settled t := by
  refine h.induct (I := fun s => s.Settled t) (Or.inr (Or.inr ⟨rfl, fun _ _ h => by cases h⟩))
    fun s a s' hr ha hs hi => ?_
  have hserved := (Reachable.view hr).served
  have hcont := Reachable.contained (fun _ _ h => h) (hr.step ha hs)
  cases step_cases hs with
  | @start k hk hc =>
    have habs : (s.threads ⟨k, hk⟩).pc = .absent := (Reachable.built hr ⟨k, hk⟩).mpr ⟨k, le_rfl, hc⟩
    refine hi.worker (i := ⟨k, hk⟩) (fun j hj => by simp [setThread, hj]) (fun l p h => ?_) rfl id
    rw [habs] at h
    cases h
  | started | constructed | call => exact hi
  | client hidle hs =>
    exact hi.frame hserved hs.frame (by cases hs <;> rfl) (Or.inl (hs.state t))
  | worker hs => exact hs.settled hi (Reachable.shape hr) hcont
  | timer htm hs => exact hi.frame hserved hs.frame (by cases hs <;> rfl) (hs.state (Reachable.timerSound hr) t)
  | wake w => exact hi.frame hserved (wakeStep_frame w) (by cases w <;> rfl) (Or.inl (wakeStep_state w t))

/-! ## After a stop -/

/-- What became of the occurrence at the position `k`, when it was not run: it is in the queue, a worker that was asked
to cancel has dropped it, or a worker has left because it is an `EndTask`. -/
inductive Skipped (s : FixedThreadPool n Cl T) (k : Nat) : Prop
  | queued (_ : s.taskQueue.pops.length ≤ k)
  | dropped (i : Fin n) (_ : (s.threads i).pc.why = some (.dropped k)) (_ : (s.threads i).thread.isRequestCancel = true)
  | ended (i : Fin n) (_ : (s.threads i).pc.why = some (.endTask k))

/-- An occurrence that no worker has run, in a stopped pool. -/
theorem Reachable.skipped (h : (system n Cl isEndTask).Reachable (fun s a => s.exits a = true) s) (hret : HasReturned s)
    (hn : s.NeverRun t) {k : Nat} (hk : s.taskQueue.pushes[k]? = some (.task t)) : s.Skipped k := by
  have hv := Reachable.view h
  rcases Nat.lt_or_ge k s.taskQueue.pops.length with hlt | hge
  · obtain ⟨w, hrun | hheld⟩ := hv.served.fate (k := k) hlt
    · exact absurd hk (hn w k hrun)
    · obtain ⟨why, p, hwhy, hview⟩ := Reachable.left h hret w
      rw [show s.view.worker w = _ from hview] at hheld
      cases why with
      | cancelled => simp [Worker.held] at hheld
      | endTask l =>
        obtain rfl : k = l := by simpa [Worker.held] using hheld
        exact .ended w hwhy
      | dropped l =>
        obtain rfl : k = l := by simpa [Worker.held] using hheld
        exact .dropped w hwhy (hv.flagged w _ p hview (Or.inr ⟨k, rfl⟩))
      | escaped l => exact absurd hwhy ((Reachable.contained (fun _ _ h => h) h w).2 l)
  · exact .queued hge

/-- In a stopped pool a task that a worker has run is finished or cancelled. -/
theorem Reachable.settled_of_returned (h : (system n Cl isEndTask).Reachable (fun s a => s.exits a = true) s)
    (hret : HasReturned s) (t : T) : (s.task t).isStopState = true ∨ ((s.task t).state = .init ∧ s.NeverRun t) := by
  rcases Reachable.settled h t with hstop | ⟨i, k, p, hpc, -⟩ | hinit
  · exact Or.inl hstop
  · exact absurd hpc (Reachable.not_running h hret i k t p)
  · exact Or.inr hinit

/-- **What becomes of an accepted task when the pool is stopped.** It is finished or cancelled, or no worker has run it
and each of its occurrences is in the queue, was dropped by a worker that was asked to cancel, or has ended a worker as
an `EndTask`, if it is not still with the timer. When no worker was asked to cancel, whatever was pushed before the
first `EndTask` is finished or cancelled. -/
theorem accepted_fate (h : (system n Cl isEndTask).Reachable (fun s a => s.exits a = true) s) (h0 : 0 < n)
    (hret : HasReturned s) (ht : t ∈ s.accepted) :
    ((s.task t).isStopState = true ∨ ((s.task t).state = .init ∧ s.NeverRun t ∧
      ((∃ k : Nat, s.taskQueue.pushes[k]? = some (.task t)) ∨
        ∃ (id : Nat) (task : TimerTask Cl T), s.timerTasks[id]? = some task ∧ task.task = t) ∧
      ∀ k : Nat, s.taskQueue.pushes[k]? = some (.task t) → s.Skipped k)) ∧
    ((∀ i, (s.threads i).thread.isRequestCancel = false) → ∀ j, s.BeforeEnd isEndTask j →
      s.taskQueue.pushes[j]? = some (.task t) → (s.task t).isStopState = true) := by
  have hsettled := Reachable.settled_of_returned h hret t
  refine ⟨hsettled.imp_right fun ⟨hinit, hn⟩ => ⟨hinit, hn, Reachable.handed h t ht, fun k hk =>
    Reachable.skipped h hret hn hk⟩, fun hflag j hj hjt => ?_⟩
  have hall := Reachable.allEnded h (Reachable.contained (fun _ _ h => h) h) hflag hret
  obtain ⟨w, hw, -⟩ := (Reachable.view h).served.run_once hall h0 hj
  have hmem : (w, Event.start j) ∈ s.runs :=
    List.count_pos_iff.mp (by rw [show s.runs.count _ = 1 from hw]; exact one_pos)
  rcases hsettled with hstop | ⟨-, hn⟩
  · exact hstop
  · exact absurd hjt (hn w j hmem)

theorem accepted_fate_stopRun : ∃ s : FixedThreadPool 1 Unit Unit, () ∈ s.accepted ∧ s.HasReturned ∧
    ((s.task ()).isStopState = true ∨ ((s.task ()).state = .init ∧ s.NeverRun ())) := by
  obtain ⟨s, hr, hs⟩ := System.reachable_of_exec (system 1 Unit fun _ : Unit => false) (fun s a => s.exits a = true)
    stopRun (fun s => s.stopReturned && s.accepted == [()]) (by decide)
  simp only [Bool.and_eq_true, beq_iff_eq] at hs
  have hmem : () ∈ s.accepted := by rw [hs.2]; exact List.mem_singleton_self ()
  have hfate := (accepted_fate hr one_pos (Or.inl hs.1) hmem).1
  exact ⟨s, hmem, Or.inl hs.1, hfate.imp_right fun h => ⟨h.1, h.2.1⟩⟩

/-- A client has found that no stop was requested, another one stops the pool, and then the first one pushes: its task
is accepted, and neither finished nor cancelled. -/
theorem late_push : ¬ ∀ s, (system 1 Bool fun _ : Unit => false).Reachable (fun s a => s.exits a = true) s →
    HasReturned s → ∀ t ∈ s.accepted, (s.task t).isStopState = true := by
  intro hall
  obtain ⟨s, hr, hs⟩ := System.reachable_of_exec (system 1 Bool fun _ : Unit => false) (fun s a => s.exits a = true)
    (List.replicate 3 .construct ++ [.call true (.addTask (some ())), .client true ⟨.ret, 0, 0⟩, .call false .stop] ++
      List.replicate 4 (.client false ⟨.ret, 0, 0⟩) ++ List.replicate 11 (.worker 0 .ret) ++
      List.replicate 3 (.client false ⟨.ret, 0, 0⟩) ++ [.client true ⟨.ret, 0, 0⟩])
    (fun s => s.stopReturned && s.accepted == [()] && !(s.task ()).isStopState) (by decide)
  simp only [Bool.and_eq_true, Bool.not_eq_true', beq_iff_eq] at hs
  obtain ⟨⟨h1, h2⟩, h3⟩ := hs
  have := hall s hr (Or.inl h1) () (by rw [h2]; exact List.mem_singleton_self ())
  rw [h3] at this
  cases this

end FixedThreadPool

end Tpool
