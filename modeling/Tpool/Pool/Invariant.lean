import Tpool.Pool.Steps

/-!
# What holds between the steps of the pool

- `Frame`: what the steps of the clients, of the timer thread and of those who wake leave as it is; they do not touch
  where the workers are and what these hold.
- `Quiet`, `Built`, `Shape`: before the constructor has returned nobody calls; the workers that were started are those
  that are there; each of them is `Sound`.
-/

namespace Tpool.FixedThreadPool

open Concurrency Tpool.Core

variable {n : Nat} {Cl T : Type*} [DecidableEq Cl] [DecidableEq T] {isEndTask : T → Bool}

/-! ## Frames -/

/-- Two states of a worker that differ in who holds the guard, who waits for the thread and the request to cancel. -/
def SameWork (w w' : WorkerThread Cl T) : Prop :=
  w'.pc = w.pc ∧ w'.runningTask = w.runningTask ∧ w'.thread.state = w.thread.state

/-- The workers are left where they are. -/
structure Frame (s s' : FixedThreadPool n Cl T) : Prop where
  ctor : s'.ctor = s.ctor
  threads : ∀ i, SameWork (s.threads i) (s'.threads i)
  pushes : s.taskQueue.pushes <+: s'.taskQueue.pushes
  waiting : s'.taskQueue.waiting ⊆ s.taskQueue.waiting
  state : s'.state = s.state
  isRequestStop : s.isRequestStop = true → s'.isRequestStop = true

section Frame

variable {s s' : FixedThreadPool n Cl T} {c : Cl}

omit [DecidableEq Cl] [DecidableEq T]

/-- The members in question are as they were. -/
theorem Frame.of_eq (h1 : s'.ctor = s.ctor) (h2 : s'.threads = s.threads) (h3 : s'.taskQueue = s.taskQueue)
    (h4 : s'.state = s.state) (h5 : s.isRequestStop = true → s'.isRequestStop = true) : Frame s s' :=
  ⟨h1, fun _ => by rw [h2]; exact ⟨rfl, rfl, rfl⟩, by rw [h3], by rw [h3], h4, h5⟩

/-- Something is pushed. -/
theorem Frame.of_push {item : Item T} (h1 : s'.ctor = s.ctor) (h2 : s'.threads = s.threads)
    (h3 : s'.taskQueue = s.taskQueue.push item) (h4 : s'.state = s.state) (h5 : s'.isRequestStop = s.isRequestStop) :
    Frame s s' := by
  refine ⟨h1, fun _ => by rw [h2]; exact ⟨rfl, rfl, rfl⟩, ?_, ?_, h4, fun h => by rw [h5, h]⟩
  · rw [h3]; exact List.prefix_append _ _
  · rw [h3]
    simp only [TaskQueue.push]
    split
    · exact Finset.empty_subset _
    · exact Finset.Subset.refl _

/-- One worker changes in what does not matter. -/
theorem Frame.of_thread {i : Fin n} {w : WorkerThread Cl T} (h : SameWork (s.threads i) w) :
    Frame s (s.setThread i w) := by
  refine ⟨rfl, fun j => ?_, List.prefix_refl _, Finset.Subset.refl _, rfl, id⟩
  by_cases hj : j = i
  · subst hj; simpa [setThread] using h
  · simp [setThread, hj, SameWork]

theorem Frame.goto [DecidableEq Cl] (h : Frame s s') (pc : ClientPC T) : Frame s (s'.goto c pc) :=
  ⟨h.ctor, h.threads, h.pushes, h.waiting, h.state, h.isRequestStop⟩

variable [DecidableEq Cl] [DecidableEq T]

theorem ClientStep.frame (h : ClientStep c s s') : Frame s s' := by
  cases h with
  | push => exact .of_push rfl rfl rfl rfl rfl
  | pushEndTask => exact .of_push rfl rfl rfl rfl rfl
  | win => exact .of_eq rfl rfl rfl rfl fun _ => rfl
  | cancelThread | lockRunningTask | unlockRunningTask =>
    refine Frame.goto (.of_thread ?_) _
    exact ⟨rfl, rfl, rfl⟩
  | waitThread =>
    refine Frame.goto (.of_thread ?_) _
    exact ⟨rfl, rfl, CancelableThread.awaitFinished_state _ _⟩
  | _ => exact .of_eq rfl rfl rfl rfl id

/-- A step of a call moves the call of its client only. -/
theorem ClientStep.others (h : ClientStep c s s') : ∀ c' ≠ c, s'.client c' = s.client c' := by
  intro c' hc'
  cases h <;> simp [goto, hc', setTimer, setThread, setTask]

omit [DecidableEq Cl] in
theorem TimerStep.frame (h : TimerStep s s') : Frame s s' := by
  cases h with
  | push => exact .of_push rfl rfl rfl rfl rfl
  | _ => exact .of_eq rfl rfl rfl rfl id

omit [DecidableEq Cl] in
theorem TimerStep.client (h : TimerStep s s') : s'.client = s.client := by cases h <;> rfl

theorem wakeStep_frame (w : Wake n Cl T) : Frame s (s.wakeStep w) := by
  cases w with
  | worker i =>
    exact ⟨rfl, fun _ => ⟨rfl, rfl, rfl⟩, List.prefix_refl _, Finset.erase_subset _ _, rfl, id⟩
  | thread i c => exact .of_thread ⟨rfl, rfl, rfl⟩
  | _ => exact .of_eq rfl rfl rfl rfl id

end Frame

/-! ## The constructor and the workers -/

/-- Nobody calls before the constructor has returned. -/
def Quiet (s : FixedThreadPool n Cl T) : Prop :=
  s.ctor ≠ .done → (∀ c, s.client c = .idle) ∧ s.timer = none ∧ s.stopReturned = false ∧ s.stopNowReturned = false

/-- The workers that were not started are not there. -/
def Built (s : FixedThreadPool n Cl T) : Prop :=
  ∀ i, (s.threads i).pc = .absent ↔ ∃ k ≤ i.val, s.ctor = .starting k

/-- Every worker is sound. -/
def Shape (isEndTask : T → Bool) (s : FixedThreadPool n Cl T) : Prop :=
  ∀ i, (s.threads i).Sound isEndTask s.taskQueue i

section Shape

variable {s s' : FixedThreadPool n Cl T} {i : Fin n} {e : Exit}

omit [DecidableEq Cl]

omit [DecidableEq T] in
@[simp] theorem setThread_threads_self (w : WorkerThread Cl T) : (s.setThread i w).threads i = w := by simp [setThread]

omit [DecidableEq T] in
@[simp] theorem setThread_threads_of_ne {j : Fin n} (w : WorkerThread Cl T) (h : j ≠ i) :
    (s.setThread i w).threads j = s.threads j := by simp [setThread, h]

omit [DecidableEq T] in
@[simp] theorem setWorld_threads_self (w : WorkerThread.World Cl T (Fin n)) :
    (s.setWorld i w).threads i = w.worker := by
  simp [setWorld]

omit [DecidableEq T] in
@[simp] theorem setWorld_threads_of_ne {j : Fin n} (w : WorkerThread.World Cl T (Fin n)) (h : j ≠ i) :
    (s.setWorld i w).threads j = s.threads j := by simp [setWorld, h]

omit [DecidableEq T] in
@[simp] theorem setThread_taskQueue (w : WorkerThread Cl T) : (s.setThread i w).taskQueue = s.taskQueue := rfl

omit [DecidableEq T] in
@[simp] theorem setWorld_taskQueue (w : WorkerThread.World Cl T (Fin n)) : (s.setWorld i w).taskQueue = w.queue := rfl

/-- A step of a worker is none of the constructor, of a client or of the timer. -/
theorem WorkerStep.rest (h : WorkerStep isEndTask i e s s') : s'.ctor = s.ctor ∧ s'.client = s.client ∧
    s'.timer = s.timer ∧ s'.timerTasks = s.timerTasks ∧ s'.isRequestStop = s.isRequestStop ∧ s'.wins = s.wins ∧
    s'.endTasksPushed = s.endTasksPushed ∧ s'.accepted = s.accepted ∧ s'.stopReturned = s.stopReturned ∧
    s'.stopNowReturned = s.stopNowReturned ∧ s'.taskQueue.pushes = s.taskQueue.pushes := by
  cases h with
  | thread h => exact ⟨rfl, rfl, rfl, rfl, rfl, rfl, rfl, rfl, rfl, rfl, h.others.1⟩
  | count | notLast | last => exact ⟨rfl, rfl, rfl, rfl, rfl, rfl, rfl, rfl, rfl, rfl, rfl⟩

/-- A step of a worker moves no other. -/
theorem WorkerStep.others (h : WorkerStep isEndTask i e s s') : ∀ j ≠ i, s'.threads j = s.threads j := by
  intro j hj
  cases h with
  | thread h => simp [hj]
  | count | notLast | last => simp [setThread, hj]

/-- Whoever makes a step is there, before and after it, and has not terminated. -/
theorem WorkerStep.present (h : WorkerStep isEndTask i e s s') :
    (s.threads i).pc ≠ .absent ∧ (s.threads i).pc.isTerminated = false ∧ (s'.threads i).pc ≠ .absent := by
  cases h with
  | thread h => exact ⟨h.present.1, h.present.2.1, by simpa using h.present.2.2⟩
  | count hpc | notLast hpc | last hpc => simp [setThread, WorkerThread.goto, WorkerThread.PC.isTerminated, hpc]

variable [DecidableEq Cl] {ok : FixedThreadPool n Cl T → Action n Cl T → Prop}

theorem Reachable.quiet (h : (system n Cl isEndTask).Reachable ok s) : Quiet s := by
  refine h.induct (fun _ => ⟨fun _ => rfl, rfl, rfl, rfl⟩) fun s a s' _ _ hs hi => ?_
  cases step_cases hs with
  | start hk hc => exact fun _ => hi (by simp [hc])
  | started hc hk => exact fun _ => hi (by simp [hc])
  | constructed hc => exact fun h => absurd rfl h
  | call hc hidle => exact fun h => absurd hc h
  | @client c i s' hidle hs =>
    intro h
    rw [hs.frame.ctor] at h
    exact absurd ((hi h).1 c) hidle
  | worker hs =>
    obtain ⟨h1, h2, h3, -, -, -, -, -, h4, h5, -⟩ := hs.rest
    simpa only [Quiet, h1, h2, h3, h4, h5] using hi
  | timer htm hs =>
    intro h
    rw [hs.frame.ctor] at h
    exact absurd (hi h).2.1 htm
  | wake w =>
    intro h
    rw [(wakeStep_frame w).ctor] at h
    obtain ⟨h1, h2, h3, h4⟩ := hi h
    cases w <;> simp_all [wakeStep, setThread, setTask]

theorem Reachable.built (h : (system n Cl isEndTask).Reachable ok s) : Built s := by
  refine h.induct (fun i => ⟨fun _ => ⟨0, Nat.zero_le _, rfl⟩, fun _ => rfl⟩) fun s a s' _ _ hs hi => ?_
  have hframe : ∀ {s'}, Frame s s' → Built s' := by
    intro s' hf i
    rw [(hf.threads i).1, hf.ctor]
    exact hi i
  cases step_cases hs with
  | @start k hk hc =>
    intro i
    by_cases hik : i = ⟨k, hk⟩
    · subst hik; simp
    · have hne : i.val ≠ k := fun h => hik (Fin.ext h)
      rw [show ({ s.setThread ⟨k, hk⟩ _ with ctor := _ } : FixedThreadPool n Cl T).threads i = s.threads i from
        setThread_threads_of_ne _ hik, hi i, hc]
      simp only [Ctor.starting.injEq, exists_eq_right']
      omega
  | @started k hc hk =>
    intro i
    rw [show ({ s with ctor := .setRunning } : FixedThreadPool n Cl T).threads i = s.threads i from rfl, hi i, hc]
    have := i.isLt
    simp
    omega
  | constructed hc => intro i; simpa [hc] using hi i
  | call hc hidle => exact hi
  | client hidle hs => exact hframe hs.frame
  | @worker i e s' hs =>
    intro j
    by_cases hji : j = i
    · subst hji
      obtain ⟨h1, -, h2⟩ := hs.present
      rw [hs.rest.1]
      exact ⟨fun h => absurd h h2, fun h => absurd ((hi j).mpr h) h1⟩
    · rw [hs.others j hji, hs.rest.1]; exact hi j
  | timer htm hs => exact hframe hs.frame
  | wake w => exact hframe (wakeStep_frame w)

omit [DecidableEq Cl] [DecidableEq T] in
/-- Who leaves the workers where they are keeps them sound. -/
theorem Shape.frame (hi : Shape isEndTask s) (hf : Frame s s') : Shape isEndTask s' := fun i =>
  (hi i).frame (hf.threads i).1 (hf.threads i).2.1 (hf.threads i).2.2 hf.pushes fun h => hf.waiting h

omit [DecidableEq Cl] in
/-- So does a worker. -/
theorem Shape.workerStep (hi : Shape isEndTask s) (h : WorkerStep isEndTask i e s s') : Shape isEndTask s' := by
  intro j
  cases h with
  | thread h =>
    by_cases hji : j = i
    · subst hji; simpa using (hi j).step h
    · obtain ⟨h1, h2⟩ := h.others
      simp only [setWorld_threads_of_ne _ hji]
      refine (hi j).frame rfl rfl rfl ?_ (h2 j hji)
      rw [show (s.setWorld i _).taskQueue.pushes = s.taskQueue.pushes from h1]
  | count hpc | notLast hpc | last hpc =>
    by_cases hji : j = i
    · subst hji
      simp only [setThread, Function.update_self]
      exact (hi j).goto _ (by simp [hpc]) trivial (by rw [hpc]; rfl)
    · simpa [setThread, hji] using hi j

theorem Reachable.shape (h : (system n Cl isEndTask).Reachable ok s) : Shape isEndTask s := by
  refine h.induct (fun i => ?_) fun s a s' hr _ hs hi => ?_
  · refine ⟨trivial, by simp [system, new, TaskQueue.new], ?_⟩
    simp [system, new, WorkerThread.absent, CancelableThread.new, WorkerThread.PC.isTerminated]
  cases step_cases hs with
  | @start k hk hc =>
    intro i
    by_cases hik : i = ⟨k, hk⟩
    · subst hik
      have habs : (s.threads ⟨k, hk⟩).pc = .absent := (Reachable.built hr ⟨k, hk⟩).mpr ⟨k, le_rfl, hc⟩
      refine ⟨by simp [WorkerThread.PC.Holds], fun h => ?_, by
          simp [WorkerThread.PC.isTerminated, CancelableThread.new]⟩
      have := (hi ⟨k, hk⟩).waiting h
      rw [habs] at this
      cases this
    · have := hi i
      simpa [hik] using this
  | started hc hk => exact hi
  | constructed hc => exact hi
  | call hc hidle => exact hi
  | client hidle hs => exact hi.frame hs.frame
  | worker hs => exact hi.workerStep hs
  | timer htm hs => exact hi.frame hs.frame
  | wake w => exact hi.frame (wakeStep_frame w)

end Shape

end Tpool.FixedThreadPool
