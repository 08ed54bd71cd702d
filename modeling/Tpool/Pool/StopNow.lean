import Tpool.Concurrency.Observe
import Tpool.Pool.Tasks

/-!
# What StopNow asks to stop

- `Guards`: who holds the `m_runningTaskGuard` of a worker, by where the worker and the clients are.
- `Stopping`: what `StopNow` has done at each point: the threads it has asked to cancel, and the task it has found. All
  threads are asked before the first task is.
- `stopNow_asks`: a worker whose guard a `StopNow` has released executes only tasks that were asked to cancel, and at
  most one more to its end.
-/

namespace Tpool

open Concurrency

variable {n : Nat} {Cl T : Type*} {isEndTask : T → Bool}

/-! ## The worker and its guard -/

namespace WorkerThread

/-- The worker holds `m_runningTaskGuard`. -/
def PC.guards : PC T → Bool
  | .pop | .blocked | .unlock _ => true
  | _ => false

/-- The worker is past its second check. -/
def PC.started : PC T → Bool
  | .dispatch _ | .run _ _ _ => true
  | _ => false

/-- The worker leaves the `Run` of a task with its next step. -/
def PC.ends : PC T → Bool
  | .run _ _ .ret | .run _ _ .raised => true
  | _ => false

section Step

variable {W : Type*} [DecidableEq T] [DecidableEq W] {i : W} {e : Exit} {s s' : World Cl T W}

/-- Only who pops changes `m_runningTask`. -/
theorem Step.runningTask (h : Step isEndTask i e s s') (hg : s.worker.pc.guards = false) :
    s'.worker.runningTask = s.worker.runningTask := by
  cases h with
  | pop hpc => rcases hpc with hpc | ⟨hpc, -⟩ <;> rw [hpc] at hg <;> cases hg
  | _ => rfl

/-- The guard passes to the worker, from it, or stays where it is. -/
theorem Step.guard (h : Step isEndTask i e s s') :
    (s'.worker.runningTaskGuard = s.worker.runningTaskGuard ∧ s'.worker.pc.guards = s.worker.pc.guards) ∨
    (s.worker.runningTaskGuard = .free ∧ s'.worker.runningTaskGuard = .worker) ∨
    (s.worker.pc.guards = true ∧ s'.worker.runningTaskGuard = .free ∧ s'.worker.pc.guards = false) := by
  cases h with
  | lock hpc hfree => exact Or.inr (Or.inl ⟨hfree, rfl⟩)
  | unlock hpc => exact Or.inr (Or.inr ⟨by rw [hpc]; rfl, rfl, rfl⟩)
  | cancelled hpc => exact Or.inl ⟨rfl, by rcases hpc with hpc | hpc <;> rw [hpc] <;> rfl⟩
  | pop hpc => exact Or.inl ⟨rfl, by rcases hpc with hpc | ⟨hpc, -⟩ <;> rw [hpc] <;> rfl⟩
  | block _ hpc => exact Or.inl ⟨rfl, by rcases hpc with hpc | hpc <;> rw [hpc] <;> rfl⟩
  | setRunning hpc | enter hpc | check hpc | recheck hpc | dropped hpc | null hpc | ended hpc | start hpc | run hpc
  | stop hpc | escape hpc | notifyFinished hpc => exact Or.inl ⟨rfl, by rw [hpc]; rfl⟩

/-- A worker runs the task in `m_runningTask`. -/
theorem Step.running (h : Step isEndTask i e s s')
    (hi : ∀ k t p, s.worker.pc = .run k t p → s.worker.runningTask = some (.task t)) :
    ∀ k t p, s'.worker.pc = .run k t p → s'.worker.runningTask = some (.task t) := by
  intro k t p hpc'
  cases h with
  | start hpc ht => cases hpc'; exact ht
  | run hpc => cases hpc'; exact hi _ _ _ hpc
  | _ => cases hpc'

/-- A worker that was asked to cancel does not get past its second check. -/
theorem Step.quits (h : Step isEndTask i e s s') (hf : s.worker.thread.isRequestCancel = true)
    (hs : s'.worker.pc.started = true) : s.worker.pc.started = true ∧ s.worker.pc.ends = false := by
  cases h with
  | recheck hpc hn => rw [hf] at hn; cases hn
  | start hpc => rw [hpc]; exact ⟨rfl, rfl⟩
  | @run k t p b p' hpc hr =>
    rw [hpc]
    cases p with
    | ret | raised => cases hr
    | _ => exact ⟨rfl, rfl⟩
  | _ => cases hs

omit [DecidableEq T] in
/-- Leaving a `Run` ends what was started. -/
theorem PC.ends_started {pc : PC T} (h : pc.ends = true) : pc.started = true := by
  cases pc <;> first | rfl | cases h

end Step

end WorkerThread

namespace FixedThreadPool

section Guards

/-- A client holds the guard of the worker `i`. -/
def ClientPC.guards (i : Nat) : ClientPC T → Bool
  | .cancelRunningTask j | .onCallCancel j | .unlockRunningTask j _ => j == i
  | _ => false

/-- Whoever stands in a section under the guard of a worker holds it. -/
structure Guards (s : FixedThreadPool n Cl T) : Prop where
  worker : ∀ i, (s.threads i).pc.guards = true → (s.threads i).runningTaskGuard = .worker
  client : ∀ c (i : Fin n), (s.client c).guards i = true → (s.threads i).runningTaskGuard = .client c

variable [DecidableEq Cl] [DecidableEq T] {s s' : FixedThreadPool n Cl T} {c : Cl} {i : Fin n} {e : Exit}

/-- A client takes the guard of a worker, gives it back, or leaves it where it is. -/
theorem ClientStep.guard (h : ClientStep c s s') (i : Fin n) :
    (s'.threads i).runningTaskGuard = (s.threads i).runningTaskGuard ∨
    ((s.threads i).runningTaskGuard = .free ∧ (s'.threads i).runningTaskGuard = .client c) ∨
    ((s.client c).guards i = true ∧ (s'.client c).guards i = false) := by
  have hset : ∀ {j : Fin n} {w : WorkerThread Cl T} {pc : ClientPC T},
      (j = i → w.runningTaskGuard = (s.threads j).runningTaskGuard) →
      (((s.setThread j w).goto c pc).threads i).runningTaskGuard = (s.threads i).runningTaskGuard := by
    intro j w pc hw
    by_cases hij : i = j
    · subst hij
      simpa [goto] using hw rfl
    · simp [goto, hij]
  cases h with
  | cancelThread hj | waitThread hj => exact Or.inl (hset fun _ => rfl)
  | @lockRunningTask j hj hpc hfree =>
    by_cases hij : i = ⟨j, hj⟩
    · subst hij
      exact Or.inr (Or.inl ⟨hfree, by simp [goto]⟩)
    · exact Or.inl (hset fun h => absurd h.symm hij)
  | @unlockRunningTask j raised hj hpc =>
    by_cases hij : i = ⟨j, hj⟩
    · subst hij
      refine Or.inr (Or.inr ⟨by simp [hpc, ClientPC.guards], ?_⟩)
      cases raised <;> simp [goto, ClientPC.guards]
    · exact Or.inl (hset fun h => absurd h.symm hij)
  | _ => exact Or.inl rfl

/-- A client holds the guard of a worker that it held before, or has just taken. -/
theorem ClientStep.guards (h : ClientStep c s s') (hg : (s'.client c).guards i = true) :
    (s.client c).guards i = true ∨ (s'.threads i).runningTaskGuard = .client c := by
  cases h with
  | @silent pc pc' hpc hs =>
    rw [hpc]
    simp only [goto, Function.update_self] at hg
    cases hs with
    | noTask | onCallCancel => exact Or.inl hg
    | @lost k => cases k <;> cases hg
    | _ => cases hg
  | cancelRunningTask _ hpc =>
    rw [hpc]
    simp only [goto, Function.update_self] at hg
    exact Or.inl hg
  | @lockRunningTask j hj hpc hfree =>
    right
    simp only [goto, Function.update_self, ClientPC.guards, beq_iff_eq] at hg
    obtain rfl : ⟨j, hj⟩ = i := Fin.ext hg
    simp [goto]
  | @unlockRunningTask j raised => cases raised <;> simp [goto, ClientPC.guards] at hg
  | @pushedAll k => cases k <;> simp [goto, ClientPC.guards, Stopper.afterAsync] at hg
  | setDeadline _ _ hpc' => rcases hpc' with rfl | ⟨_, rfl⟩ <;> simp [goto, ClientPC.guards] at hg
  | cancelThread _ hpc => rcases hpc with ⟨-, rfl⟩ | ⟨-, rfl⟩ <;> simp [goto, ClientPC.guards] at hg
  | cancelTimer _ hpc =>
    rcases hpc with ⟨-, rfl⟩ | ⟨-, rfl⟩ | ⟨-, rfl⟩ <;> simp [goto, setTimer, ClientPC.guards] at hg
  | clearTimer _ _ hpc => rcases hpc with ⟨-, rfl⟩ | ⟨-, rfl⟩ <;> simp [goto, setTimer, ClientPC.guards] at hg
  | _ => simp [goto, setTimer, setTask, ClientPC.guards] at hg

theorem Guards.clientStep (hi : Guards s) (h : ClientStep c s s') : Guards s' := by
  refine ⟨fun i hg => ?_, fun d i hg => ?_⟩
  · rw [(h.frame.threads i).1] at hg
    have hworker := hi.worker i hg
    rcases h.guard i with heq | ⟨hfree, -⟩ | ⟨hheld, -⟩
    · rw [heq, hworker]
    · rw [hworker] at hfree
      cases hfree
    · rw [hi.client c i hheld] at hworker
      cases hworker
  · by_cases hdc : d = c
    · subst hdc
      rcases h.guards hg with hold | hnew
      · rcases h.guard i with heq | ⟨-, hnew⟩ | ⟨-, hleft⟩
        · rw [heq, hi.client d i hold]
        · exact hnew
        · rw [hleft] at hg
          cases hg
      · exact hnew
    · rw [h.others d hdc] at hg
      have hclient := hi.client d i hg
      rcases h.guard i with heq | ⟨hfree, -⟩ | ⟨hheld, -⟩
      · rw [heq, hclient]
      · rw [hclient] at hfree
        cases hfree
      · rw [hi.client c i hheld] at hclient
        cases hclient
        exact absurd rfl hdc

omit [DecidableEq Cl] in
/-- The guard of a worker passes to it, from it, or stays where it is. -/
theorem WorkerStep.guard (h : WorkerStep isEndTask i e s s') :
    ((s'.threads i).runningTaskGuard = (s.threads i).runningTaskGuard ∧
      (s'.threads i).pc.guards = (s.threads i).pc.guards) ∨
    ((s.threads i).runningTaskGuard = .free ∧ (s'.threads i).runningTaskGuard = .worker) ∨
    ((s.threads i).pc.guards = true ∧ (s'.threads i).runningTaskGuard = .free ∧ (s'.threads i).pc.guards = false) := by
  cases h with
  | thread h =>
    rw [setWorld_threads_self]
    exact h.guard
  | count hpc | notLast hpc | last hpc =>
    left
    simp [setThread, WorkerThread.goto, hpc, WorkerThread.PC.guards]

omit [DecidableEq Cl] in
theorem Guards.workerStep (hi : Guards s) (h : WorkerStep isEndTask i e s s') : Guards s' := by
  have hclient := h.rest.2.1
  refine ⟨fun j hg => ?_, fun d j hg => ?_⟩
  · by_cases hji : j = i
    · subst hji
      rcases h.guard with ⟨heq, hsame⟩ | ⟨-, hnew⟩ | ⟨-, -, hleft⟩
      · rw [heq, hi.worker j (hsame ▸ hg)]
      · exact hnew
      · rw [hleft] at hg
        cases hg
    · rw [h.others j hji] at hg ⊢
      exact hi.worker j hg
  · rw [hclient] at hg
    have hold := hi.client d j hg
    by_cases hji : j = i
    · subst hji
      rcases h.guard with ⟨heq, -⟩ | ⟨hfree, -⟩ | ⟨hheld, -⟩
      · rw [heq, hold]
      · rw [hold] at hfree
        cases hfree
      · rw [hi.worker j hheld] at hold
        cases hold
    · rw [h.others j hji]
      exact hold

omit [DecidableEq Cl] [DecidableEq T] in
/-- The threads keep their guards, and nobody moves to where it holds one. -/
theorem Guards.frame (hi : Guards s) (hw : ∀ i, (s'.threads i).pc.guards = true → (s.threads i).pc.guards = true)
    (hg : ∀ i, (s'.threads i).runningTaskGuard = (s.threads i).runningTaskGuard)
    (hc : ∀ d i, (s'.client d).guards i = true → (s.client d).guards i = true) : Guards s' := by
  refine ⟨fun i h => ?_, fun d i h => ?_⟩
  · rw [hg i]
    exact hi.worker i (hw i h)
  · rw [hg i]
    exact hi.client d i (hc d i h)

theorem Reachable.guards {ok : FixedThreadPool n Cl T → Action n Cl T → Prop}
    (h : (system n Cl isEndTask).Reachable ok s) : Guards s := by
  refine h.induct (I := Guards) ?_ ?_
  · exact ⟨by simp [system, new, WorkerThread.absent, WorkerThread.PC.guards], by simp [system, new, ClientPC.guards]⟩
  · intro s a s' hr _ hs hi
    cases step_cases hs with
    | @start k hk hc =>
      have hquiet := (Reachable.quiet hr (by rw [hc]; simp)).1
      refine ⟨fun i hg => ?_, fun d i hg => ?_⟩
      · by_cases hik : i = ⟨k, hk⟩
        · subst hik
          simp [WorkerThread.PC.guards] at hg
        · simp only [setThread_threads_of_ne _ hik] at hg ⊢
          exact hi.worker i hg
      · have hg : (s.client d).guards i = true := hg
        rw [hquiet d] at hg
        cases hg
    | started | constructed => exact ⟨hi.worker, hi.client⟩
    | @call c m hctor hidle =>
      refine hi.frame (fun _ => id) (fun _ => rfl) fun d i hg => ?_
      by_cases hdc : d = c
      · subst hdc
        cases m <;> simp [goto, Method.start, ClientPC.guards] at hg
      · simpa [goto, hdc] using hg
    | client hidle hs => exact hi.clientStep hs
    | worker hs => exact hi.workerStep hs
    | timer htm hs =>
      refine hi.frame (fun i => ?_) (fun i => ?_) fun d i => ?_
      · rw [(hs.frame.threads i).1]
        exact id
      · cases hs <;> rfl
      · rw [hs.client]
        exact id
    | wake w =>
      refine hi.frame (fun i => ?_) (fun i => ?_) fun d i => ?_
      · rw [((wakeStep_frame w).threads i).1]
        exact id
      · cases w with
        | thread j c =>
          by_cases hij : i = j
          · subst hij
            simp [wakeStep]
          · simp [wakeStep, hij]
        | _ => rfl
      · cases w <;> exact id

end Guards

/-! ## What StopNow has done -/

section Stopping

/-- How many threads `StopNow` has asked to cancel. -/
def ClientPC.asked (n : Nat) : ClientPC T → Nat
  | .cancelAsync j => j
  | .lockRunningTask _ | .cancelRunningTask _ | .onCallCancel _ | .unlockRunningTask _ _ | .cancelThread _
  | .waitThread _
  | .blockedThread _ => n
  | _ => 0

/-- `StopNow` has been at the `m_runningTask` of the worker `i` and still holds its guard. -/
def ClientPC.hasMarked (i : Nat) : ClientPC T → Bool
  | .onCallCancel j | .unlockRunningTask j _ => j == i
  | _ => false

/-- The task that the worker `i` has fetched was asked to cancel. -/
def Asked (s : FixedThreadPool n Cl T) (i : Fin n) : Prop :=
  ∀ t, (s.threads i).runningTask = some (.task t) → (s.task t).isRequestCancel = true

/-- What `StopNow` has done where it is; a worker runs the task in `m_runningTask`. -/
structure Stopping (s : FixedThreadPool n Cl T) : Prop where
  running : ∀ i k t p, (s.threads i).pc = .run k t p → (s.threads i).runningTask = some (.task t)
  asked : ∀ c (i : Fin n), i.val < (s.client c).asked n → (s.threads i).thread.isRequestCancel = true
  marked : ∀ c (i : Fin n), (s.client c).hasMarked i = true → Asked s i

variable [DecidableEq Cl] [DecidableEq T] {s s' : FixedThreadPool n Cl T} {c : Cl} {i : Fin n} {e : Exit}

omit [DecidableEq Cl] [DecidableEq T] in
theorem Asked.frame (hi : Asked s i) (hr : (s'.threads i).runningTask = (s.threads i).runningTask) (hk : Keeps s s') :
    Asked s' i := by
  intro t ht
  rw [hr] at ht
  exact hk.isRequestCancel t (hi t ht)

omit [DecidableEq Cl] [DecidableEq T] in
theorem ClientPC.hasMarked_guards {pc : ClientPC T} {i : Nat} (h : pc.hasMarked i = true) : pc.guards i = true := by
  cases pc <;> first | exact h | cases h

/-- No client takes back that a thread was asked to cancel. -/
theorem ClientStep.keepsAsked (h : ClientStep c s s') (hf : (s.threads i).thread.isRequestCancel = true) :
    (s'.threads i).thread.isRequestCancel = true := by
  have hset : ∀ {j : Fin n} {w : WorkerThread Cl T} {pc : ClientPC T},
      (j = i → (s.threads j).thread.isRequestCancel = true → w.thread.isRequestCancel = true) →
      (((s.setThread j w).goto c pc).threads i).thread.isRequestCancel = true := by
    intro j w pc hw
    by_cases hij : i = j
    · subst hij
      simpa [goto] using hw rfl hf
    · simpa [goto, hij] using hf
  cases h with
  | cancelThread => exact hset fun _ _ => rfl
  | lockRunningTask | unlockRunningTask => exact hset fun _ h => h
  | waitThread => exact hset fun _ h => (CancelableThread.awaitFinished_isRequestCancel _ _).trans h
  | _ => exact hf

omit [DecidableEq Cl] [DecidableEq T] in
theorem Silent.asked {pc pc' : ClientPC T} (h : Silent s pc pc') : pc'.asked n ≤ pc.asked n := by
  cases h with
  | lost => cases ‹Stopper› <;> exact Nat.le_refl _
  | cancelledAll hj => exact hj
  | noTask | onCallCancel => exact Nat.le_refl _
  | threadFinished _ hpc => rcases hpc with rfl | rfl <;> exact Nat.le_refl _
  | _ => exact Nat.zero_le _

/-- `StopNow` counts a thread when it has asked it. -/
theorem ClientStep.asked (h : ClientStep c s s') (hi : i.val < (s'.client c).asked n) :
    i.val < (s.client c).asked n ∨ (s'.threads i).thread.isRequestCancel = true := by
  cases h with
  | silent hpc hs =>
    rw [hpc]
    simp only [goto, Function.update_self] at hi
    exact Or.inl (Nat.lt_of_lt_of_le hi hs.asked)
  | @cancelThread j pc' hj hpc =>
    simp only [goto, Function.update_self] at hi
    rcases hpc with ⟨hpc, rfl⟩ | ⟨hpc, rfl⟩
    · rw [hpc]
      by_cases hij : i = ⟨j, hj⟩
      · subst hij
        right
        simp [goto, CancelableThread.cancelAsync]
      · have hne : i.val ≠ j := fun h => hij (Fin.ext h)
        have hlt : i.val < j + 1 := hi
        exact Or.inl (show i.val < j by omega)
    · rw [hpc]
      exact Or.inl hi
  | @pushedAll k => cases k <;> simp [goto, ClientPC.asked, Stopper.afterAsync] at hi
  | setDeadline _ _ hpc' => rcases hpc' with rfl | ⟨_, rfl⟩ <;> simp [goto, ClientPC.asked] at hi
  | cancelTimer _ hpc =>
    rcases hpc with ⟨-, rfl⟩ | ⟨-, rfl⟩ | ⟨-, rfl⟩ <;> simp [goto, setTimer, ClientPC.asked] at hi
  | clearTimer _ _ hpc => rcases hpc with ⟨-, rfl⟩ | ⟨-, rfl⟩ <;> simp [goto, setTimer, ClientPC.asked] at hi
  | lockRunningTask _ hpc | cancelRunningTask _ hpc | unlockRunningTask _ hpc => rw [hpc]; exact Or.inl i.isLt
  | waitThread _ hpc => rcases hpc with hpc | ⟨hpc, -⟩ <;> rw [hpc] <;> exact Or.inl i.isLt
  | _ => simp [goto, setTimer, setTask, ClientPC.asked] at hi

/-- `StopNow` gets to where it has marked the task by marking it. -/
theorem ClientStep.marks (h : ClientStep c s s') (hm : (s'.client c).hasMarked i = true) :
    (s.client c).hasMarked i = true ∨ Asked s' i := by
  cases h with
  | @silent pc pc' hpc hs =>
    rw [hpc]
    simp only [goto, Function.update_self] at hm
    cases hs with
    | @noTask j hj hnone =>
      right
      simp only [ClientPC.hasMarked, beq_iff_eq] at hm
      obtain rfl : ⟨j, hj⟩ = i := Fin.ext hm
      exact fun t ht => absurd ht (hnone t)
    | onCallCancel => exact Or.inl hm
    | @lost k => cases k <;> cases hm
    | _ => cases hm
  | @cancelRunningTask j t hj hpc ht =>
    right
    simp only [goto, Function.update_self, ClientPC.hasMarked, beq_iff_eq] at hm
    obtain rfl : ⟨j, hj⟩ = i := Fin.ext hm
    intro u hu
    obtain rfl : t = u := by simpa [goto, setTask, ht] using hu
    simp [goto, setTask]
  | @unlockRunningTask j raised => cases raised <;> simp [goto, ClientPC.hasMarked] at hm
  | @pushedAll k => cases k <;> simp [goto, ClientPC.hasMarked, Stopper.afterAsync] at hm
  | setDeadline _ _ hpc' => rcases hpc' with rfl | ⟨_, rfl⟩ <;> simp [goto, ClientPC.hasMarked] at hm
  | cancelThread _ hpc => rcases hpc with ⟨-, rfl⟩ | ⟨-, rfl⟩ <;> simp [goto, ClientPC.hasMarked] at hm
  | cancelTimer _ hpc =>
    rcases hpc with ⟨-, rfl⟩ | ⟨-, rfl⟩ | ⟨-, rfl⟩ <;> simp [goto, setTimer, ClientPC.hasMarked] at hm
  | clearTimer _ _ hpc => rcases hpc with ⟨-, rfl⟩ | ⟨-, rfl⟩ <;> simp [goto, setTimer, ClientPC.hasMarked] at hm
  | _ => simp [goto, setTimer, setTask, ClientPC.hasMarked] at hm

theorem Stopping.clientStep (hi : Stopping s) (h : ClientStep c s s') : Stopping s' := by
  have hf := h.frame.threads
  refine ⟨fun i => ?_, fun d i hlt => ?_, fun d i hm => ?_⟩
  · rw [(hf i).1, (hf i).2.1]
    exact hi.running i
  · by_cases hdc : d = c
    · subst hdc
      exact (h.asked hlt).elim (fun hlt => h.keepsAsked (hi.asked d i hlt)) id
    · rw [h.others d hdc] at hlt
      exact h.keepsAsked (hi.asked d i hlt)
  · by_cases hdc : d = c
    · subst hdc
      exact (h.marks hm).elim (fun hm => (hi.marked d i hm).frame (hf i).2.1 h.keeps) id
    · rw [h.others d hdc] at hm
      exact (hi.marked d i hm).frame (hf i).2.1 h.keeps

omit [DecidableEq Cl] in
theorem WorkerStep.runningTask (h : WorkerStep isEndTask i e s s') (hg : (s.threads i).pc.guards = false) :
    (s'.threads i).runningTask = (s.threads i).runningTask := by
  cases h with
  | thread h =>
    rw [setWorld_threads_self]
    exact h.runningTask hg
  | count | notLast | last => simp [setThread, WorkerThread.goto]

omit [DecidableEq Cl] in
theorem WorkerStep.keepsAsked (h : WorkerStep isEndTask i e s s') (j : Fin n)
    (hf : (s.threads j).thread.isRequestCancel = true) : (s'.threads j).thread.isRequestCancel = true := by
  by_cases hji : j = i
  · subst hji
    cases h with
    | thread h => rw [setWorld_threads_self]; cases h <;> exact hf
    | count | notLast | last => simpa [setThread, WorkerThread.goto] using hf
  · rwa [h.others j hji]

omit [DecidableEq Cl] in
theorem WorkerStep.running (h : WorkerStep isEndTask i e s s')
    (hi : ∀ k t p, (s.threads i).pc = .run k t p → (s.threads i).runningTask = some (.task t)) :
    ∀ k t p, (s'.threads i).pc = .run k t p → (s'.threads i).runningTask = some (.task t) := by
  cases h with
  | thread h =>
    rw [setWorld_threads_self]
    exact h.running hi
  | count | notLast | last =>
    intro k t p hpc
    simp [setThread, WorkerThread.goto] at hpc

omit [DecidableEq Cl] in
/-- While a client is between the mark and the release, the worker keeps its task. -/
theorem Asked.workerStep (ha : Asked s i) (hg : (s.threads i).pc.guards = false) {j : Fin n}
    (h : WorkerStep isEndTask j e s s') : Asked s' i := by
  refine ha.frame ?_ h.keeps
  by_cases hij : i = j
  · subst hij
    exact h.runningTask hg
  · rw [h.others i hij]

omit [DecidableEq Cl] [DecidableEq T] in
theorem Guards.not_popping (hg : Guards s) (hc : (s.client c).guards i = true) :
    (s.threads i).pc.guards = false := by
  by_contra hw
  have hworker := hg.worker i (by simpa using hw)
  rw [hg.client c i hc] at hworker
  cases hworker

omit [DecidableEq Cl] in
theorem Stopping.workerStep (hi : Stopping s) (hg : Guards s) (h : WorkerStep isEndTask i e s s') : Stopping s' := by
  have hclient := h.rest.2.1
  refine ⟨fun j => ?_, fun d j hlt => ?_, fun d j hm => ?_⟩
  · by_cases hji : j = i
    · subst hji
      exact h.running (hi.running j)
    · rw [h.others j hji]
      exact hi.running j
  · rw [hclient] at hlt
    exact h.keepsAsked j (hi.asked d j hlt)
  · rw [hclient] at hm
    exact (hi.marked d j hm).workerStep (hg.not_popping (ClientPC.hasMarked_guards hm)) h

omit [DecidableEq Cl] [DecidableEq T] in
/-- The clients and what `StopNow` has asked stay as they are. -/
theorem Stopping.frame (hi : Stopping s) (hf : Frame s s') (hk : Keeps s s') (hc : s'.client = s.client)
    (hflag : ∀ i, (s'.threads i).thread.isRequestCancel = (s.threads i).thread.isRequestCancel) : Stopping s' := by
  refine ⟨fun i => ?_, fun d i hlt => ?_, fun d i hm => ?_⟩
  · rw [(hf.threads i).1, (hf.threads i).2.1]
    exact hi.running i
  · rw [hc] at hlt
    rw [hflag i]
    exact hi.asked d i hlt
  · rw [hc] at hm
    exact (hi.marked d i hm).frame (hf.threads i).2.1 hk

theorem Reachable.stopping {ok : FixedThreadPool n Cl T → Action n Cl T → Prop}
    (h : (system n Cl isEndTask).Reachable ok s) : Stopping s := by
  refine h.induct (I := Stopping) ?_ ?_
  · exact ⟨by simp [system, new, WorkerThread.absent], by simp [system, new, ClientPC.asked],
      by simp [system, new, ClientPC.hasMarked]⟩
  · intro s a s' hr _ hs hi
    cases step_cases hs with
    | @start k hk hc =>
      have hquiet := (Reachable.quiet hr (by rw [hc]; simp)).1
      refine ⟨fun i j t p hpc => ?_, fun d i hlt => ?_, fun d i hm => ?_⟩
      · by_cases hik : i = ⟨k, hk⟩
        · subst hik
          simp at hpc
        · simp only [setThread_threads_of_ne _ hik] at hpc ⊢
          exact hi.running i j t p hpc
      · have hlt : i.val < (s.client d).asked n := hlt
        rw [hquiet d] at hlt
        cases hlt
      · have hm : (s.client d).hasMarked i = true := hm
        rw [hquiet d] at hm
        cases hm
    | started | constructed => exact ⟨hi.running, hi.asked, hi.marked⟩
    | @call c m hctor hidle =>
      refine ⟨hi.running, fun d i hlt => ?_, fun d i hm => ?_⟩
      · by_cases hdc : d = c
        · subst hdc
          cases m <;> simp [goto, Method.start, ClientPC.asked] at hlt
        · exact hi.asked d i (by simpa [goto, hdc] using hlt)
      · by_cases hdc : d = c
        · subst hdc
          cases m <;> simp [goto, Method.start, ClientPC.hasMarked] at hm
        · exact hi.marked d i (by simpa [goto, hdc] using hm)
    | client hidle hs => exact hi.clientStep hs
    | worker hs => exact hi.workerStep (Reachable.guards hr) hs
    | timer htm hs => exact hi.frame hs.frame hs.keeps hs.client fun i => by cases hs <;> rfl
    | wake w =>
      refine hi.frame (wakeStep_frame w) (wakeStep_keeps w) (by cases w <;> rfl) fun i => ?_
      cases w with
      | thread j c =>
        by_cases hij : i = j
        · subst hij
          simp [wakeStep, CancelableThread.wake]
        · simp [wakeStep, hij]
      | _ => rfl

end Stopping

/-! ## What the workers run after that -/

section Quits

/-- `StopNow` has released the guard of the worker; the worker has ended so many `Run`s since. -/
structure Release where
  released : Bool
  ended : Nat

/-- The record after a step. -/
def Release.note (s : FixedThreadPool n Cl T) : Action n Cl T → (Fin n → Release) → Fin n → Release
  | .client c _, r, i => match s.client c with
    | .unlockRunningTask j _ => if i.val = j then { r i with released := true } else r i
    | _ => r i
  | .worker j _, r, i =>
    if i = j ∧ (r i).released = true ∧ (s.threads i).pc.ends = true then { r i with ended := (r i).ended + 1 } else r i
  | .construct, r, i | .call _ _, r, i | .timer _, r, i | .wake _, r, i => r i

/-- The pool with this record for each worker. -/
def recorded (n : Nat) (Cl : Type*) {T : Type*} [DecidableEq Cl] [DecidableEq T] (isEndTask : T → Bool) :
    System (FixedThreadPool n Cl T × (Fin n → Release)) (Action n Cl T) :=
  (system n Cl isEndTask).observe (fun _ => ⟨false, 0⟩) Release.note

/-- A worker whose guard was released runs nothing but the task it has, which was asked to cancel. -/
structure Quits (s : FixedThreadPool n Cl T) (i : Fin n) (r : Release) : Prop where
  fresh : r.released = false → r.ended = 0
  ctor : r.released = true → s.ctor = .done
  cancel : r.released = true → (s.threads i).thread.isRequestCancel = true
  asked : r.released = true → (s.threads i).pc.started = true → Asked s i
  ended : r.released = true → r.ended + (s.threads i).pc.started.toNat ≤ 1

variable [DecidableEq Cl] [DecidableEq T] {s s' : FixedThreadPool n Cl T} {c : Cl} {i j : Fin n} {e : Exit}
  {r : Release}

omit [DecidableEq Cl] [DecidableEq T] in
/-- The worker is left where it is. -/
theorem Quits.frame (hi : Quits s i r) (hf : Frame s s') (hk : Keeps s s')
    (hflag : (s.threads i).thread.isRequestCancel = true → (s'.threads i).thread.isRequestCancel = true) :
    Quits s' i r := by
  refine ⟨hi.fresh, fun hr => hf.ctor.trans (hi.ctor hr), fun hr => hflag (hi.cancel hr), fun hr hs => ?_, fun hr => ?_⟩
  · rw [(hf.threads i).1] at hs
    exact (hi.asked hr hs).frame (hf.threads i).2.1 hk
  · rw [(hf.threads i).1]
    exact hi.ended hr

omit [DecidableEq Cl] in
/-- A worker that was asked to cancel does not get past its second check. -/
theorem WorkerStep.quits (h : WorkerStep isEndTask i e s s') (hf : (s.threads i).thread.isRequestCancel = true)
    (hs : (s'.threads i).pc.started = true) : (s.threads i).pc.started = true ∧ (s.threads i).pc.ends = false := by
  cases h with
  | thread h =>
    rw [setWorld_threads_self] at hs
    exact h.quits hf hs
  | count | notLast | last => simp [setThread, WorkerThread.goto, WorkerThread.PC.started] at hs

omit [DecidableEq Cl] in
theorem Quits.workerStep (hi : Quits s i r) (h : WorkerStep isEndTask i e s s') :
    Quits s' i (if r.released = true ∧ (s.threads i).pc.ends = true then { r with ended := r.ended + 1 } else r) := by
  have hcancel : r.released = true → (s'.threads i).thread.isRequestCancel = true := fun hr =>
    h.keepsAsked i (hi.cancel hr)
  have hctor : r.released = true → s'.ctor = .done := fun hr => h.rest.1.trans (hi.ctor hr)
  have hasked : r.released = true → (s'.threads i).pc.started = true → Asked s' i := by
    intro hr hs
    have hstarted := (h.quits (hi.cancel hr) hs).1
    refine (hi.asked hr hstarted).workerStep ?_ h
    cases hpc : (s.threads i).pc <;> rw [hpc] at hstarted <;> first | rfl | cases hstarted
  split
  · rename_i hends
    obtain ⟨hr, hends⟩ := hends
    refine ⟨fun hn => ?_, hctor, hcancel, hasked, fun _ => ?_⟩
    · rw [hr] at hn
      cases hn
    have hold := hi.ended hr
    rw [WorkerThread.PC.ends_started hends] at hold
    cases hs : (s'.threads i).pc.started with
    | false => simpa using hold
    | true =>
      rw [(h.quits (hi.cancel hr) hs).2] at hends
      cases hends
  · refine ⟨hi.fresh, hctor, hcancel, hasked, fun hr => ?_⟩
    have hold := hi.ended hr
    cases hs : (s'.threads i).pc.started with
    | false => exact Nat.le_trans (Nat.le_add_right _ _) hold
    | true =>
      rw [(h.quits (hi.cancel hr) hs).1] at hold
      exact hold

/-- `StopNow` releases the guard. -/
theorem Quits.release (hi : Quits s i r) (hstop : Stopping s) (hctor : s.ctor = .done) (h : ClientStep c s s')
    {raised : Bool} (hpc : s.client c = .unlockRunningTask i raised) : Quits s' i { r with released := true } := by
  have hmarked : Asked s i := hstop.marked c i (by simp [hpc, ClientPC.hasMarked])
  have hflag : (s.threads i).thread.isRequestCancel = true := hstop.asked c i (by rw [hpc]; exact i.isLt)
  have hf := h.frame
  refine ⟨by simp, fun _ => hf.ctor.trans hctor, fun _ => h.keepsAsked hflag, fun _ _ => ?_, fun _ => ?_⟩
  · exact hmarked.frame (hf.threads i).2.1 h.keeps
  · rw [(hf.threads i).1]
    show r.ended + (s.threads i).pc.started.toNat ≤ 1
    cases hr : r.released with
    | true => exact hi.ended hr
    | false =>
      rw [hi.fresh hr, Nat.zero_add]
      exact Bool.toNat_le _

theorem Reachable.quits {x : FixedThreadPool n Cl T × (Fin n → Release)}
    (h : (recorded n Cl isEndTask).Reachable Anything x) : ∀ i, Quits x.1 i (x.2 i) := by
  refine h.induct (I := fun x => ∀ i, Quits x.1 i (x.2 i)) ?_ ?_
  · intro i
    constructor <;> simp [recorded, System.observe]
  · rintro ⟨s, r⟩ a ⟨s', r'⟩ hx - hs hi i
    have hreach : (system n Cl isEndTask).Reachable Anything s := System.Reachable.forget_any hx
    obtain ⟨hs, hr⟩ := System.observe_step hs
    obtain rfl : r' = Release.note s a r := hr
    have hi := hi i
    simp only at hi hs ⊢
    cases step_cases hs with
    | @start k hk hc =>
      have hno : (r i).released ≠ true := fun hr => by
        have := hi.ctor hr
        rw [hc] at this
        cases this
      exact ⟨hi.fresh, fun hr => absurd hr hno, fun hr => absurd hr hno, fun hr => absurd hr hno,
          fun hr => absurd hr hno⟩
    | started hc =>
      have hno : (r i).released ≠ true := fun hr => by
        have := hi.ctor hr
        rw [hc] at this
        cases this
      exact ⟨hi.fresh, fun hr => absurd hr hno, fun hr => absurd hr hno, fun hr => absurd hr hno,
          fun hr => absurd hr hno⟩
    | constructed hc => exact ⟨hi.fresh, fun _ => rfl, hi.cancel, hi.asked, hi.ended⟩
    | call => exact ⟨hi.fresh, hi.ctor, hi.cancel, hi.asked, hi.ended⟩
    | @client c inp s' hidle hs =>
      have hctor : s.ctor = .done := by
        by_contra hc
        exact hidle ((Reachable.quiet hreach hc).1 c)
      by_cases hpc : ∃ raised, s.client c = .unlockRunningTask i raised
      · obtain ⟨raised, hpc⟩ := hpc
        have hnote : Release.note s (.client c inp) r i = { r i with released := true } := by simp [Release.note, hpc]
        rw [hnote]
        exact hi.release (Reachable.stopping hreach) hctor hs hpc
      · have hnote : Release.note s (.client c inp) r i = r i := by
          simp only [Release.note]
          split
          · rename_i j raised hj
            have hij : i.val ≠ j := fun h => hpc ⟨raised, by rw [hj, h]⟩
            rw [if_neg hij]
          · rfl
        rw [hnote]
        exact hi.frame hs.frame hs.keeps hs.keepsAsked
    | @worker j e s' hs =>
      by_cases hij : i = j
      · subst hij
        have hnote : Release.note s (.worker i e) r i = if (r i).released = true ∧ (s.threads i).pc.ends = true then
            { r i with ended := (r i).ended + 1 } else r i := by simp [Release.note]
        rw [hnote]
        exact hi.workerStep hs
      · have hnote : Release.note s (.worker j e) r i = r i := by simp [Release.note, hij]
        have hsame := hs.others i hij
        rw [hnote]
        refine ⟨hi.fresh, fun hr => hs.rest.1.trans (hi.ctor hr), fun hr => ?_, fun hr hstarted => ?_, fun hr => ?_⟩
        · rw [hsame]
          exact hi.cancel hr
        · rw [hsame] at hstarted
          exact (hi.asked hr hstarted).frame (by rw [hsame]) hs.keeps
        · rw [hsame]
          exact hi.ended hr
    | timer htm hs => exact hi.frame hs.frame hs.keeps (by cases hs <;> exact id)
    | wake w =>
      refine hi.frame (wakeStep_frame w) (wakeStep_keeps w) ?_
      cases w with
      | thread j c =>
        by_cases hij : i = j
        · subst hij
          simp [wakeStep, CancelableThread.wake]
        · simp [wakeStep, hij]
      | _ => exact id

/-- **StopNow asks every running task to stop.** Once a `StopNow` has released the guard of a worker, every task that
the worker executes was asked to cancel, and the worker ends one `Run` at most. -/
theorem stopNow_asks {x : FixedThreadPool n Cl T × (Fin n → Release)}
    (h : (recorded n Cl isEndTask).Reachable Anything x) (hr : (x.2 i).released = true) :
    (∀ k t p, (x.1.threads i).pc = .run k t p → (x.1.task t).isRequestCancel = true) ∧ (x.2 i).ended ≤ 1 := by
  have hi := Reachable.quits h i
  have hstop := Reachable.stopping (System.Reachable.forget_any h)
  refine ⟨fun k t p hpc => ?_, Nat.le_trans (Nat.le_add_right _ _) (hi.ended hr)⟩
  exact hi.asked hr (by rw [hpc]; rfl) t (hstop.running i k t p hpc)

/-- `StopNow` stops a pool of two workers while one of them executes a task. -/
theorem stopNow_asks_run : ∃ x : FixedThreadPool 2 Unit Unit × (Fin 2 → Release), (x.1.threads 0).pc.started = true ∧
    (∀ k t p, (x.1.threads 0).pc = .run k t p → (x.1.task t).isRequestCancel = true) ∧ (x.2 0).ended ≤ 1 := by
  obtain ⟨x, hx, hp⟩ := System.reachable_of_exec (recorded 2 Unit fun _ : Unit => false) Anything
    (List.replicate 4 .construct ++ [.call () (.addTask (some ()))] ++ List.replicate 2 (.client () ⟨.ret, 0, 0⟩) ++
      List.replicate 10 (.worker 0 .ret) ++ [.call () .stopNow] ++ List.replicate 12 (.client () ⟨.ret, 0, 0⟩))
    (fun x => (x.2 0).released && (x.1.threads 0).pc.started) (by decide)
  simp only [Bool.and_eq_true] at hp
  exact ⟨x, hp.2, stopNow_asks hx hp.1⟩

end Quits

end FixedThreadPool

end Tpool
