import Tpool.Pool.Fair
import Tpool.Pool.Tasks

/-!
# Results of tasks

- `hasResult`: a `DoRun` of the task has returned, so that `FutureTask::GetResult` returns. `gets`: the `DoRun` of a
  task that calls `GetResult` of others goes on when their results are there.
- `step_returned`: what one step adds to the record of what has returned: what a worker has run.
- `Resulted`: a `Run` that has got beyond `DoRun` has left a result, or the task was asked to cancel.
- `ResultsKept`: nobody asks a task to cancel whose result is waited for.
-/

namespace Tpool.FixedThreadPool

open Concurrency Tpool.Core System

variable {n : Nat} {Cl T : Type*} [DecidableEq T] {isEndTask : T → Bool} {s s' : FixedThreadPool n Cl T} {i : Fin n}
  {t : T}
  {e : Exit}

/-- A `DoRun` of the task has returned, and set `m_isResultReturned`. -/
def hasResult (s : FixedThreadPool n Cl T) (t : T) : Bool := decide (t ∈ s.returned)

/-- `DoRun` first calls `GetResult` of the tasks `results t`: it is left only when these have their results. -/
def gets (results : T → List T) (s : FixedThreadPool n Cl T) : Action n Cl T → Bool
  | .worker i _ => match (s.threads i).pc with
    | .run _ t .doRun => (results t).all s.hasResult
    | _ => true
  | _ => true

/-! ## What has returned -/

omit [DecidableEq T] in
/-- Only a `DoRun` that returns is noted. -/
theorem note_cases (returned : List T) (t : T) (p : TaskBase.RunPC) (e : Exit) :
    WorkerThread.note returned t p e = returned ∨
      (p = .doRun ∧ e = .ret ∧ WorkerThread.note returned t p e = returned ++ [t]) := by
  cases p with
  | doRun =>
    cases e with
    | ret => exact Or.inr ⟨rfl, rfl, rfl⟩
    | cancel | other => exact Or.inl rfl
  | _ => exact Or.inl rfl

theorem WorkerStep.returned (h : WorkerStep isEndTask i e s s') : s'.returned = s.returned ∨
    ∃ k t, (s.threads i).pc = .run k t .doRun ∧ e = .ret ∧ s'.returned = s.returned ++ [t] := by
  cases h with
  | thread h =>
    cases h with
    | @run k t p b p' hpc hr =>
      rcases note_cases s.returned t p e with heq | ⟨rfl, rfl, heq⟩
      · exact Or.inl heq
      · exact Or.inr ⟨k, t, hpc, rfl, heq⟩
    | _ => exact Or.inl rfl
  | count | notLast | last => exact Or.inl rfl

/-- The timer thread gets to no `DoRun` of a user's task. -/
theorem TimerStep.returned (h : TimerStep s s') (hi : TimerSound s) : s'.returned = s.returned := by
  cases h with
  | @run tm id task p e b p' htm hpc =>
    exact (note_cases s.returned task.task p e).resolve_right fun hdo => (hi tm id p htm hpc).1.2.1 hdo.1
  | _ => rfl

variable [DecidableEq Cl] {ok : FixedThreadPool n Cl T → Action n Cl T → Prop} {a : Action n Cl T} {c : Cl}

/-- **What one step adds to what has returned.** -/
theorem step_returned (h : PoolStep isEndTask s a s') (hi : TimerSound s) : s'.returned = s.returned ∨
    ∃ i k t, a = .worker i .ret ∧ (s.threads i).pc = .run k t .doRun ∧ s'.returned = s.returned ++ [t] := by
  cases h with
  | start | started | constructed | call => exact Or.inl rfl
  | client _ hs => exact Or.inl (by cases hs <;> rfl)
  | @worker i e s' hs =>
    rcases hs.returned with heq | ⟨k, t, hpc, rfl, heq⟩
    · exact Or.inl heq
    · exact Or.inr ⟨i, k, t, rfl, hpc, heq⟩
  | timer _ hs => exact Or.inl (hs.returned hi)
  | wake w => exact Or.inl (by cases w <;> rfl)

theorem stable_hasResult (t : T) : (system n Cl isEndTask).Stable ok fun s => s.hasResult t = true := by
  intro s a s' hr _ hs h
  rcases step_returned (step_cases hs) (Reachable.timerSound hr) with heq | ⟨_, _, _, -, -, heq⟩
  · simpa [hasResult, heq] using h
  · exact decide_eq_true (heq ▸ List.mem_append_left _ (of_decide_eq_true h))

/-! ## Beyond `DoRun` -/

/-- The task has a result, or was asked to cancel. -/
def Resolved (t : T) (s : FixedThreadPool n Cl T) : Prop := s.hasResult t = true ∨ (s.task t).isRequestCancel = true

theorem stable_resolved (t : T) : (system n Cl isEndTask).Stable ok (Resolved t) := fun s a s' hr ha hs =>
  Or.imp (stable_hasResult t s a s' hr ha hs) ((step_cases hs).keeps.isRequestCancel t)

/-- A `Run` that has ended, or has got beyond `DoRun` and is going to end, has left a result, unless the task was asked
to cancel. -/
structure Resulted (s : FixedThreadPool n Cl T) : Prop where
  stopped : ∀ i j, (i, .stop j) ∈ s.runs → ∃ t, s.taskQueue.pushes[j]? = some (.task t) ∧ s.Resolved t
  running : ∀ i k t p, (s.threads i).pc = .run k t p → p.rank < 4 → p ≠ .raised → s.Resolved t

omit [DecidableEq Cl] in
/-- `Run` gets beyond `DoRun` with the result, or with the request. -/
theorem run_beyond {b b' : TaskBase Cl} {p p' : TaskBase.RunPC} (h : b.run p e = some (b', p')) (hp : p'.rank < 4)
    (hraised : p' ≠ .raised) : (p.rank < 4 ∧ p ≠ .raised) ∨ b.isRequestCancel = true ∨ (p = .doRun ∧ e = .ret) := by
  cases p with
  | checkCancellation =>
    cases hf : b.isRequestCancel with
    | true => exact Or.inr (Or.inl rfl)
    | false =>
      simp only [TaskBase.run, hf, Option.some.injEq] at h
      cases h
      exact absurd hp (by decide)
  | setRunning =>
    cases h
    exact absurd hp (by decide)
  | doRun =>
    cases e with
    | ret => exact Or.inr (Or.inr ⟨rfl, rfl⟩)
    | cancel =>
      simp only [TaskBase.run] at h
      split at h
      · exact Or.inr (Or.inl ‹_›)
      · cases h
    | other =>
      cases h
      exact absurd rfl hraised
  | raised => cases h
  | setFinished | setCancelled | onCancel | notify | ret => exact Or.inl ⟨by decide, by decide⟩

omit [DecidableEq Cl] in
/-- What a step has to show: the `Run`s that it ends, and the workers that it takes beyond `DoRun`. -/
theorem Resulted.next (hi : Resulted s) (hpush : s.taskQueue.pushes <+: s'.taskQueue.pushes)
    (keep : ∀ t, s.Resolved t → s'.Resolved t)
    (hstop : ∀ i j, (i, .stop j) ∈ s'.runs → (i, .stop j) ∈ s.runs ∨
      ∃ t, s'.taskQueue.pushes[j]? = some (.task t) ∧ s'.Resolved t)
    (hpc : ∀ i k t p, (s'.threads i).pc = .run k t p → p.rank < 4 → p ≠ .raised →
      (s.threads i).pc = .run k t p ∨ s'.Resolved t) : Resulted s' := by
  refine ⟨fun i j hj => ?_, fun i k t p hj hp hraised => ?_⟩
  · rcases hstop i j hj with hold | hnew
    · obtain ⟨t, ht, hres⟩ := hi.stopped i j hold
      exact ⟨t, getElem?_grow hpush ht, keep t hres⟩
    · exact hnew
  · exact (hpc i k t p hj hp hraised).elim (fun hold => keep t (hi.running i k t p hold hp hraised)) id

theorem Resulted.worker (hi : Resulted s) (hr : (system n Cl isEndTask).Reachable ok s) (ha : ok s (.worker i e))
    (h : (system n Cl isEndTask).step s (.worker i e) = some s') : Resulted s' := by
  have hstep := step_cases h
  have keep : ∀ t, s.Resolved t → s'.Resolved t := fun t => stable_resolved t s _ s' hr ha h
  -- the other workers stay where they are
  have next (hstop : ∀ j l, (j, .stop l) ∈ s'.runs → (j, .stop l) ∈ s.runs ∨
        ∃ t, s'.taskQueue.pushes[l]? = some (.task t) ∧ s'.Resolved t)
      (hself : ∀ k t p, (s'.threads i).pc = .run k t p → p.rank < 4 → p ≠ .raised → s'.Resolved t) : Resulted s' := by
    refine hi.next hstep.pops.1 keep hstop fun j k t p hpc hp hraised => ?_
    by_cases hji : j = i
    · subst hji
      exact Or.inr (hself k t p hpc hp hraised)
    · rcases hstep with _ | _ | _ | _ | _ | hs
      exact Or.inl (by rw [← hs.others j hji]; exact hpc)
  cases hstep with
  | worker hs =>
    have hholds := (Reachable.shape hr i).holds
    cases hs with
    | thread hs =>
      cases hs with
      | @run k t p b p' hpc hr' =>
        have hpc : (s.threads i).pc = .run k t p := hpc
        refine next (fun _ _ hj => Or.inl hj) fun k' t' q hq hrank hraised => ?_
        rw [setWorld_threads_self] at hq
        cases hq
        rcases run_beyond hr' hrank hraised with ⟨hlt, hne⟩ | hflag | ⟨rfl, rfl⟩
        · exact keep t (hi.running i k t p hpc hlt hne)
        · exact keep t (Or.inr hflag)
        · exact Or.inl (decide_eq_true (List.mem_append_right _ (List.mem_singleton_self t)))
      | @stop k t hpc =>
        have hpc : (s.threads i).pc = .run k t .ret := hpc
        rw [hpc] at hholds
        refine next (fun j l hj => ?_) fun l u p hj _ _ => by rw [setWorld_threads_self] at hj; cases hj
        rcases List.mem_append.mp hj with hold | hnew
        · exact Or.inl hold
        · cases List.mem_singleton.mp hnew
          exact Or.inr ⟨t, hholds.1, keep t (hi.running i k t .ret hpc (by decide) (by decide))⟩
      | @start k t hpc =>
        refine next (fun j l hj => ?_) fun l u p hj hp _ => ?_
        · rcases List.mem_append.mp hj with hold | hnew
          · exact Or.inl hold
          · cases List.mem_singleton.mp hnew
        · rw [setWorld_threads_self] at hj
          cases hj
          exact absurd hp (by decide)
      | _ => exact next (fun _ _ hj => Or.inl hj) fun l v q hq => by rw [setWorld_threads_self] at hq; cases hq
    | count | notLast | last =>
      exact next (fun _ _ hj => Or.inl hj) fun l v q hq => by simp [setThread, WorkerThread.goto] at hq

/-- **A `Run` that has ended has left a result**, unless the task was asked to cancel. -/
theorem Reachable.resulted (h : (system n Cl isEndTask).Reachable ok s) : Resulted s := by
  refine h.induct ⟨fun _ _ hmem => (by cases hmem), fun _ _ _ _ hpc => (by cases hpc)⟩ fun s a s' hr ha hs hi => ?_
  have hstep := step_cases hs
  have keep : ∀ t, s.Resolved t → s'.Resolved t := fun t => stable_resolved t s a s' hr ha hs
  -- nobody runs anything and no worker moves
  have out (hruns : s'.runs = s.runs) (hpc : ∀ i, (s'.threads i).pc = (s.threads i).pc) : Resulted s' :=
    hi.next hstep.pops.1 keep (fun _ _ hj => Or.inl (hruns ▸ hj)) fun i _ _ _ hj _ _ => Or.inl ((hpc i).symm.trans hj)
  cases hstep with
  | @start l hl =>
    refine hi.next List.prefix_rfl keep (fun _ _ hj => Or.inl hj) fun j k t p hj _ _ => Or.inl ?_
    by_cases hjl : j = ⟨l, hl⟩
    · subst hjl
      simp at hj
    · simpa [hjl] using hj
  | started | constructed | call => exact out rfl fun _ => rfl
  | client _ hs => exact out (by cases hs <;> rfl) fun i => (hs.frame.threads i).1
  | worker => exact hi.worker hr ha hs
  | timer _ hs => exact out (by cases hs <;> rfl) fun i => (hs.frame.threads i).1
  | wake w => exact out (by cases w <;> rfl) fun i => ((wakeStep_frame w).threads i).1

/-! ## Tasks that wait for others -/

/-- The tasks up to the position `j` get only results of tasks that were pushed before them. -/
def GetsEarlier (results : T → List T) (j : Nat) (s : FixedThreadPool n Cl T) : Prop :=
  ∀ l ≤ j, ∀ t, s.taskQueue.pushes[l]? = some (.task t) → ∀ u ∈ results t,
    ∃ m < l, s.taskQueue.pushes[m]? = some (.task u)

/-- A task whose result one of the tasks up to the position `j` gets was not asked to cancel before it had one. -/
def ResultsKept (results : T → List T) (j : Nat) (s : FixedThreadPool n Cl T) : Prop :=
  ∀ l ≤ j, ∀ t, s.taskQueue.pushes[l]? = some (.task t) → ∀ u ∈ results t, (s.task u).isRequestCancel = true →
    s.hasResult u = true

/-- So it has its result when its `Run` has ended. -/
theorem ResultsKept.hasResult {results : T → List T} {j l m : Nat} {u : T} (hk : s.ResultsKept results j)
    (h : (system n Cl isEndTask).Reachable ok s) (hl : l ≤ j) (ht : s.taskQueue.pushes[l]? = some (.task t))
    (hu : u ∈ results t) (hm : s.taskQueue.pushes[m]? = some (.task u)) (hrun : ∃ i, (i, .stop m) ∈ s.runs) :
    s.hasResult u = true := by
  obtain ⟨i, hi⟩ := hrun
  obtain ⟨v, hv, hres⟩ := (Reachable.resulted h).stopped i m hi
  cases hm.symm.trans hv
  exact hres.elim id (hk l hl t ht u hu)

end Tpool.FixedThreadPool
