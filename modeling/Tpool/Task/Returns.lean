import Tpool.Concurrency.Project
import Tpool.Concurrency.Returns
import Tpool.Task.FutureTask

/-!
# Calls of a FutureTask that return

- `Reachable.place`: where a thread stands in the task while it is in a method that locks `m_resultCondition`.
- `projects`: a fair run of the whole shows a fair run of the monitor.
- `completes`: a `Run` that has passed its check completes its `Call`.
- `future_returns`: `TryGetResult` returns, and `GetResult` does unless no `Call` is ever completed; so it does when the
  task stops at some point, or a `Run` passes its check.
-/

namespace Tpool

open Concurrency Concurrency.Monitor Concurrency.System

namespace FutureTask

variable {Tid R : Type*}

/-- The thread that makes a step. -/
def Action.party : Action Tid R → Option Tid
  | .step t _ _ => some t
  | .call _ _ | .get _ _ | .wakeCancel _ | .wakeResult _ => none

/-- Where a thread that is in the method stands in the task. -/
def Method.place : Method R → TaskBase.PC
  | .doRun _ => .run .doRun
  | .getResult | .tryGetResult => .idle

section Steps

variable [DecidableEq Tid] {init : R} {s s' : FutureTask Tid R} {t : Tid} {ok : FutureTask Tid R → Action Tid R → Prop}

/-- A move of the task is one of one thread. -/
theorem task_frame {th th' : TaskBase.Threads Tid} {b : TaskBase.Action Tid} (h : TaskBase.step th b = some th')
    {u : Tid}
    (hu : ∀ c, b ≠ .call u c) (hu' : ∀ e, b ≠ .step u e) : th'.pc u = th.pc u := by
  cases b with
  | call t c =>
    have hne : u ≠ t := fun h => hu c (h ▸ rfl)
    simp only [TaskBase.step] at h
    split at h
    · cases h
      exact Function.update_of_ne hne _ _
    · cases h
  | wake t =>
    obtain ⟨b, -, rfl⟩ := Option.map_eq_some_iff.mp h
    rfl
  | step t e =>
    have hne : u ≠ t := fun h => hu' e (h ▸ rfl)
    simp only [TaskBase.step] at h
    split at h
    · cases h
    · cases h
      exact Function.update_of_ne hne _ _
    · cases h
      exact Function.update_of_ne hne _ _
    · cases h
      exact Function.update_of_ne hne _ _
    · cases h
      exact Function.update_of_ne hne _ _
    · obtain ⟨⟨b, p⟩, -, rfl⟩ := Option.map_eq_some_iff.mp h
      exact Function.update_of_ne hne _ _
    · obtain ⟨⟨b, p⟩, -, rfl⟩ := Option.map_eq_some_iff.mp h
      exact Function.update_of_ne hne _ _

/-- A `Run` that has passed its check goes on to `DoRun`, and out of it. -/
theorem task_begun {th th' : TaskBase.Threads Tid} {b : TaskBase.Action Tid} (h : TaskBase.step th b = some th')
    {u : Tid}
    (hu : th.pc u = .run .setRunning ∨ th.pc u = .run .doRun) :
    th'.pc u = th.pc u ∨ (∃ e, b = .step u e) ∧ (th.pc u = .run .setRunning → th'.pc u = .run .doRun) := by
  by_cases hstep : ∃ e, b = .step u e
  · obtain ⟨e, rfl⟩ := hstep
    refine Or.inr ⟨⟨e, rfl⟩, fun hset => ?_⟩
    simp only [TaskBase.step, hset, TaskBase.run, Option.map_some, Option.some.injEq] at h
    rw [← h]
    exact TaskBase.goto_self ..
  · refine Or.inl (task_frame h (fun c hc => ?_) fun e he => hstep ⟨e, he⟩)
    subst hc
    rcases hu with hu | hu <;> simp [TaskBase.step, hu] at h

/-- **Where the two meet.** -/
theorem Reachable.place (h : (system Tid init).Reachable ok s) :
    ∀ t m, (s.monitor.pc t).method = some m → s.threads.pc t = m.place := by
  refine h.induct (I := fun s => ∀ t m, (s.monitor.pc t).method = some m → s.threads.pc t = m.place)
    (fun t m hm => by cases hm) ?_
  intro s a s' _ _ (hs : s.step a = some s') hi
  -- a move of the monitor alone
  have mon : ∀ b, s.monitorStep b = some s' → (∀ t m, b = .call t m → s.threads.pc t = m.place) →
      ∀ t m, (s'.monitor.pc t).method = some m → s'.threads.pc t = m.place := by
    intro b hb hcall t m hm
    obtain ⟨hnext, hth, -⟩ := monitorStep_cases hb
    rw [hth]
    rcases next_method hnext hm with hm | rfl
    · exact hi t m hm
    · exact hcall t m rfl
  -- a move of the task, by a thread that is in no method afterwards
  have task : ∀ {th b}, TaskBase.step s.threads b = some th → s'.threads = th →
      (∀ t m, (s'.monitor.pc t).method = some m →
        (s.monitor.pc t).method = some m ∧ (∀ c, b ≠ .call t c) ∧ ∀ e, b ≠ .step t e) →
      ∀ t m, (s'.monitor.pc t).method = some m → s'.threads.pc t = m.place := by
    intro th b hb hth hmon t m hm
    obtain ⟨hm, hc, he⟩ := hmon t m hm
    rw [hth, task_frame hb hc he, hi t m hm]
  cases a with
  | call u c =>
    simp only [step] at hs
    split at hs
    · rename_i hidle
      obtain ⟨th, hth, rfl⟩ := Option.map_eq_some_iff.mp hs
      refine task hth rfl fun t m hm => ⟨hm, ?_, fun e h => (by cases h)⟩
      rintro c' ⟨⟩
      rw [hidle] at hm
      cases hm
    · cases hs
  | get u attempt =>
    simp only [step] at hs
    split at hs
    · rename_i hidle
      refine mon _ hs ?_
      rintro t m ⟨⟩
      rw [hidle]
      cases attempt <;> rfl
    · cases hs
  | wakeCancel u =>
    obtain ⟨th, hth, rfl⟩ := Option.map_eq_some_iff.mp hs
    exact task hth rfl fun t m hm => ⟨hm, fun c h => (by cases h), fun e h => (by cases h)⟩
  | wakeResult u => exact mon _ hs fun t m h => by cases h
  | step u e value =>
    simp only [step] at hs
    split at hs
    · rename_i hidle
      split at hs
      · rename_i hrun
        refine mon _ hs ?_
        rintro t m ⟨⟩
        exact hrun
      · obtain ⟨th, hth, rfl⟩ := Option.map_eq_some_iff.mp hs
        refine task hth rfl fun t m hm => ⟨hm, fun c h => (by cases h), ?_⟩
        rintro e' ⟨⟩
        rw [hidle] at hm
        cases hm
    · split at hs
      · cases hs
      · obtain ⟨s1, h1, rfl⟩ := Option.map_eq_some_iff.mp hs
        intro t m hm
        obtain ⟨hnext, hth, -⟩ := monitorStep_cases h1
        rcases next_method hnext hm with hm | h
        · exact (congrArg (fun th => th.pc t) hth).trans (hi t m hm)
        · cases h
    · rename_i r hpc
      obtain ⟨s1, h1, h2⟩ := Option.bind_eq_some_iff.mp hs
      obtain ⟨hnext, hth, -⟩ := monitorStep_cases h1
      obtain ⟨hth2, hm2⟩ := taskStep_cases h2
      rw [hth] at hth2
      refine task hth2 rfl fun t m hm => ?_
      rw [hm2] at hm
      have hut : t ≠ u := by
        rintro rfl
        simp only [Monitor.next, hpc, Option.some.injEq] at hnext
        rw [← hnext] at hm
        simp [State.goto, PC.method] at hm
      rcases next_method hnext hm with hm | h
      · exact ⟨hm, fun c h => (by cases h), by rintro e' ⟨⟩; exact hut rfl⟩
      · cases h
    · exact mon _ hs fun t m h => by cases h

/-- A thread in a method moves the monitor. -/
theorem step_inside {e : Exit} {value : R} (h : s.step (.step t e value) = some s') (ht : s.monitor.pc t ≠ .idle) :
    ∃ throws, Monitor.next code s.monitor (.step t throws) = some s'.monitor := by
  simp only [step] at h
  split at h
  · rename_i hidle
    exact absurd hidle ht
  · split at h
    · cases h
    · obtain ⟨s1, h1, rfl⟩ := Option.map_eq_some_iff.mp h
      exact ⟨_, (monitorStep_cases h1).1⟩
  · obtain ⟨s1, h1, h2⟩ := Option.bind_eq_some_iff.mp h
    exact ⟨false, by rw [(taskStep_cases h2).2]; exact (monitorStep_cases h1).1⟩
  · exact ⟨false, (monitorStep_cases h).1⟩

/-- A thread that can move in the monitor can move in the whole, where its `Call` returns. -/
theorem step_ret (hr : (system Tid init).Reachable Completes s) {throws : Bool}
    {m : Monitor.State Tid (Method R) Unit (Data R) (Ret R)}
    (h : Monitor.next code s.monitor (.step t throws) = some m) (value : R) :
    s.monitor.pc t ≠ .idle ∧ Completes s (.step t .ret value) ∧ ∃ s', s.step (.step t .ret value) = some s' := by
  have hplace := Reachable.place hr t
  have hproved := Reachable.proved hr
  have hidle : s.monitor.pc t ≠ .idle := fun hidle => by simp [Monitor.next, hidle] at h
  refine ⟨hidle, ⟨fun hcheck => ?_, fun _ => rfl⟩, ?_⟩
  · cases hpc : s.monitor.pc t with
    | idle => exact absurd hpc hidle
    | enter m | body m | blocked m | leave m =>
      have hm := hplace m (by rw [hpc]; rfl)
      rw [hcheck] at hm
      cases m <;> cases hm
  · cases hpc : s.monitor.pc t with
    | idle => exact absurd hpc hidle
    | enter m =>
      simp only [Monitor.next, hpc] at h
      split at h
      · rename_i hfree
        exact ⟨_, by simp only [step, hpc, monitorStep, Monitor.next, hfree, if_true, Option.map_some]; rfl⟩
      · cases h
    | blocked m c f rest x =>
      simp only [Monitor.next, hpc] at h
      split at h
      · rename_i hfree
        exact ⟨_, by simp only [step, hpc, monitorStep, Monitor.next, hfree]; simp; rfl⟩
      · cases h
    | body m rest x =>
      obtain ⟨m', hm'⟩ : ∃ m', Monitor.next code s.monitor (.step t false) = some m' :=
        hproved.holder_moves (by rw [hpc]; rfl)
      cases m with
      | doRun v => exact ⟨_, by simp [step, hpc, monitorStep, hm']; rfl⟩
      | getResult | tryGetResult => exact ⟨_, by simp only [step, hpc, monitorStep, hm', Option.map_some]; rfl⟩
    | leave m x =>
      obtain ⟨m', hm'⟩ : ∃ m', Monitor.next code s.monitor (.step t false) = some m' :=
        hproved.holder_moves (by rw [hpc]; rfl)
      cases m with
      | doRun v =>
        have hrun : s.threads.pc t = .run .doRun := hplace (.doRun v) (by rw [hpc]; rfl)
        cases x with
        | none => exact absurd hpc ((Reachable.settles hr).returns t v)
        | some x => exact ⟨_, by simp [step, hpc, monitorStep, hm', taskStep, TaskBase.step, hrun, TaskBase.run]; rfl⟩
      | getResult | tryGetResult => exact ⟨_, by simp only [step, hpc, monitorStep, hm', Option.map_some]; rfl⟩

/-- **The whole shows its monitor.** -/
theorem projects : Projects (system Tid init) (Monitor.system code ⟨init, false, []⟩) Completes Anything Action.party
    Monitor.Action.party (fun t (m : Monitor.State Tid (Method R) Unit (Data R) (Ret R)) => m.pc t ≠ .idle)
    FutureTask.monitor where
  init := rfl
  step s a s' hr _ hs := by
    have hs : s.step a = some s' := hs
    by_cases hbusy : ∃ t, a.party = some t ∧ s.monitor.pc t ≠ .idle
    · obtain ⟨t, hat, ht⟩ := hbusy
      cases a with
      | step u e value =>
        cases hat
        obtain ⟨throws, hnext⟩ := step_inside hs ht
        exact Or.inr ⟨.step t throws, trivial, hnext, fun _ hp _ => hp⟩
      | call | get | wakeCancel | wakeResult => cases hat
    · rcases (step_cases hs).1 with hm | ⟨b, hb, -⟩
      · exact Or.inl ⟨hm, fun t hat ht => hbusy ⟨t, hat, ht⟩⟩
      · exact Or.inr ⟨b, trivial, hb, fun t hat ht => absurd ⟨t, hat, ht⟩ hbusy⟩
  stays t m b m' hnext hb ht := by
    rcases next_pc hnext t with heq | hidle | hparty
    · rw [heq]
      exact ht
    · exact absurd hidle ht
    · exact absurd hparty hb
  enabled t s hr h := by
    obtain ⟨b, m, hb, -, hnext⟩ := h
    cases b with
    | step u throws =>
      cases hb
      obtain ⟨hbusy, hok, s', hs⟩ := step_ret hr hnext init
      exact ⟨hbusy, _, s', rfl, hok, hs⟩
    | call | wake => cases hb

end Steps

/-! ## Runs -/

section Runs

variable [DecidableEq Tid] {init : R} {t : Tid} {m : Method R}

/-- The one wait of the methods. -/
theorem wait_mem {c : Unit} {g : Data R → Ret R → Bool} (h : Stmt.waitWhile c g ∈ body m) :
    m = .getResult ∧ g = fun d _ => !d.isResultReturned := by
  cases m <;> simp_all [body, getResult, doRun, tryGetResult]

/-- Once a `Call` is completed, calls pass. -/
theorem passes {s : State Tid (Method R) Unit (Data R) (Ret R)}
    (h : (Monitor.system code ⟨init, false, []⟩).Reachable Anything s) (hm : (s.pc t).method = some m)
    (hne : m = .getResult → s.data.completed ≠ []) : Passes s t := by
  have hproved := verified.sound free_new h
  refine ⟨fun m' c f rest x hpc => ?_, fun hfree m' c f rest x hpc hin => ?_⟩
  all_goals
    obtain rfl : m' = m := by simpa [hpc, PC.method] using hm
    obtain ⟨hget, rfl⟩ := wait_mem ((suffix_body h t m' _ (by rw [hpc]; rfl)).subset (List.mem_cons_self ..))
  · have hfree : Free init s.data s.waiting s.log := (hproved.body t m' _ x hpc).1
    simp [hfree.returned.mpr (hne hget)]
  · exact hne hget ((hproved.free hfree).consistent.waits ⟨t, hin⟩)

variable {r : (system Tid init).Run Completes} {k : ℕ}

/-- A call returns, or it is a `GetResult` and no `Call` is ever completed. -/
theorem returns_or_none (hf : r.Fair Action.party) (hm : ((r.state k).monitor.pc t).method = some m) :
    (∃ j ≥ k, (r.state j).monitor.pc t = .idle) ∨
      m = .getResult ∧ ∀ j, (r.state j).monitor.data.completed = [] := by
  by_cases hnone : m = .getResult ∧ ∀ j, (r.state j).monitor.data.completed = []
  · exact Or.inr hnone
  have hne : r.Finally fun s => m = .getResult → s.monitor.data.completed ≠ [] := by
    by_cases hget : m = .getResult
    · obtain ⟨j, hj⟩ := not_forall.mp fun h => hnone ⟨hget, h⟩
      exact Run.finally_of (k := j) (fun s a s' h _ hs hne hget => completed_mono h hs (hne hget)) fun _ => hj
    · exact Run.finally_always fun _ h => absurd h hget
  obtain ⟨r', hf', hr'⟩ := projects.run hf
  have hpass : r'.Finally fun s => (s.pc t).method = some m → Passes s t := by
    refine Run.Finally.mono (I := fun s => m = .getResult → s.data.completed ≠ []) ?_ fun s h hne hm => passes h hm hne
    exact Filter.Eventually.mono hne fun j hj => by rw [hr']; exact hj
  obtain ⟨j, hj, hidle⟩ := returns verified free_new (fun _ _ => trivial) hf' (k := k) (by rw [hr']; exact hm) hpass
  exact Or.inl ⟨j, hj, by rw [← hr']; exact hidle⟩

/-- Where a thread leaves `DoRun`, a `Call` was completed. -/
theorem completed_of_leave {s : FutureTask Tid R} (hr : (system Tid init).Reachable Completes s) {value : R}
    {x : Option (Ret R)} (hpc : s.monitor.pc t = .leave (.doRun value) x) :
    x ≠ none ∧ s.monitor.data.completed ≠ [] := by
  cases x with
  | none => exact absurd hpc ((Reachable.settles hr).returns t value)
  | some x =>
    refine ⟨by simp, ?_⟩
    rw [((Reachable.proved hr).leave t _ _ hpc).completed]
    simp [calls]

/-- The thread is in a `Run` that has passed its check, before or in `DoRun`. -/
def Begun (s : FutureTask Tid R) (t : Tid) : Prop := s.threads.pc t = .run .setRunning ∨ s.threads.pc t = .run .doRun

/-- Such a `Run` does not go on but by completing its `Call`. -/
theorem Begun.next {s s' : FutureTask Tid R} {a : Action Tid R} (hr : (system Tid init).Reachable Completes s)
    (hs : s.step a = some s') (h : s.Begun t) (hnone : s'.monitor.data.completed = []) : s'.Begun t := by
  rcases (step_cases hs).2 with hth | ⟨b, hb, hmove⟩
  · unfold Begun
    rwa [hth]
  · rcases task_begun hb h with heq | ⟨⟨e, rfl⟩, hset⟩
    · unfold Begun
      rwa [heq]
    · rcases h with hpc | hpc
      · exact Or.inr (hset hpc)
      · obtain ⟨value, x, hleave, -⟩ := (hmove t e rfl).2 hpc
        exact absurd hnone (completed_mono hr hs (completed_of_leave hr hleave).2)

/-- As long as it does not enter `DoRun`, its one step is to write `RUNNING`. -/
theorem Begun.writes {s s' : FutureTask Tid R} {a : Action Tid R} (hs : s.step a = some s') (h : s.Begun t)
    (hm : s.monitor.pc t = .idle) (hm' : s'.monitor.pc t = .idle) :
    s'.threads.pc t = s.threads.pc t ∧ a.party ≠ some t ∨ s.threads.pc t = .run .setRunning ∧
    s'.threads.pc t = .run .doRun := by
  by_cases hat : a.party = some t
  · right
    cases a with
    | step u e value =>
      cases hat
      simp only [step, hm] at hs
      split at hs
      · obtain ⟨hnext, -, -⟩ := monitorStep_cases hs
        simp only [Monitor.next, hm, Option.some.injEq] at hnext
        rw [← hnext] at hm'
        simp [State.goto] at hm'
      · rename_i hne
        have hset : s.threads.pc t = .run .setRunning := h.resolve_right hne
        obtain ⟨hth, -⟩ := taskStep_cases hs
        refine ⟨hset, ?_⟩
        simp only [TaskBase.step, hset, TaskBase.run, Option.map_some, Option.some.injEq] at hth
        rw [← hth]
        exact TaskBase.goto_self ..
    | call | get | wakeCancel | wakeResult => cases hat
  · left
    refine ⟨?_, hat⟩
    rcases (step_cases hs).2 with hth | ⟨b, hb, hmove⟩
    · rw [hth]
    · rcases task_begun hb h with heq | ⟨⟨e, rfl⟩, -⟩
      · exact heq
      · obtain ⟨⟨e', value, rfl⟩, -⟩ := hmove t e rfl
        exact absurd rfl hat

omit [DecidableEq Tid] in
theorem Begun.method {s : FutureTask Tid R} (h : s.Begun t) (hplace : s.threads.pc t = m.place) :
    ∃ value, m = .doRun value := by
  cases m with
  | doRun value => exact ⟨value, rfl⟩
  | getResult | tryGetResult => rcases h with h | h <;> cases h.symm.trans hplace

/-- Nor does a thread leave `DoRun` but by completing its `Call`. -/
theorem next_doRun {s s' : FutureTask Tid R} {a : Action Tid R} (hr : (system Tid init).Reachable Completes s)
    (hs : s.step a = some s') {value : R} (hm : (s.monitor.pc t).method = some (.doRun value))
    (hnone : s'.monitor.data.completed = []) : (s'.monitor.pc t).method = some (.doRun value) := by
  rcases (step_cases hs).1 with hsame | ⟨b, hb, -⟩
  · rw [hsame]
    exact hm
  rcases next_returns hb hm with hm | ⟨hidle, -⟩
  · exact hm
  obtain ⟨m, x, hleave, -⟩ := next_leaves hb (fun hi => by rw [hi] at hm; cases hm) hidle
  rw [hleave] at hm
  cases hm
  exact absurd hnone (completed_mono hr hs (completed_of_leave hr hleave).2)

/-- **A `Run` that has passed its check completes its `Call`.** -/
theorem completes (hf : r.Fair Action.party) (h : (r.state k).Begun t) :
    ∃ j, (r.state j).monitor.data.completed ≠ [] := by
  by_contra hno
  have hnone : ∀ j, (r.state j).monitor.data.completed = [] := fun j => not_not.mp fun hj => hno ⟨j, hj⟩
  have hbegun : ∀ j ≥ k, (r.state j).Begun t := fun j hj => Run.stays (J := fun s : FutureTask Tid R => s.Begun t)
    (I := fun s : FutureTask Tid R => s.monitor.data.completed = []) h (fun i _ => hnone i)
    (fun s a s' hr _ hs h hnone => h.next hr hs hnone) hj
  -- the thread does not enter `DoRun`, from which it would return
  have hidle : ∀ j ≥ k, (r.state j).monitor.pc t = .idle := by
    intro j hj
    by_contra hne
    obtain ⟨m, hm⟩ : ∃ m, ((r.state j).monitor.pc t).method = some m := by
      cases hpc : (r.state j).monitor.pc t with
      | idle => exact absurd hpc hne
      | enter m | body m | blocked m | leave m => exact ⟨m, rfl⟩
    obtain ⟨value, rfl⟩ := (hbegun j hj).method (Reachable.place (r.reachable j) t m hm)
    rcases returns_or_none hf hm with ⟨i, hi, hidle⟩ | ⟨hget, -⟩
    · have hstay := Run.stays (J := fun s : FutureTask Tid R => (s.monitor.pc t).method = some (.doRun value))
        (I := fun s : FutureTask Tid R => s.monitor.data.completed = []) hm (fun i _ => hnone i)
        (fun s a s' hr _ hs hm hnone => next_doRun hr hs hm hnone) hi
      rw [hidle] at hstay
      cases hstay
    · cases hget
  have hboth : r.Finally fun s => s.Begun t ∧ s.monitor.pc t = .idle :=
    Filter.eventually_atTop.mpr ⟨k, fun j hj => ⟨hbegun j hj, hidle j hj⟩⟩
  have hdone := hf.settles t (fun s => if s.threads.pc t = .run .setRunning then 1 else 0) hboth
    fun s a s' _ _ hs h h' => by
      rcases h.1.writes hs h.2 h'.2 with ⟨heq, hat⟩ | ⟨hset, hdo⟩
      · exact ⟨by rw [heq], fun hp => absurd hp hat⟩
      · simp [hset, hdo]
  obtain ⟨j, -, ⟨hb, hm⟩, hstuck⟩ := (hboth.and hdone).exists 0
  rcases hb with hb | hb
  · exact hstuck ⟨.step t .ret init, _, rfl, ⟨by simp [hb], by simp [hm, inDoRun]⟩, by
      simp [system, step, hm, hb, taskStep, TaskBase.step, TaskBase.run]; rfl⟩
  · exact hstuck ⟨.step t .ret init, _, rfl, ⟨by simp [hb], by simp [hm, inDoRun]⟩, by
      simp [system, step, hm, hb, monitorStep, Monitor.next]; rfl⟩

/-- **Calls of a future return**, in every fair run in which each `Run` finds no request and its `Call` returns:
`TryGetResult` and `DoRun` always do, and `GetResult` does unless no `Call` is ever completed. So all do when the task
stops at some point, or a `Run` passes its check. -/
theorem future_returns (hf : r.Fair Action.party) :
    (∀ t k m, ((r.state k).monitor.pc t).method = some m → (∃ j ≥ k, (r.state j).monitor.pc t = .idle) ∨
      m = .getResult ∧ ∀ j, (r.state j).monitor.data.completed = []) ∧
    ((∃ j, (r.state j).threads.task.isStopState = true ∨ ∃ u, (r.state j).Begun u) →
      ∀ t k m, ((r.state k).monitor.pc t).method = some m → ∃ j ≥ k, (r.state j).monitor.pc t = .idle) := by
  refine ⟨fun t k m hm => returns_or_none hf hm, fun hover t k m hm => ?_⟩
  refine (returns_or_none hf hm).resolve_right fun hno => ?_
  have hnone := hno.2
  obtain ⟨i, hstop | ⟨u, hu⟩⟩ := hover
  · have hsettles := Reachable.settles (r.reachable i)
    have hfin : (r.state i).threads.task.state = .finished := by
      have hc := hsettles.cancelled
      cases hst : (r.state i).threads.task.state <;> simp_all [TaskBase.isStopState]
    exact hsettles.finished hfin (hnone i)
  · obtain ⟨j, hj⟩ := completes hf hu
    exact hj (hnone j)

/-- A thread that is in no call makes no step. -/
theorem not_enabled {s : FutureTask Tid R} (hm : (s.monitor.pc t).method.isNone = true) (ht : s.threads.pc t = .idle) :
    ¬ (system Tid init).Enabled Completes Action.party t s := by
  rintro ⟨a, s', hat, -, hs⟩
  have hidle : s.monitor.pc t = .idle := by
    cases hpc : s.monitor.pc t with
    | idle => rfl
    | enter | body | blocked | leave => rw [hpc] at hm; cases hm
  cases a with
  | step u e value =>
    cases hat
    simp [system, step, hidle, ht, taskStep, TaskBase.step] at hs
  | call | get | wakeCancel | wakeResult => cases hat

/-- The thread is in `GetResult`. -/
def inGetResult (p : Monitor.PC (Method R) Unit (Data R) (Ret R)) : Bool :=
  match p.method with
  | some .getResult => true
  | some (.doRun _) | some .tryGetResult | none => false

/-- The thread `t` waits for the result, and the `Run` of `u` computes it. -/
def waitingRun (t u : Bool) : List (Action Bool ℕ) :=
  .get t false :: List.replicate 2 (.step t .ret 0) ++ .call u .run :: List.replicate 12 (.step u .ret 7) ++
    List.replicate 5 (.step t .ret 0)

theorem future_returns_waitingRun : ∃ r : (system Bool 0).Run Completes, r.Fair Action.party ∧
    ((r.state 3).monitor.pc true).method = some .getResult ∧ (r.state 16).threads.task.state = .finished ∧
    ∃ j ≥ 3, (r.state j).monitor.pc true = .idle := by
  obtain ⟨s, hs, hidle⟩ := (Option.any_eq_true ..).mp (show ((system Bool 0).exec Completes (system Bool 0).init
    (waitingRun true false)).any
    (fun s => decide (∀ t, (s.monitor.pc t).method.isNone = true ∧ s.threads.pc t = .idle)) =
      true by decide +kernel)
  have hidle := of_decide_eq_true hidle
  have hend : ∀ t, ¬ (system Bool 0).Enabled Completes Action.party t s := fun t => not_enabled (hidle t).1 (hidle t).2
  obtain ⟨r, hf, hr⟩ := System.exists_run hs hend
  have hget := check_run hr (k := 3) (p := fun s => inGetResult (s.monitor.pc true)) (by decide +kernel)
  have hfinished := check_run hr (k := 16) (p := fun s => s.threads.task.state == .finished) (by decide +kernel)
  have hget : ((r.state 3).monitor.pc true).method = some .getResult := by
    unfold inGetResult at hget
    split at hget
    · assumption
    · cases hget
    · cases hget
    · cases hget
  have hfinished := eq_of_beq hfinished
  exact ⟨r, hf, hget, hfinished,
    (future_returns hf).2 ⟨16, by simp [TaskBase.isStopState, hfinished]⟩ true 3 .getResult hget⟩

end Runs

end FutureTask

end Tpool
