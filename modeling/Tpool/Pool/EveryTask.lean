import Mathlib.Tactic.IntervalCases
import Tpool.Pool.Dispatch
import Tpool.Pool.Liveness
import Tpool.Pool.Results

/-!
# Every task is run

- `finally_hasRun`: what is pushed before the first `EndTask` is run to its end, when a worker may go on once everything
  pushed before the item that it runs was run. The induction is on the position of the item.
- `every_task_runs`: so it is when the tasks get only results of tasks that were pushed before them, and that nobody
  asks to cancel.
- `never_run_of_saturated`: for any number `n` of workers no worker runs anything to its end when each of the first `n`
  tasks gets a result of a task that is not among them.
-/

namespace Tpool.FixedThreadPool

open Concurrency Tpool.Core System

variable {n : Nat} {Cl T : Type*} [DecidableEq Cl] [DecidableEq T] {isEndTask : T → Bool}
  {ok : FixedThreadPool n Cl T → Action n Cl T → Prop} {s s' : FixedThreadPool n Cl T} {a : Action n Cl T} {c : Cl}
  {i : Fin n} {r : (system n Cl isEndTask).Run ok}

/-! ## What is pushed before the first `EndTask` -/

section Before

theorem stable_beforeEnd (j : Nat) : (system n Cl isEndTask).Stable ok fun s => s.BeforeEnd isEndTask j := by
  intro s a s' _ _ hs h l hl
  obtain ⟨t, ht, hend⟩ := h l hl
  exact ⟨t, getElem?_grow (step_cases hs).pops.1 ht, hend⟩

theorem stable_popped (j : Nat) : (system n Cl isEndTask).Stable ok fun s => j < s.taskQueue.pops.length := by
  intro s a s' _ _ hs h
  rcases (step_cases hs).pops.2 with heq | ⟨i, heq⟩
  · rwa [heq]
  · rw [heq, List.length_append]
    exact Nat.lt_add_right _ h

omit [DecidableEq Cl] [DecidableEq T] in
theorem why_of_view {pc : WorkerThread.PC T} {why : Why} {p : Leaving} (h : pc.view = .left why p) :
    pc.why = some why := by
  cases pc <;> cases h <;> rfl

/-- In a calm run no worker gives up what it holds, or leaves without an `EndTask`. -/
theorem not_lost (h : (system n Cl isEndTask).Reachable (fun s a => s.calm a = true) s) {why : Why} {p : Leaving}
    (hw : s.view.worker i = .left why p) : ∃ k, why = .endTask k := by
  have hflag : s.view.isRequestCancel i = false := (Reachable.neverNow (by simp [calm]) h).2 i
  have hkept := (Reachable.view h).flagged i why p hw
  rw [hflag] at hkept
  cases why with
  | endTask k => exact ⟨k, rfl⟩
  | cancelled => exact absurd (hkept (Or.inl rfl)) Bool.false_ne_true
  | dropped k => exact absurd (hkept (Or.inr ⟨k, rfl⟩)) Bool.false_ne_true
  | escaped k => exact absurd (why_of_view hw) ((Reachable.contained (fun _ _ => calm_exits) h i).2 k)

omit [DecidableEq Cl] [DecidableEq T] in
/-- What comes before the first `EndTask` is none. -/
theorem BeforeEnd.not_end {j k : Nat} (hj : s.BeforeEnd isEndTask j) (hk : k ≤ j) {x : Item T}
    (hx : s.taskQueue.pushes[k]? = some x) : x.isEnd isEndTask = false := by
  obtain ⟨t, ht, hend⟩ := hj k hk
  cases ht.symm.trans hx
  exact hend

/-- In a calm run a worker ends only behind the first `EndTask`. -/
theorem popped_of_terminated (h : (system n Cl isEndTask).Reachable (fun s a => s.calm a = true) s) {j : Nat}
    (hj : s.BeforeEnd isEndTask j) (hterm : (s.threads i).pc.isTerminated = true) : j < s.taskQueue.pops.length := by
  cases hpc : (s.threads i).pc with
  | terminated why =>
    have hw : s.view.worker i = .left why .terminated := congrArg WorkerThread.PC.view hpc
    obtain ⟨k, rfl⟩ := not_lost h hw
    have hserved := (Reachable.view h).served
    obtain ⟨done, hpops, -, -, x, hx, hend⟩ := hserved.ended hw
    have hk : k < s.taskQueue.pops.length :=
      (List.getElem?_eq_some_iff.mp (hserved.taken (i := i) (by rw [hw]; exact List.mem_singleton_self k))).1
    by_contra hle
    rw [hj.not_end (by omega) hx] at hend
    cases hend
  | _ => rw [hpc] at hterm; cases hterm

/-- What was pushed was pushed after the constructor. -/
theorem BeforeEnd.ctor {j : Nat} (hj : s.BeforeEnd isEndTask j) (h : (system n Cl isEndTask).Reachable ok s) :
    s.ctor = .done := by
  obtain ⟨t, ht, -⟩ := hj j le_rfl
  by_contra hctor
  have hfresh := ((Reachable.view h).begun.fresh (by simpa [view] using hctor)).1
  rw [show s.taskQueue.pushes = [] from hfresh] at ht
  cases ht

/-- Who holds an item before the first `EndTask` in a calm run is about to run it, or runs it. -/
theorem busy_of_held (h : (system n Cl isEndTask).Reachable (fun s a => s.calm a = true) s) {j : Nat}
    (hj : s.BeforeEnd isEndTask j) (hheld : j ∈ (s.view.worker i).held) :
    s.view.worker i = .holding j ∨ s.view.worker i = .running j := by
  cases hw : s.view.worker i with
  | holding k | running k =>
    rw [hw] at hheld
    obtain rfl := List.mem_singleton.mp hheld
    simp
  | left why p =>
    obtain ⟨k, rfl⟩ := not_lost h hw
    obtain ⟨-, -, -, -, x, hx, hend⟩ := (Reachable.view h).served.ended hw
    rw [hw] at hheld
    obtain rfl := List.mem_singleton.mp hheld
    rw [hj.not_end le_rfl hx] at hend
    cases hend
  | _ => rw [hw] at hheld; cases hheld

/-- What was run stays so. -/
theorem PoolStep.runs_grow (h : PoolStep isEndTask s a s') : s.runs <+: s'.runs := by
  cases h with
  | start | started | constructed | call => exact List.prefix_refl _
  | client _ hs => cases hs <;> exact List.prefix_refl _
  | worker hs =>
    cases hs with
    | thread hs =>
      cases hs with
      | start | stop => exact List.prefix_append _ _
      | _ => exact List.prefix_refl _
    | _ => exact List.prefix_refl _
  | timer _ hs => cases hs <;> exact List.prefix_refl _
  | wake w => cases w <;> exact List.prefix_refl _

/-- The item at `j` was run to its end. -/
def HasRun (j : Nat) (s : FixedThreadPool n Cl T) : Prop := ∃ i, (i, .stop j) ∈ s.runs

theorem stable_hasRun (j : Nat) : (system n Cl isEndTask).Stable ok (HasRun j) := by
  rintro s a s' _ _ hs ⟨i, hi⟩
  have hpre : s.runs <+: s'.runs := (step_cases hs).runs_grow
  exact ⟨i, hpre.subset hi⟩

omit [DecidableEq Cl] [DecidableEq T] in
theorem pc_of_busy {pc : WorkerThread.PC T} {j : Nat} (h : pc.view = .holding j ∨ pc.view = .running j) :
    pc.rank ≠ 4 ∧ pc.isTerminated = false := by
  cases pc with
  | run k t p => exact ⟨by simp only [WorkerThread.PC.rank]; omega, rfl⟩
  | unlock | recheck | dispatch => exact ⟨by simp [WorkerThread.PC.rank], rfl⟩
  | _ => rcases h with h | h <;> cases h

end Before

/-! ## Liveness -/

section Run

/-- The item at `j` is taken: else the first worker would go on until it comes to it. -/
theorem finally_popped (hok : Unheld ok) (hcalm : ∀ s a, ok s a → s.calm a = true) (hf : r.Fair Action.party)
    (h0 : 0 < n) {k j : Nat} (hj : (r.state k).BeforeEnd isEndTask j)
    (hgo : r.Finally fun s => ¬ j < s.taskQueue.pops.length → ok s (.worker ⟨0, h0⟩ .ret)) :
    r.Finally fun s => j < s.taskQueue.pops.length := by
  by_contra hno
  have hnever : r.Finally fun s => ¬ j < s.taskQueue.pops.length := Run.finally_always (Run.never (stable_popped j) hno)
  have hbefore := Run.finally_of (stable_beforeEnd j) hj
  have hterm := worker_ends hok hf (k := j + 1) (i := ⟨0, h0⟩) ((hnever.and (hbefore.and hgo)).mono fun s hr h => by
    obtain ⟨hnot, hbefore, hgo⟩ := h
    refine ⟨hbefore.ctor hr, hgo hnot, fun _ => by omega, fun hb => ?_⟩
    have hempty : s.taskQueue.elems = [] := s.taskQueue.waiting_empty ⟨_, hb.2⟩
    rw [s.taskQueue.elems_eq, List.drop_eq_nil_iff] at hempty
    obtain ⟨t, ht, -⟩ := hbefore j le_rfl
    exact hnot ((List.getElem?_eq_some_iff.mp ht).1.trans_le hempty))
  obtain ⟨m, -, hm, hnot, hbefore⟩ := (hterm.and (hnever.and hbefore)).exists 0
  exact hnot (popped_of_terminated ((r.reachable m).mono hcalm) hbefore hm)

/-- What is taken before the first `EndTask` is run: who has it neither sleeps nor pops, but goes on. -/
theorem finally_run_of_popped (hok : Unheld ok) (hcalm : ∀ s a, ok s a → s.calm a = true) (hf : r.Fair Action.party)
    {k j : Nat} (hj : (r.state k).BeforeEnd isEndTask j) (hpop : r.Finally fun s => j < s.taskQueue.pops.length)
    (hgo : ∀ i, r.Finally fun s => s.view.worker i = .holding j ∨ s.view.worker i = .running j →
      ok s (.worker i .ret)) :
    r.Finally (HasRun j) := by
  by_contra hno
  have hnever : r.Finally fun s => ¬ HasRun j s := Run.finally_always (Run.never (stable_hasRun j) hno)
  obtain ⟨i, hi⟩ := Run.Finally.choose (J := fun i s => s.taskQueue.pops[j]? = some i)
    (hpop.mono fun s _ h => ⟨_, List.getElem?_eq_getElem h⟩) fun i s a s' _ _ hs h _ => by
      rcases (step_cases hs).pops.2 with heq | ⟨l, heq⟩
      · rw [heq, h]
      · exact heq ▸ getElem?_grow (List.prefix_append _ _) h
  have hbefore := Run.finally_of (stable_beforeEnd j) hj
  have hbusy := (hi.and (hnever.and hbefore)).mono fun s hr h => And.intro (h.2.2.ctor hr)
    (busy_of_held (hr.mono hcalm) h.2.2 (i := i) (by
      by_contra hheld
      have := ((Reachable.view hr).served.count_done h.1 hheld).2
      exact h.2.1 ⟨i, List.count_pos_iff.mp (this ▸ Nat.one_pos)⟩))
  have hterm := worker_ends hok hf (k := 0) (i := i) ((hbusy.and (hgo i)).mono fun s _ h =>
    ⟨h.1.1, h.2 h.1.2, fun hpc => absurd hpc (pc_of_busy h.1.2).1, fun hb => (pc_of_busy h.1.2).1 (by rw [hb.1]; rfl)⟩)
  obtain ⟨m, -, hm, -, hbusy⟩ := (hterm.and hbusy).exists 0
  rw [(pc_of_busy hbusy).2] at hm
  cases hm

omit [DecidableEq Cl] [DecidableEq T] in
theorem BeforeEnd.mono {j l : Nat} (h : s.BeforeEnd isEndTask j) (hl : l ≤ j) : s.BeforeEnd isEndTask l :=
  fun m hm => h m (hm.trans hl)

/-- **What is pushed before the first `EndTask` is run to its end**, when a worker that runs an item up to this one may
go on once everything pushed before its own was. -/
theorem finally_hasRun (hok : Unheld ok) (hcalm : ∀ s a, ok s a → s.calm a = true) (hf : r.Fair Action.party)
    (h0 : 0 < n) {k j : Nat} (hj : (r.state k).BeforeEnd isEndTask j)
    (hgo : ∀ i, r.Finally fun s => (∀ l t p, (s.threads i).pc = .run l t p → l ≤ j ∧ ∀ m < l, HasRun m s) →
      ok s (.worker i .ret)) : r.Finally (HasRun j) := by
  induction j using Nat.strong_induction_on with
  | _ j ih =>
    have hall : r.Finally fun s => ∀ l < j, HasRun l s := Run.finally_lt fun l hl =>
      ih l hl (hj.mono hl.le) fun i => (hgo i).mono fun s _ h hrun =>
        h fun l' t p hpc => ⟨(hrun l' t p hpc).1.trans hl.le, (hrun l' t p hpc).2⟩
    -- so a worker that runs an item up to `j` may go on
    have hgoes : ∀ i, r.Finally fun s => (∀ l t p, (s.threads i).pc = .run l t p → l ≤ j) → ok s (.worker i .ret) :=
      fun i => ((hgo i).and hall).mono fun s _ h hle => h.1 fun l t p hpc =>
        ⟨hle l t p hpc, fun m hm => h.2 m (hm.trans_le (hle l t p hpc))⟩
    have hpop := finally_popped hok hcalm hf h0 hj ((hgoes ⟨0, h0⟩).mono fun s hr h hnot => h fun l t p hpc => by
      have hrunning : s.view.worker ⟨0, h0⟩ = .running l := congrArg WorkerThread.PC.view hpc
      have htaken :=
        (Reachable.view hr).served.taken (i := ⟨0, h0⟩) (k := l) (by rw [hrunning]; exact List.mem_singleton_self l)
      have hl : l < s.taskQueue.pops.length := (List.getElem?_eq_some_iff.mp htaken).1
      omega)
    refine finally_run_of_popped hok hcalm hf hj hpop fun i => (hgoes i).mono fun s _ h hbusy => h fun l t p hpc => ?_
    have hrunning : s.view.worker i = .running l := congrArg WorkerThread.PC.view hpc
    rw [hrunning] at hbusy
    rcases hbusy with hbusy | hbusy <;> cases hbusy
    exact le_rfl

end Run

/-! ## Tasks that wait for others -/

section Results

omit [DecidableEq Cl] in
theorem unheld_gets (results : T → List T) :
    Unheld fun (s : FixedThreadPool n Cl T) a => s.calm a = true ∧ s.gets results a = true :=
  ⟨fun _ _ _ => ⟨rfl, rfl⟩, fun _ _ _ _ => ⟨rfl, rfl⟩⟩

theorem stable_getsEarlier (results : T → List T) (j : Nat) : (system n Cl isEndTask).Stable ok fun s =>
    s.BeforeEnd isEndTask j ∧ s.GetsEarlier results j := by
  rintro s a s' hr ha hs ⟨hbefore, hearlier⟩
  have hgrow := (step_cases hs).pops.1
  refine ⟨stable_beforeEnd j s a s' hr ha hs hbefore, fun l hl t ht u hu => ?_⟩
  obtain ⟨t', ht', -⟩ := hbefore l hl
  cases (getElem?_grow hgrow ht').symm.trans ht
  obtain ⟨m, hm, hpush⟩ := hearlier l hl t ht' u hu
  exact ⟨m, hm, getElem?_grow hgrow hpush⟩

/-- A worker may go on when everything pushed before the item that it runs was run. -/
theorem gets_of_hasRun {results : T → List T} {j : Nat} (h : (system n Cl isEndTask).Reachable ok s)
    (hearlier : s.GetsEarlier results j) (hkept : s.ResultsKept results j)
    (hrun : ∀ l t p, (s.threads i).pc = .run l t p → l ≤ j ∧ ∀ m < l, HasRun m s) :
    s.calm (.worker i .ret) = true ∧ s.gets results (.worker i .ret) = true := by
  refine ⟨unhindered_calm.worker s i, ?_⟩
  simp only [gets]
  split
  · rename_i l t hpc
    have hholds := (Reachable.shape h i).holds
    rw [hpc] at hholds
    obtain ⟨hl, hall⟩ := hrun l t .doRun hpc
    refine List.all_eq_true.mpr fun u hu => ?_
    obtain ⟨m, hm, hpush⟩ := hearlier l hl t hholds.1 u hu
    exact hkept.hasResult h hl hholds.1 hu hpush (hall m hm)
  · rfl

/-- **Every task is run**, also one that gets results of tasks pushed before it, which are not asked to cancel before
they have them. -/
theorem every_task_runs {results : T → List T}
    {r : (system n Cl isEndTask).Run fun s a => s.calm a = true ∧ s.gets results a = true} (hf : r.Fair Action.party)
    (h0 : 0 < n) {k j : Nat} (hj : (r.state k).BeforeEnd isEndTask j) (hearlier : (r.state k).GetsEarlier results j)
    (hkept : ∀ l ≥ k, (r.state l).ResultsKept results j) :
    r.Finally fun s => ∃ i, s.runs.count (i, .start j) = 1 ∧ s.runs.count (i, .stop j) = 1 ∧
      ∀ i' ≠ i, (i', .start j) ∉ s.runs ∧ (i', .stop j) ∉ s.runs := by
  have hgoes : r.Finally fun s => (s.BeforeEnd isEndTask j ∧ s.GetsEarlier results j) ∧ s.ResultsKept results j :=
    (Run.finally_of (stable_getsEarlier results j) ⟨hj, hearlier⟩).and (Filter.eventually_atTop.mpr ⟨k, hkept⟩)
  have hrun := finally_hasRun (unheld_gets results) (fun _ _ h => h.1) hf h0 hj fun i =>
    hgoes.mono fun s hr h => gets_of_hasRun hr h.1.2 h.2
  refine hrun.mono fun s hr h => ?_
  obtain ⟨i, hi⟩ := h
  exact ⟨i, (Reachable.view hr).served.once hi⟩

/-- One worker and two tasks, of which `true` gets the result of `false`; both are pushed, and the pool is stopped. -/
def resultRun : List (Action 1 Unit Bool) := List.flatten [
  List.replicate 3 .construct,
  [.call () (.addTask (some false)), .client () ⟨.ret, 0, 0⟩, .client () ⟨.ret, 0, 0⟩],
  [.call () (.addTask (some true)), .client () ⟨.ret, 0, 0⟩, .client () ⟨.ret, 0, 0⟩],
  .call () .stop :: List.replicate 5 (.client () ⟨.ret, 0, 0⟩),
  List.replicate 35 (.worker (Fin.last 0) .ret),
  List.replicate 3 (.client () ⟨.ret, 0, 0⟩)]

def resultOf (t : Bool) : List Bool := if t then [false] else []

/-- Both tasks are in the queue, and no worker has taken one. -/
theorem every_task_runs_resultRun : ∃ r : (system 1 Unit fun _ : Bool => false).Run fun s a =>
      s.calm a = true ∧ s.gets resultOf a = true, r.Fair Action.party ∧ (r.state 9).runs = [] ∧
      r.Finally fun s => ∃ i, s.runs.count (i, .start 1) = 1 ∧ s.runs.count (i, .stop 1) = 1 ∧
        ∀ i' ≠ i, (i', .start 1) ∉ s.runs ∧ (i', .stop 1) ∉ s.runs := by
  obtain ⟨r, hf, hr⟩ := exists_run_ended (show ((system 1 Unit fun _ : Bool => false).exec
    (fun s a => s.calm a = true ∧ s.gets resultOf a = true) (.new 1 Unit Bool) resultRun).any hasEnded = true by decide)
  have hcheck := check_run hr (k := 9)
    (p := fun s => decide (s.runs = []) && decide (s.taskQueue.pushes = [.task false, .task true])) (by decide)
  simp only [Bool.and_eq_true, decide_eq_true_eq] at hcheck
  obtain ⟨hruns, hpushes⟩ := hcheck
  -- nobody cancels
  have hflag : ∀ l u, ((r.state l).task u).isRequestCancel = false := fun l u => by
    have hlast := check_run hr (k := resultRun.length) (p := fun s => (s.task u).isRequestCancel == false)
      (by cases u <;> decide)
    have hle := le_last hr (fun s => (s.task u).isRequestCancel)
      (fun s a s' _ _ hs => Bool.le_iff_imp.mpr ((step_cases hs).keeps.isRequestCancel u)) l
    rw [eq_of_beq hlast] at hle
    exact Bool.eq_false_of_not_eq_true fun h => by rw [h] at hle; cases hle rfl
  refine ⟨r, hf, hruns, every_task_runs hf Nat.one_pos (k := 9) (j := 1) (fun l hl => ?_) (fun l hl t ht u hu => ?_)
    fun m _ l hl t ht u hu hasked => ?_⟩
  · interval_cases l <;> rw [hpushes] <;> exact ⟨_, rfl, rfl⟩
  · interval_cases l <;> rw [hpushes] at ht <;> cases ht
    · cases hu
    · exact ⟨0, Nat.one_pos, by rw [hpushes, List.mem_singleton.mp hu]; rfl⟩
  · rw [hflag] at hasked
    cases hasked

end Results

/-! ## Tasks that wait for later ones -/

section Saturated

/-- The first `n` items that are pushed are the tasks `ts`, and nobody has requested to cancel one of these. -/
structure Saturated (ts : List T) (s : FixedThreadPool n Cl T) : Prop where
  pushes : s.taskQueue.pushes.take n <+: ts.map .task
  flags : ∀ t ∈ ts, (s.task t).isRequestCancel = false

omit [DecidableEq Cl] [DecidableEq T] in
theorem Saturated.before {ts : List T} (h : s'.Saturated ts) (hpre : s.taskQueue.pushes <+: s'.taskQueue.pushes)
    (hk : Keeps s s') : s.Saturated ts := by
  refine ⟨(hpre.take n).trans h.pushes, fun t ht => ?_⟩
  cases hf : (s.task t).isRequestCancel with
  | false => rfl
  | true => exact (hk.isRequestCancel t hf).symm.trans (h.flags t ht)

/-- Nothing was run to its end, no worker has left a `DoRun`, and none has returned. -/
structure Unfinished (s : FixedThreadPool n Cl T) : Prop where
  returned : s.returned = []
  runs : ∀ i k, (i, .stop k) ∉ s.runs
  workers : ∀ i k t p, (s.threads i).pc = .run k t p → 4 ≤ p.rank

/-- As long as nothing was run to its end, only the first `n` items are run. -/
theorem Unfinished.mem (hi : Unfinished s) (h : (system n Cl isEndTask).Reachable ok s) {ts : List T}
    (hsat : s.Saturated ts) {k : Nat} {t : T} {p : TaskBase.RunPC} (hpc : (s.threads i).pc = .run k t p) : t ∈ ts := by
  have hrunning : s.view.worker i = .running k := congrArg WorkerThread.PC.view hpc
  have hover :=
    (Reachable.view h).served.overtaken (i := i) (k := k) (by rw [hrunning]; exact List.mem_singleton_self k)
  have hall : ((Finset.range k).filter fun l => ∀ j, (j, Event.stop l) ∉ s.view.runs) = Finset.range k :=
    Finset.filter_true_of_mem fun l _ j => hi.runs j l
  rw [hall, Finset.card_range] at hover
  have hholds := (Reachable.shape h i).holds
  rw [hpc] at hholds
  have htake : (s.taskQueue.pushes.take n)[k]? = some (.task t) := by
    rw [List.getElem?_take_of_lt hover]; exact hholds.1
  obtain ⟨u, hu, heq⟩ := List.mem_map.mp (List.mem_of_getElem? (getElem?_grow hsat.pushes htake))
  cases heq
  exact hu

/-- No `DoRun` is left for a result that is not there. -/
theorem Unfinished.worker {results : T → List T} {e : Exit} (hi : Unfinished s)
    (h : (system n Cl isEndTask).Reachable ok s) {ts : List T} (hres : ∀ t ∈ ts, ∃ u ∈ results t, u ∉ ts)
    (hsat : s.Saturated ts) (hgets : s.gets results (.worker i e) = true) (hs : WorkerStep isEndTask i e s s') :
    Unfinished s' := by
  -- no worker may leave a `DoRun` that waits for a result
  have hstays : ∀ k t, (s.threads i).pc ≠ .run k t .doRun := by
    intro k t hpc
    obtain ⟨u, hu, -⟩ := hres t (hi.mem h hsat hpc)
    simp only [gets, hpc] at hgets
    have hresult := List.all_eq_true.mp hgets u hu
    simp [hasResult, hi.returned] at hresult
  have hreturned : s'.returned = [] := by
    rcases hs.returned with heq | ⟨k, t, hpc, -⟩
    · exact heq.trans hi.returned
    · exact absurd hpc (hstays k t)
  have out : s'.runs = s.runs → (∀ k t p, (s'.threads i).pc = .run k t p → 4 ≤ p.rank) → Unfinished s' := by
    intro hruns hpc
    refine ⟨hreturned, fun j k => hruns ▸ hi.runs j k, fun j k t p hj => ?_⟩
    by_cases hij : j = i
    · subst hij
      exact hpc k t p hj
    · exact hi.workers j k t p (by rw [← hs.others j hij]; exact hj)
  cases hs with
  | thread hs =>
    cases hs with
    | @run k u p b p' hpc hr =>
      have hpc : (s.threads i).pc = .run k u p := hpc
      have hrank := hi.workers i k u p hpc
      have hmem := hi.mem h hsat hpc
      refine out rfl fun l v q hq => ?_
      rw [setWorld_threads_self] at hq
      cases hq
      rcases TaskBase.run_cases hr with ⟨rfl, -, rfl⟩ | ⟨rfl, -⟩ | ⟨rfl, -⟩ | ⟨rfl, -⟩
        | ⟨-, ⟨-, rfl⟩ | ⟨rfl, -⟩ | ⟨rfl, -⟩⟩
      · exact le_rfl
      · exact absurd hrank (by decide)
      · exact absurd hrank (by decide)
      · exact absurd hrank (by decide)
      · rw [show (s.world i).task u = s.task u from rfl, hsat.flags u hmem]
        decide
      · exact absurd hpc (hstays k u)
      · exact absurd hrank (by decide)
    | @start k u hpc =>
      refine ⟨hreturned, fun j l hj => ?_, fun j l v q hq => ?_⟩
      · rcases List.mem_append.mp hj with h | h
        · exact hi.runs j l h
        · cases List.mem_singleton.mp h
      · by_cases hij : j = i
        · subst hij
          rw [setWorld_threads_self] at hq
          cases hq
          decide
        · exact hi.workers j l v q (by rw [← setWorld_threads_of_ne _ hij]; exact hq)
    | @stop k u hpc | @escape k u hpc => exact absurd (hi.workers i k u _ hpc) (by decide)
    | _ => exact out rfl fun l v q hq => by rw [setWorld_threads_self] at hq; cases hq
  | count | notLast | last => exact out rfl fun l v q hq => by simp [setThread, WorkerThread.goto] at hq

/-- **The pool blocks** when each of the first `n` tasks, for `n` workers, gets a result of a task that is not among
them: until somebody requests to cancel one of them no worker runs anything to its end, whatever is pushed. -/
theorem never_run_of_saturated {results : T → List T}
    (h : (system n Cl isEndTask).Reachable (fun s a => s.gets results a = true) s) {ts : List T}
    (hres : ∀ t ∈ ts, ∃ u ∈ results t, u ∉ ts) (hsat : s.Saturated ts) (i : Fin n) (k : Nat) :
    (i, .stop k) ∉ s.runs := by
  suffices hi : Unfinished s from hi.runs i k
  refine h.induct (I := fun s => s.Saturated ts → Unfinished s)
    (fun _ => ⟨rfl, fun _ _ hmem => (by cases hmem), fun _ _ _ _ hpc => (by cases hpc)⟩)
    (fun s a s' hr ha hs hi hsat => ?_) hsat
  have hstep := step_cases hs
  have hsat := hsat.before hstep.pops.1 hstep.keeps
  have hi := hi hsat
  have hreturned : (∀ i, a ≠ .worker i .ret) → s'.returned = [] := fun ha => by
    rcases step_returned hstep (Reachable.timerSound hr) with heq | ⟨i, _, _, h, -⟩
    · exact heq.trans hi.returned
    · exact absurd h (ha i)
  have out : (∀ i, a ≠ .worker i .ret) → s'.runs = s.runs → (∀ i, (s'.threads i).pc = (s.threads i).pc) →
      Unfinished s' :=
    fun ha hruns hpc => ⟨hreturned ha, fun j k => hruns ▸ hi.runs j k,
      fun j k t p hj => hi.workers j k t p (by rw [← hpc j]; exact hj)⟩
  cases hstep with
  | @start l hl =>
    refine ⟨hreturned (by simp), hi.runs, fun j k t p hj => ?_⟩
    by_cases hjl : j = ⟨l, hl⟩
    · subst hjl
      simp at hj
    · exact hi.workers j k t p (by simpa [hjl] using hj)
  | started | constructed | call => exact out (by simp) rfl fun _ => rfl
  | client _ hs => exact out (by simp) (by cases hs <;> rfl) fun i => (hs.frame.threads i).1
  | worker hs => exact hi.worker hr hres hsat ha hs
  | timer _ hs => exact out (by simp) (by cases hs <;> rfl) fun i => (hs.frame.threads i).1
  | wake w => exact out (by simp) (by cases w <;> rfl) fun i => ((wakeStep_frame w).threads i).1

/-- The task `true` is pushed before the task `false`, whose result it gets, and the one worker runs it. -/
def blockRun : List (Action 1 Unit Bool) := List.flatten [
  List.replicate 3 .construct,
  [.call () (.addTask (some true)), .client () ⟨.ret, 0, 0⟩, .client () ⟨.ret, 0, 0⟩],
  [.call () (.addTask (some false)), .client () ⟨.ret, 0, 0⟩, .client () ⟨.ret, 0, 0⟩],
  List.replicate 10 (.worker (Fin.last 0) .ret)]

theorem never_run_of_saturated_blockRun : ∃ s : FixedThreadPool 1 Unit Bool,
    (s.taskQueue.pushes = [.task true, .task false] ∧ s.runs = [(0, .start 0)]) ∧
      ∀ i k, (i, .stop k) ∉ s.runs := by
  obtain ⟨s, hs, hp⟩ := System.reachable_of_exec (system 1 Unit fun _ : Bool => false)
    (fun s a => s.gets resultOf a = true) blockRun
    (fun s => decide (s.taskQueue.pushes = [.task true, .task false] ∧ s.runs = [(0, .start 0)] ∧
      (s.task true).isRequestCancel = false)) (by decide)
  obtain ⟨hpushes, hruns, hflag⟩ := of_decide_eq_true hp
  have hres : ∀ t ∈ [true], ∃ u ∈ resultOf t, u ∉ [true] := by decide
  refine ⟨s, ⟨hpushes, hruns⟩, never_run_of_saturated hs hres ⟨?_, fun t ht => ?_⟩⟩
  · rw [hpushes]
    exact List.prefix_refl _
  · rw [List.mem_singleton.mp ht, hflag]

end Saturated

end Tpool.FixedThreadPool
