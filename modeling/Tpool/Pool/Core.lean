import Mathlib.Data.Fintype.Card
import Tpool.Queue.TaskQueue

/-!
# What a pool of workers does with its queue

The abstract model of a thread pool, without threads' code: a queue of items, `n` workers that take them one by one and
leave when they take an end item, are cancelled or lose a task to an exception, a counter of those who have left, and a
state that the last of them sets to finished.

- `Core`, `Step`: the state and its moves. What a client does shows only as a push, a request to stop, a request to
  cancel a worker, or a wait for the state.
- `Begun`: nothing happens before the constructor has returned. `Counted`: who has been counted, and what that says of
  the state. `Flagged`: who leaves because it was cancelled was asked to.
- `Reachable.finished`: a pool with workers all of whom have terminated after a stop is finished.
-/

namespace Tpool

open Concurrency

/-- What is in the queue: the `EndTask`s that a stop pushes, and the tasks that were submitted. -/
inductive Item (T : Type*)
  | endTask
  | task (t : T)
  deriving DecidableEq

/-- One of the pool's own `EndTask`s. -/
def Item.isStop {T : Type*} : Item T → Bool
  | .endTask => true
  | .task _ => false

/-- Of the class `EndTask`; `isEndTask` tells which submitted tasks are. -/
def Item.isEnd {T : Type*} (isEndTask : T → Bool) : Item T → Bool
  | .endTask => true
  | .task t => isEndTask t

/-- `FixedThreadPool::State`. -/
inductive PoolState
  | init
  | running
  | finished
  deriving DecidableEq

namespace Core

/-- Why a worker has left its loop, with the position of the item it held. -/
inductive Why
  | endTask (k : Nat)
  | cancelled
  | dropped (k : Nat)
  | escaped (k : Nat)
  deriving DecidableEq

/-- What a worker that has left its loop still has to do: count itself, and, having been counted as the `c`-th, tell
those who wait for the pool and those who wait for it. -/
inductive Leaving
  | counting
  | counted (c : Nat)
  | finishing
  | terminated
  deriving DecidableEq

/-- A worker; `k` is the position of its item among the pushes. -/
inductive Worker
  | absent
  | looping
  | popping
  | holding (k : Nat)
  | running (k : Nat)
  | left (why : Why) (p : Leaving)
  deriving DecidableEq

/-- Having taken an item, or left. -/
def Worker.busy : Worker → Bool
  | .holding _ | .running _ | .left _ _ => true
  | _ => false

/-- Counted among those who have left. -/
def Worker.counted : Worker → Bool
  | .left _ (.counted _) | .left _ .finishing | .left _ .terminated => true
  | _ => false

/-- A `Run` of the item at a position begins or ends. -/
inductive Event
  | start (k : Nat)
  | stop (k : Nat)
  deriving DecidableEq

end Core

open Tpool.Core

/-- A pool with `n` workers, the clients `Cl` and the tasks `T`. `incs` are the workers that were counted and `runs`
what they have run, in order; `wins` counts the callers that were the first to request the stop. -/
structure Core (n : Nat) (Cl T : Type*) where
  queue : TaskQueue (Item T) (Fin n)
  worker : Fin n → Worker
  isRequestCancel : Fin n → Bool
  incs : List (Fin n)
  state : PoolState
  stateWaiters : Finset Cl
  isRequestStop : Bool
  wins : Nat
  constructed : Bool
  runs : List (Fin n × Event)

namespace Core

variable {n : Nat} {Cl T : Type*}

def new (n : Nat) (Cl T : Type*) : Core n Cl T :=
  ⟨.new, fun _ => .absent, fun _ => false, [], .init, ∅, false, 0, false, []⟩

def setWorker (s : Core n Cl T) (i : Fin n) (w : Worker) : Core n Cl T :=
  { s with worker := Function.update s.worker i w }

/-- How many of the pool's own `EndTask`s were pushed. -/
def endsPushed (s : Core n Cl T) : Nat := s.queue.pushes.countP Item.isStop

section Step

variable [DecidableEq Cl] (isEndTask : T → Bool) (s : Core n Cl T)

/-- One move of the pool. -/
inductive Step : Core n Cl T → Prop
  | create {i} : s.worker i = .absent → s.constructed = false → Step (s.setWorker i .looping)
  | construct : (∀ i, s.worker i ≠ .absent) → s.constructed = false →
      Step { s with constructed := true, state := .running }
  | push (t : T) : s.constructed = true → Step { s with queue := s.queue.push (.task t) }
  | pushEnd : s.isRequestStop = true → s.endsPushed < n → Step { s with queue := s.queue.push .endTask }
  | cas : s.constructed = true → s.isRequestStop = false →
      Step { s with isRequestStop := true, wins := s.wins + 1 }
  | requestCancel (i : Fin n) : s.isRequestStop = true →
      Step { s with isRequestCancel := Function.update s.isRequestCancel i true }
  | join (c : Cl) : s.isRequestStop = true → s.state ≠ .finished →
      Step { s with stateWaiters := insert c s.stateWaiters }
  | wakeState (c : Cl) : Step { s with stateWaiters := s.stateWaiters.erase c }
  | wakeWorker (i : Fin n) : Step { s with queue := s.queue.wake i }
  | cancelled {i} : s.worker i = .looping → s.isRequestCancel i = true →
      Step (s.setWorker i (.left .cancelled .counting))
  | take {i} : s.worker i = .looping → Step (s.setWorker i .popping)
  | block {i} (h : s.queue.elems = []) : s.worker i = .popping → Step { s with queue := s.queue.block i h }
  | pop {i k x q} : s.worker i = .popping → i ∉ s.queue.waiting → s.queue.pop i = some (k, x, q) →
      Step { s.setWorker i (.holding k) with queue := q }
  | dropped {i k} : s.worker i = .holding k → s.isRequestCancel i = true →
      Step (s.setWorker i (.left (.dropped k) .counting))
  | ended {i k x} : s.worker i = .holding k → s.queue.pushes[k]? = some x → x.isEnd isEndTask = true →
      Step (s.setWorker i (.left (.endTask k) .counting))
  | start {i k t} : s.worker i = .holding k → s.queue.pushes[k]? = some (.task t) → isEndTask t = false →
      Step { s.setWorker i (.running k) with runs := s.runs ++ [(i, .start k)] }
  | stop {i k} : s.worker i = .running k →
      Step { s.setWorker i .looping with runs := s.runs ++ [(i, .stop k)] }
  | escape {i k} : s.worker i = .running k → Step (s.setWorker i (.left (.escaped k) .counting))
  | count {i why} : s.worker i = .left why .counting →
      Step { s.setWorker i (.left why (.counted (s.incs.length + 1))) with incs := s.incs ++ [i] }
  | skip {i why c} : s.worker i = .left why (.counted c) → c < n →
      Step (s.setWorker i (.left why .finishing))
  | finish {i why c} : s.worker i = .left why (.counted c) → n ≤ c →
      Step { s.setWorker i (.left why .finishing) with
        state := .finished, stateWaiters := if s.isRequestStop then ∅ else s.stateWaiters }
  | terminate {i why} : s.worker i = .left why .finishing → Step (s.setWorker i (.left why .terminated))

end Step

/-! ## Before the constructor has returned, and before a stop -/

/-- Before the constructor has returned the workers find nothing to do; before a stop is requested none is cancelled;
and the pool pushes at most `n` of its own end items, after the request, which has one winner. -/
structure Begun (s : Core n Cl T) : Prop where
  fresh : s.constructed = false → s.queue.pushes = [] ∧ s.isRequestStop = false ∧ s.state = .init ∧
    ∀ i, s.worker i = .absent ∨ s.worker i = .looping ∨ s.worker i = .popping
  created : s.constructed = true → ∀ i, s.worker i ≠ .absent
  unflagged : s.isRequestStop = false → ∀ i, s.isRequestCancel i = false
  wins : s.wins = if s.isRequestStop then 1 else 0
  ends_le : s.endsPushed ≤ n
  ends_pos : 0 < s.endsPushed → s.isRequestStop = true

section Begun

variable {s : Core n Cl T} {i : Fin n}

/-- Before the constructor has returned nothing can be popped. -/
theorem Begun.no_pop (hi : Begun s) (hc : s.constructed = false) {k : Nat} {x : Item T}
    {q : TaskQueue (Item T) (Fin n)} (h : s.queue.pop i = some (k, x, q)) : False := by
  have hx := (TaskQueue.pop_spec h).2.1
  rw [(hi.fresh hc).1] at hx
  simp at hx

/-- A worker moves on, to where it may be before the constructor has returned, if it has not. -/
theorem Begun.setWorker (hi : Begun s) {w : Worker} (hw : w ≠ .absent)
    (hc : s.constructed = false → w = .looping ∨ w = .popping) : Begun (s.setWorker i w) := by
  refine ⟨fun h => ?_, fun h j => ?_, hi.unflagged, hi.wins, hi.ends_le, hi.ends_pos⟩
  · obtain ⟨h1, h2, h3, h4⟩ := hi.fresh h
    refine ⟨h1, h2, h3, fun j => ?_⟩
    by_cases hj : j = i
    · subst hj; simpa [Core.setWorker, hw] using hc h
    · simpa [Core.setWorker, hj] using h4 j
  · by_cases hj : j = i
    · subst hj; simpa [Core.setWorker] using hw
    · simpa [Core.setWorker, hj] using hi.created h j

/-- A worker that has taken an item or left moves on. -/
theorem Begun.setBusy (hi : Begun s) {w w' : Worker} (hw : s.worker i = w) (hb : w.busy = true) (hw' : w' ≠ .absent) :
    Begun (s.setWorker i w') :=
  hi.setWorker hw' fun hc => by
    subst hw
    rcases (hi.fresh hc).2.2.2 i with h | h | h <;> rw [h] at hb <;> cases hb

/-- What the workers run, how they are counted and who waits says nothing about the beginning. -/
theorem Begun.frame (hi : Begun s) {incs : List (Fin n)} {waiters : Finset Cl} {runs : List (Fin n × Event)} :
    Begun { s with incs, stateWaiters := waiters, runs } :=
  ⟨hi.fresh, hi.created, hi.unflagged, hi.wins, hi.ends_le, hi.ends_pos⟩

/-- The queue changes and what was pushed does not. -/
theorem Begun.setQueue (hi : Begun s) {q : TaskQueue (Item T) (Fin n)} (hq : q.pushes = s.queue.pushes) :
    Begun { s with queue := q } := by
  refine ⟨fun h => ?_, hi.created, hi.unflagged, hi.wins, ?_, ?_⟩
  · obtain ⟨h1, h2⟩ := hi.fresh h
    exact ⟨hq.trans h1, h2⟩
  · simpa only [endsPushed, hq] using hi.ends_le
  · simpa only [endsPushed, hq] using hi.ends_pos

end Begun

/-! ## Counting the workers that have left -/

/-- Each worker is counted once, when it has left. The pool is finished when all were counted, unless the last of them
has yet to say so, and then nobody waits for it. -/
structure Counted (s : Core n Cl T) : Prop where
  once : ∀ i, s.incs.count i = if (s.worker i).counted then 1 else 0
  le : ∀ i why c, s.worker i = .left why (.counted c) → c ≤ s.incs.length
  finished : s.state = .finished → 0 < n ∧ n ≤ s.incs.length
  last : 0 < n → n ≤ s.incs.length → s.state = .finished ∨ ∃ i why c, s.worker i = .left why (.counted c) ∧ n ≤ c
  waiters : s.stateWaiters.Nonempty → s.isRequestStop = true ∧ s.state ≠ .finished

section Counted

variable {s : Core n Cl T} {i : Fin n}

/-- A worker moves and is as much counted as before. -/
theorem Counted.setWorker (hi : Counted s) {w w' : Worker} (hw : s.worker i = w) (hsame : w'.counted = w.counted)
    (hold : ∀ why c, w = .left why (.counted c) → c < n) (hnew : ∀ why c, w' ≠ .left why (.counted c)) :
    Counted (s.setWorker i w') := by
  refine ⟨fun j => ?_, fun j why c hj => ?_, hi.finished, fun h0 hn => ?_, hi.waiters⟩
  · by_cases hji : j = i
    · subst hji; simpa [Core.setWorker, hsame, hw] using hi.once j
    · simpa [Core.setWorker, hji] using hi.once j
  · by_cases hji : j = i
    · subst hji; exact absurd (by simpa [Core.setWorker] using hj) (hnew why c)
    · exact hi.le j why c (by simpa [Core.setWorker, hji] using hj)
  · rcases hi.last h0 hn with h | ⟨j, why, c, hj, hc⟩
    · exact Or.inl h
    · by_cases hji : j = i
      · subst hji
        rw [hw] at hj
        exact absurd (hold why c hj) (by omega)
      · exact Or.inr ⟨j, why, c, by simpa [Core.setWorker, hji] using hj, hc⟩

/-- The queue, the requests and the runs say nothing about the count. -/
theorem Counted.frame (hi : Counted s) {queue : TaskQueue (Item T) (Fin n)} {isRequestCancel : Fin n → Bool}
    {constructed : Bool} {runs : List (Fin n × Event)} :
    Counted { s with queue, isRequestCancel, constructed, runs } :=
  ⟨hi.once, hi.le, hi.finished, hi.last, hi.waiters⟩

/-- The last worker to be counted finishes the pool. -/
theorem Counted.finish (hi : Counted s) {why : Why} {c : Nat} (hw : s.worker i = .left why (.counted c)) (hc : n ≤ c) :
    Counted { s.setWorker i (.left why .finishing) with
      state := .finished, stateWaiters := if s.isRequestStop then ∅ else s.stateWaiters } := by
  have hle := hi.le i why c hw
  refine ⟨fun j => ?_, fun j why' c' hj => ?_, fun _ => ⟨Fin.pos i, by simp only [Core.setWorker]; omega⟩,
    fun _ _ => Or.inl rfl, fun hne => ?_⟩
  · by_cases hji : j = i
    · subst hji; simpa [Core.setWorker, Worker.counted, hw] using hi.once j
    · simpa [Core.setWorker, hji] using hi.once j
  · by_cases hji : j = i
    · subst hji; simp [Core.setWorker] at hj
    · exact hi.le j why' c' (by simpa [Core.setWorker, hji] using hj)
  · split at hne
    · simp at hne
    · rw [(hi.waiters hne).1] at *
      simp at *

/-- A worker is counted. -/
theorem Counted.count (hi : Counted s) {why : Why} (hw : s.worker i = .left why .counting) :
    Counted { s.setWorker i (.left why (.counted (s.incs.length + 1))) with incs := s.incs ++ [i] } := by
  refine ⟨fun j => ?_, fun j why' c hj => ?_, fun h => ?_, fun h0 hn => ?_, hi.waiters⟩
  · have := hi.once j
    by_cases hji : j = i
    · subst hji; simpa [Core.setWorker, Worker.counted, hw] using this
    · simpa [Core.setWorker, hji, Ne.symm hji] using this
  · by_cases hji : j = i
    · subst hji
      simp only [Core.setWorker, Function.update_self, Worker.left.injEq, Leaving.counted.injEq] at hj
      simp [hj.2]
    · have := hi.le j why' c (by simpa [Core.setWorker, hji] using hj)
      simp only [List.length_append, List.length_singleton]
      omega
  · have := hi.finished h
    exact ⟨this.1, by simp; omega⟩
  · refine Or.inr ⟨i, why, s.incs.length + 1, by simp [Core.setWorker], ?_⟩
    simpa using hn

/-- In a finished pool every worker was counted. -/
theorem Counted.all (hi : Counted s) (h : s.state = .finished) (i : Fin n) : (s.worker i).counted = true := by
  have hnodup : s.incs.Nodup := List.nodup_iff_count_le_one.mpr fun j => by rw [hi.once j]; split <;> simp
  have hcard : s.incs.toFinset = Finset.univ := by
    refine Finset.eq_univ_of_card _ (le_antisymm (Finset.card_le_univ _) ?_)
    rw [List.toFinset_card_of_nodup hnodup, Fintype.card_fin]
    exact (hi.finished h).2
  have hmem : i ∈ s.incs := by rw [← List.mem_toFinset, hcard]; exact Finset.mem_univ i
  have hpos := List.count_pos_iff.mpr hmem
  rw [hi.once i] at hpos
  by_contra hn
  simp [hn] at hpos

/-- When all workers were counted the count is full. -/
theorem Counted.full (hi : Counted s) (h : ∀ i, (s.worker i).counted = true) : n ≤ s.incs.length := by
  have hmem : ∀ i, i ∈ s.incs := fun i => List.count_pos_iff.mp (by rw [hi.once i, if_pos (h i)]; exact one_pos)
  calc n = (Finset.univ : Finset (Fin n)).card := by simp
    _ ≤ s.incs.toFinset.card := Finset.card_le_card fun i _ => List.mem_toFinset.mpr (hmem i)
    _ ≤ s.incs.length := List.toFinset_card_le _

end Counted

section Reachable

variable [DecidableEq Cl] (isEndTask : T → Bool)

/-- The states of the runs. -/
def Reachable (s : Core n Cl T) : Prop := Relation.ReflTransGen (Step isEndTask) (new n Cl T) s

variable {isEndTask} {s s' : Core n Cl T}

/-- The invariant rule. -/
theorem Reachable.induct {I : Core n Cl T → Prop} (h0 : I (new n Cl T))
    (hs : ∀ s s', Reachable isEndTask s → Step isEndTask s s' → I s → I s') (h : Reachable isEndTask s) :
    I s := by
  induction h with
  | refl => exact h0
  | tail hr hst ih => exact hs _ _ hr hst ih

theorem Begun.step (hi : Begun s) (h : Step isEndTask s s') : Begun s' := by
  cases h with
  | create h hc => exact hi.setWorker (by simp) fun _ => Or.inl rfl
  | construct h hc => exact ⟨by simp, fun _ => h, hi.unflagged, hi.wins, hi.ends_le, hi.ends_pos⟩
  | push t hc =>
    have hends : (s.queue.push (.task t)).pushes.countP Item.isStop = s.queue.pushes.countP Item.isStop := by
      simp [TaskQueue.push, Item.isStop]
    refine ⟨fun h => by simp [hc] at h, hi.created, hi.unflagged, hi.wins, ?_, ?_⟩
    · simpa only [endsPushed, hends] using hi.ends_le
    · simpa only [endsPushed, hends] using hi.ends_pos
  | pushEnd hr hlt =>
    have hends : (s.queue.push .endTask).pushes.countP Item.isStop = s.queue.pushes.countP Item.isStop + 1 := by
      simp [TaskQueue.push, Item.isStop, List.countP_append]
    refine ⟨fun h => ?_, hi.created, hi.unflagged, hi.wins, ?_, fun _ => hr⟩
    · rw [(hi.fresh h).2.1] at hr; cases hr
    · rw [endsPushed, hends]; exact hlt
  | cas hc hr =>
    exact ⟨fun h => by simp [hc] at h, hi.created, by simp, by simp [hi.wins, hr], hi.ends_le, fun _ => rfl⟩
  | requestCancel i hr =>
    exact ⟨hi.fresh, hi.created, fun h => by simp [hr] at h, hi.wins, hi.ends_le, hi.ends_pos⟩
  | join c hr hs => exact hi.frame
  | wakeState c => exact hi.frame
  | wakeWorker i => exact hi.setQueue rfl
  | cancelled hw hf =>
    refine hi.setWorker (by simp) fun hc => ?_
    rw [hi.unflagged (hi.fresh hc).2.1] at hf; cases hf
  | take hw => exact hi.setWorker (by simp) fun _ => Or.inr rfl
  | block he hw => exact hi.setQueue rfl
  | pop hw hni hp =>
    exact (hi.setWorker (by simp) fun hc => (hi.no_pop hc hp).elim).setQueue (TaskQueue.pop_spec hp).2.2.1
  | dropped hw | ended hw | escape hw | skip hw | terminate hw => exact hi.setBusy hw rfl (by simp)
  | start hw | stop hw | count hw => exact (hi.setBusy hw rfl (by simp)).frame
  | @finish i why c hw hc =>
    have hi' : Begun (s.setWorker i (.left why .finishing)) := hi.setBusy hw rfl (by simp)
    refine ⟨fun h => ?_, hi'.created, hi'.unflagged, hi'.wins, hi'.ends_le, hi'.ends_pos⟩
    rcases (hi.fresh h).2.2.2 _ with h | h | h <;> rw [hw] at h <;> cases h

theorem Reachable.begun (h : Reachable isEndTask s) : Begun s := by
  refine h.induct ?_ fun _ _ _ hs hi => hi.step hs
  exact
    { fresh := fun _ => ⟨rfl, rfl, rfl, fun _ => Or.inl rfl⟩
      created := by simp [new]
      unflagged := fun _ _ => rfl
      wins := rfl
      ends_le := Nat.zero_le _
      ends_pos := fun h => absurd h (Nat.lt_irrefl 0) }

theorem Counted.step (hb : Begun s) (hi : Counted s) (h : Step isEndTask s s') : Counted s' := by
  cases h with
  | create h hc => exact hi.setWorker h rfl (by simp) (by simp)
  | construct h hc =>
    refine ⟨hi.once, hi.le, by simp, fun h0 hn => ?_, fun hne => ⟨(hi.waiters hne).1, by simp⟩⟩
    -- nobody was counted yet
    have hincs : s.incs = [] := by
      refine List.eq_nil_iff_forall_not_mem.mpr fun i hm => ?_
      have hpos := List.count_pos_iff.mpr hm
      rw [hi.once i] at hpos
      rcases (hb.fresh hc).2.2.2 i with h | h | h <;> simp [h, Worker.counted] at hpos
    rw [hincs] at hn
    exact absurd hn (by simp; omega)
  | push | pushEnd | requestCancel | wakeWorker | block => exact hi.frame
  | cas hc hr => exact ⟨hi.once, hi.le, hi.finished, hi.last, fun hne => ⟨rfl, (hi.waiters hne).2⟩⟩
  | join c hr hs => exact ⟨hi.once, hi.le, hi.finished, hi.last, fun _ => ⟨hr, hs⟩⟩
  | wakeState c =>
    exact ⟨hi.once, hi.le, hi.finished, hi.last, fun hne => hi.waiters (hne.mono (Finset.erase_subset _ _))⟩
  | cancelled hw | take hw | dropped hw | ended hw | escape hw | terminate hw =>
    exact hi.setWorker hw rfl (by simp) (by simp)
  | pop hw | start hw | stop hw => exact (hi.setWorker hw (by rfl) (by simp) (by simp)).frame
  | count hw => exact hi.count hw
  | skip hw hc => exact hi.setWorker hw rfl (fun _ _ h => by cases h; exact hc) (by simp)
  | finish hw hc => exact hi.finish hw hc

theorem Reachable.counted (h : Reachable isEndTask s) : Counted s := by
  refine h.induct ?_ fun _ _ hr hs hi => hi.step hr.begun hs
  exact
    { once := fun _ => rfl
      le := by simp [new]
      finished := by simp [new]
      last := fun h0 hn => absurd hn (by simp [new]; omega)
      waiters := fun hne => by simp [new] at hne }

/-- Only a worker that was asked to cancel leaves because of that. -/
def Flagged (s : Core n Cl T) : Prop :=
  ∀ i why p, s.worker i = .left why p → (why = .cancelled ∨ ∃ k, why = .dropped k) → s.isRequestCancel i = true

omit [DecidableEq Cl] in
theorem Flagged.setWorker (hi : Flagged s) (i : Fin n) {w : Worker}
    (hw : ∀ why p, w = .left why p → (why = .cancelled ∨ ∃ k, why = .dropped k) → s.isRequestCancel i = true) :
    Flagged (s.setWorker i w) := by
  intro j why p hj hwhy
  by_cases hji : j = i
  · subst hji; exact hw why p (by simpa [Core.setWorker] using hj) hwhy
  · exact hi j why p (by simpa [Core.setWorker, hji] using hj) hwhy

omit [DecidableEq Cl] in
/-- A worker that has left goes on leaving. -/
theorem Flagged.leave (hi : Flagged s) {i : Fin n} {why : Why} {p : Leaving} (hw : s.worker i = .left why p)
    (p' : Leaving) : Flagged (s.setWorker i (.left why p')) := by
  refine hi.setWorker i fun why' q h hwhy => ?_
  cases h
  exact hi i why p hw hwhy

theorem Flagged.step (hi : Flagged s) (h : Step isEndTask s s') : Flagged s' := by
  have stay : ∀ {i} {w : Worker}, (∀ why p, w ≠ .left why p) → Flagged (s.setWorker i w) := fun hw =>
    hi.setWorker _ fun why p h => absurd h (hw why p)
  cases h with
  | construct | push | pushEnd | cas | join | wakeState | wakeWorker | block => exact hi
  | requestCancel i hr =>
    intro j why p hj hwhy
    by_cases hji : j = i
    · subst hji; simp
    · simpa [hji] using hi j why p hj hwhy
  | cancelled hw hf | dropped hw hf => exact hi.setWorker _ fun _ _ _ _ => hf
  | create | take => exact stay (by simp)
  | pop => exact stay (w := .holding _) (by simp)
  | start => exact stay (w := .running _) (by simp)
  | stop => exact stay (w := .looping) (by simp)
  | ended | escape => exact hi.setWorker _ fun _ _ h hwhy => by cases h; simp at hwhy
  | count hw | skip hw | finish hw | terminate hw => exact hi.leave hw _

theorem Reachable.flagged (h : Reachable isEndTask s) : Flagged s :=
  h.induct (fun _ _ _ h => by cases h) fun _ _ _ hs hi => hi.step hs

/-- **When every worker has terminated after a stop was requested, the pool is finished and nobody waits for it.** -/
theorem Reachable.finished (h : Reachable isEndTask s) (h0 : 0 < n)
    (ht : ∀ i, ∃ why, s.worker i = .left why .terminated) : s.state = .finished ∧ s.stateWaiters = ∅ := by
  have hc := h.counted
  have hfull := hc.full fun i => by obtain ⟨why, hw⟩ := ht i; rw [hw]; rfl
  have hfin : s.state = .finished := by
    rcases hc.last h0 hfull with h | ⟨i, why, c, hw, -⟩
    · exact h
    · obtain ⟨why', hw'⟩ := ht i
      rw [hw] at hw'; cases hw'
  refine ⟨hfin, ?_⟩
  by_contra hne
  exact (hc.waiters (Finset.nonempty_iff_ne_empty.mpr hne)).2 hfin

end Reachable

end Core

end Tpool
