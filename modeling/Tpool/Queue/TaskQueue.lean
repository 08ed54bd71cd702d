import Tpool.Queue.LinearTaskQueue

/-!
# The task queue with atomic operations

- `TaskQueue`: the contents, who has pushed and popped what in which order, and who is blocked in `Pop` and not
  notified. It carries what is always true of them: the contents are what was pushed and not popped, and only before the
  empty queue someone is blocked.
- `push`, `pop`, `block`, `wake`: a `Push`, a `Pop` that finds an element, a `Pop` that finds none, a spurious wake-up.
- `atomic`: the steps of `LinearTaskQueue`, statement by statement, are such operations or invisible.
-/

namespace Tpool

open Concurrency

/-- What was pushed keeps its position when more is pushed. -/
theorem getElem?_grow {α : Type*} {pushes pushes' : List α} {k : Nat} {x : α} (hp : pushes <+: pushes')
    (h : pushes[k]? = some x) : pushes'[k]? = some x := by
  obtain ⟨rest, rfl⟩ := hp
  rw [List.getElem?_append_left (List.getElem?_eq_some_iff.mp h).1, h]

/-- The elements of type `α`; the threads `W` pop them. -/
structure TaskQueue (α W : Type*) where
  elems : List α
  pushes : List α
  pops : List W
  waiting : Finset W
  pops_le : pops.length ≤ pushes.length
  elems_eq : elems = pushes.drop pops.length
  waiting_empty : waiting.Nonempty → elems = []

namespace TaskQueue

variable {α W : Type*}

def new : TaskQueue α W := ⟨[], [], [], ∅, le_rfl, rfl, by simp⟩

/-- `Push` notifies everyone when it finds the queue empty. -/
def push (q : TaskQueue α W) (x : α) : TaskQueue α W where
  elems := q.elems ++ [x]
  pushes := q.pushes ++ [x]
  pops := q.pops
  waiting := if q.elems.isEmpty then ∅ else q.waiting
  pops_le := by have := q.pops_le; simp; omega
  elems_eq := by rw [List.drop_append_of_le_length q.pops_le, q.elems_eq]
  waiting_empty h := by
    split at h
    · simp at h
    · exact absurd (q.waiting_empty h) (by simpa using ‹¬ q.elems.isEmpty = true›)

/-- `Pop` by `i`, with the position of the element among the pushes. -/
def pop (q : TaskQueue α W) (i : W) : Option (Nat × α × TaskQueue α W) := match h : q.elems with
  | [] => none
  | x :: elems => some (q.pops.length, x,
    { q with
      elems
      pops := q.pops ++ [i]
      pops_le := by
        have hlen := congrArg List.length (q.elems_eq.symm.trans h)
        simp only [List.length_drop, List.length_cons] at hlen
        simp only [List.length_append, List.length_singleton]
        omega
      elems_eq := by
        rw [List.length_append, List.length_singleton, ← List.drop_drop, ← q.elems_eq, h]
        rfl
      waiting_empty := fun hw => by rw [q.waiting_empty hw] at h; cases h })

variable [DecidableEq W]

/-- `i` blocks in `Pop`, before the empty queue. -/
def block (q : TaskQueue α W) (i : W) (h : q.elems = []) : TaskQueue α W :=
  { q with
    waiting := insert i q.waiting
    waiting_empty := fun _ => h }

/-- `i` is no longer blocked. -/
def wake (q : TaskQueue α W) (i : W) : TaskQueue α W :=
  { q with
    waiting := q.waiting.erase i
    waiting_empty := fun hw => q.waiting_empty (hw.mono (Finset.erase_subset _ _)) }

/-! ## What the operations do -/

section Ops

variable {q q' : TaskQueue α W} {x : α} {i : W} {k : Nat}

omit [DecidableEq W] in
/-- A pop takes the first of the pushes that was not taken. -/
theorem pop_spec (h : q.pop i = some (k, x, q')) : k = q.pops.length ∧ q.pushes[k]? = some x ∧
    q'.pushes = q.pushes ∧ q'.pops = q.pops ++ [i] ∧ q'.waiting = q.waiting ∧ q.elems = x :: q'.elems := by
  unfold pop at h
  split at h
  · cases h
  · rename_i y elems he
    cases h
    refine ⟨rfl, ?_, rfl, rfl, rfl, he⟩
    have hhead := congrArg List.head? (q.elems_eq.symm.trans he)
    simpa [List.head?_drop] using hhead

omit [DecidableEq W] in
theorem pop_eq_none : q.pop i = none ↔ q.elems = [] := by
  unfold pop
  split <;> simp_all

end Ops

/-! ## The monitor's steps are these operations -/

section Refine

open Concurrency.Monitor

/-- One operation. -/
inductive Step (q : TaskQueue α W) : TaskQueue α W → Prop
  | push (x : α) : Step q (q.push x)
  | pop {i k x q'} : q.pop i = some (k, x, q') → Step q q'
  | block (i : W) (h : q.elems = []) : Step q (q.block i h)
  | wake (i : W) : Step q (q.wake i)

/-- The operations that lead from the new queue to `q`. -/
def Runs (q : TaskQueue α W) : Prop := Relation.ReflTransGen Step new q

/-- Everyone wakes, one after the other. -/
theorem wakeAll (q : TaskQueue α W) : ∃ q', Relation.ReflTransGen Step q q' ∧ q'.pushes = q.pushes ∧
    q'.pops = q.pops ∧ q'.waiting = ∅ := by
  induction hw : q.waiting using Finset.induction_on generalizing q with
  | empty => exact ⟨q, .refl, rfl, rfl, hw⟩
  | insert i rest hi ih =>
    obtain ⟨q', hs, h1, h2, h3⟩ := ih (q.wake i) (by simp [wake, hw, hi])
    exact ⟨q', .head (.wake i) hs, h1, h2, h3⟩

variable {s s' : State W (LinearTaskQueue.Method α) Unit (QueueImpl α) (Fifo.Res α)}

/-- The atomic queue shows what the monitor holds. -/
structure Shows (q : TaskQueue α W) (s : State W (LinearTaskQueue.Method α) Unit (QueueImpl α) (Fifo.Res α)) :
    Prop where
  runs : Runs q
  elems : q.elems = s.data.elems
  pushes : q.pushes = s.data.pushed
  waiting : q.waiting = s.waiting ()

theorem Shows.of_eq {q : TaskQueue α W} (hq : Shows q s) (hd : s'.data = s.data) (hw : s'.waiting = s.waiting) :
    Shows q s' :=
  ⟨hq.runs, by rw [hd, hq.elems], by rw [hd, hq.pushes], by rw [hw, hq.waiting]⟩

/-- The statements of the methods. -/
theorem mem_body {m : LinearTaskQueue.Method α} {st : Stmt Unit (QueueImpl α) (Fifo.Res α)}
    (h : st ∈ LinearTaskQueue.code.body m) : st = .notifyAllIf () QueueImpl.empty ∨
      (∃ x, st = QueueImpl.pushBack x .void) ∨ st = .waitWhile () (fun q _ => q.empty) ∨
      st = QueueImpl.copyFront .elem ∨ st = QueueImpl.popFront ∨ ∃ f, st = QueueImpl.read f := by
  cases m with
  | push x =>
    simp only [LinearTaskQueue.code, Code.via, LinearTaskQueue.delegate, BlockingQueue.code, BlockingQueue.body,
      BlockingQueue.push, List.mem_cons, List.not_mem_nil, or_false] at h
    rcases h with rfl | rfl
    · exact Or.inl rfl
    · exact Or.inr (Or.inl ⟨x, rfl⟩)
  | pop =>
    simp only [LinearTaskQueue.code, Code.via, LinearTaskQueue.delegate, BlockingQueue.code, BlockingQueue.body,
      BlockingQueue.pop, List.mem_cons, List.not_mem_nil, or_false] at h
    rcases h with rfl | rfl | rfl <;> simp
  | size =>
    simp only [LinearTaskQueue.code, Code.via, LinearTaskQueue.delegate, BlockingQueue.code, BlockingQueue.body,
      BlockingQueue.size, List.mem_cons, List.not_mem_nil, or_false] at h
    subst h
    exact Or.inr (Or.inr (Or.inr (Or.inr (Or.inr ⟨_, rfl⟩))))

/-- What one statement does is an operation or several, or nothing. -/
theorem Shows.exec {q : TaskQueue α W} (hq : Shows q s) {t : W} {throws : Bool} {m : LinearTaskQueue.Method α}
    {x : Fifo.Res α} {rest : List (Stmt Unit (QueueImpl α) (Fifo.Res α))} {st : Stmt Unit (QueueImpl α) (Fifo.Res α)}
    (hst : st ∈ LinearTaskQueue.code.body m) (h : exec s t throws m x rest st = some s')
    (hwait : (s'.waiting ()).Nonempty → s'.data.elems = []) : ∃ q, Shows q s' := by
  rcases mem_body hst with rfl | ⟨y, rfl⟩ | rfl | rfl | rfl | ⟨f, rfl⟩
  · -- the notification wakes everyone
    cases h
    by_cases he : s.data.empty = true
    · obtain ⟨q', hs, h1, h2, h3⟩ := q.wakeAll
      have h4 : q'.elems = q.elems := by rw [q'.elems_eq, q.elems_eq, h1, h2]
      exact ⟨q', hq.runs.trans hs, h4.trans hq.elems, h1.trans hq.pushes, by simp [he, h3]⟩
    · exact ⟨q, hq.of_eq rfl (by simp [he])⟩
  · cases throws with
    | true => cases h; exact ⟨q, hq.of_eq rfl rfl⟩
    | false =>
      cases h
      have hempty : s.waiting () = ∅ := by
        by_contra hne
        have := hwait (Finset.nonempty_iff_ne_empty.mpr hne)
        simp [QueueImpl.push] at this
      refine ⟨q.push y, hq.runs.tail (.push y), ?_, ?_, ?_⟩
      · simp [push, QueueImpl.push, hq.elems]
      · simp [push, QueueImpl.push, hq.pushes]
      · simp [push, hq.waiting, hempty, State.goto]
  · simp only [Monitor.exec] at h
    split at h
    · rename_i he
      cases h
      have he : q.elems = [] := by rw [hq.elems]; exact (QueueImpl.empty_iff _).mp he
      exact ⟨q.block t he, hq.runs.tail (.block t he), hq.elems, hq.pushes, by simp [block, hq.waiting]⟩
    · cases h; exact ⟨q, hq.of_eq rfl rfl⟩
  · cases throws with
    | true => cases h; exact ⟨q, hq.of_eq rfl rfl⟩
    | false =>
      simp only [Monitor.exec, QueueImpl.copyFront, Bool.false_eq_true, if_false] at h
      obtain ⟨⟨d, r⟩, hd, rfl⟩ := Option.map_eq_some_iff.mp h
      obtain ⟨y, -, hy⟩ := Option.map_eq_some_iff.mp hd
      cases hy
      exact ⟨q, hq.of_eq rfl rfl⟩
  · cases throws with
    | true => cases h
    | false =>
      simp only [Monitor.exec, QueueImpl.popFront, Bool.false_eq_true, if_false] at h
      obtain ⟨⟨d, r⟩, hd, rfl⟩ := Option.map_eq_some_iff.mp h
      obtain ⟨d', hd', hy⟩ := Option.map_eq_some_iff.mp hd
      cases hy
      cases he : s.data.elems with
      | nil => simp [QueueImpl.pop, he] at hd'
      | cons y elems =>
        rw [QueueImpl.pop_of_elems he] at hd'
        cases hd'
        cases hpop : q.pop t with
        | none => rw [pop_eq_none, hq.elems, he] at hpop; cases hpop
        | some r =>
          obtain ⟨k, z, q'⟩ := r
          obtain ⟨-, -, h1, -, h3, h4⟩ := pop_spec hpop
          rw [hq.elems, he] at h4
          exact ⟨q', hq.runs.tail (.pop hpop), (List.cons.inj h4).2.symm, h1.trans hq.pushes, h3.trans hq.waiting⟩
  · cases throws with
    | true => cases h
    | false => cases h; exact ⟨q, hq.of_eq rfl rfl⟩

/-- **`LinearTaskQueue` is the atomic queue.** In every reachable state the contents, the pushes and the blocked threads
are those of a run of atomic operations. -/
theorem atomic (h : (LinearTaskQueue.queue α W).Reachable Anything s) : ∃ q, Shows q s := by
  refine h.induct (I := fun s => ∃ q, Shows q s) ⟨new, .refl, rfl, rfl, rfl⟩ fun s a s' hr _ hs ⟨q, hq⟩ => ?_
  have hguard := ((BlockingQueue.verified.sound (.start (by simp) (.of_empty rfl)) (hr.step trivial hs)).always
    BlockingQueue.verified).waiting
  have hbody := suffix_body hr
  cases a with
  | call t m =>
    simp only [LinearTaskQueue.queue, system, next] at hs
    split at hs <;> cases hs
    exact ⟨q, hq.of_eq rfl rfl⟩
  | wake c t =>
    simp only [LinearTaskQueue.queue, system, next] at hs
    split at hs <;> cases hs
    exact ⟨q.wake t, hq.runs.tail (.wake t), hq.elems, hq.pushes, by simp [wake, Waiting.wake, hq.waiting]⟩
  | step t throws =>
    simp only [LinearTaskQueue.queue, system, next] at hs
    cases ht : s.pc t with
    | idle => rw [ht] at hs; cases hs
    | enter m => simp only [ht] at hs; split at hs <;> cases hs; exact ⟨q, hq.of_eq rfl rfl⟩
    | blocked m c f rest x => simp only [ht] at hs; split at hs <;> cases hs; exact ⟨q, hq.of_eq rfl rfl⟩
    | leave m r => simp only [ht, Option.some.injEq] at hs; subst hs; exact ⟨q, hq.of_eq rfl rfl⟩
    | body m stmts x =>
      rw [ht] at hs
      cases stmts with
      | nil => cases hs; exact ⟨q, hq.of_eq rfl rfl⟩
      | cons st rest =>
        have hmem : st ∈ LinearTaskQueue.code.body m := (hbody t m _ (by rw [ht]; rfl)).subset (by simp)
        exact hq.exec hmem hs hguard

end Refine

end TaskQueue

end Tpool
