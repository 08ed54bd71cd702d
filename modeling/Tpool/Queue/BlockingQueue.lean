import Tpool.Queue.QueueImpl

/-!
# BlockingQueue

- `BlockingQueue.body`: the methods, statement by statement; `ConditionWaitLocker` is `waitWhile`,
  `ConditionNotifyAllLocker` is `notifyAllIf`. There is one condition variable, that of `m_mutexCond`.
- `Waits`: only at the empty queue someone waits. `verified`: the methods keep it, under whatever names they go (`f`).
-/

namespace Tpool

open Concurrency Concurrency.Monitor QueueImpl

namespace BlockingQueue

variable {Tid μ α : Type*}

/-- `popRef` and `frontRef` are the overloads that copy into their argument. -/
inductive Method (α : Type*)
  | push (elem : α)
  | pop
  | popRef
  | nonblockingPop
  | front
  | frontRef
  | nonblockingFront
  | size
  | isEmpty

abbrev Body (α : Type*) := List (Stmt Unit (QueueImpl α) (Fifo.Res α))

def push (elem : α) : Body α := [.notifyAllIf () empty, pushBack elem .void]

-- wait until task queue is not empty
def pop : Body α := [.waitWhile () fun q _ => q.empty, copyFront .elem, popFront]

def popRef : Body α := [.waitWhile () fun q _ => q.empty, copyFront .elem, popFront]

def nonblockingPop : Body α := [.returnIf empty (.found none), copyFront fun x => .found (some x), popFront]

def front : Body α := [.waitWhile () fun q _ => q.empty, copyFront .elem]

def frontRef : Body α := [.waitWhile () fun q _ => q.empty, copyFront .elem]

def nonblockingFront : Body α := [.returnIf empty (.found none), copyFront fun x => .found (some x)]

def size : Body α := [read fun q => .size q.size]

def isEmpty : Body α := [read fun q => .bool q.empty]

def body : Method α → Body α
  | .push elem => push elem
  | .pop => pop
  | .popRef => popRef
  | .nonblockingPop => nonblockingPop
  | .front => front
  | .frontRef => frontRef
  | .nonblockingFront => nonblockingFront
  | .size => size
  | .isEmpty => isEmpty

def code : Code (Method α) Unit (QueueImpl α) (Fifo.Res α) := ⟨body, .void⟩

/-- A queue constructed from `container` and used by the threads `Tid`. -/
def queue (Tid : Type*) [DecidableEq Tid] (container : List α) :
    System (State Tid (Method α) Unit (QueueImpl α) (Fifo.Res α)) (Action Tid (Method α) Unit) :=
  Monitor.system code (ofContainer container)

/-- The operation of the FIFO that a method is meant to be. -/
def op : Method α → Fifo.Op α
  | .push elem => .push elem
  | .pop | .popRef => .pop
  | .nonblockingPop => .tryPop
  | .front | .frontRef => .front
  | .nonblockingFront => .tryFront
  | .size => .size
  | .isEmpty => .isEmpty

/-! ## The methods are verified -/

section Verified

/-- Someone waits only for the empty queue. -/
def Waits (elems : List α) (w : Waiting Tid Unit) : Prop := (w ()).Nonempty → elems = []

variable {init : List α} {f : μ → Method α} {q : QueueImpl α} {w : Waiting Tid Unit} {lg : Log Tid μ (Fifo.Res α)}

theorem Waits.mono {elems : List α} {w w' : Waiting Tid Unit} (hw : w' ≤ w) (h : Waits elems w) : Waits elems w' :=
  fun hne => h (hne.mono (hw ()))

/-- When nobody waits, nobody waits at other contents either. -/
theorem Waits.of_empty {elems : List α} (hw : w () = ∅) : Waits elems w := fun hne => by simp [hw] at hne

/-- Before a nonempty queue nobody waits. -/
theorem Waits.no_waiter (h : Waits q.elems w) (hq : q.empty = false) : w () = ∅ := by
  by_contra hw
  rw [(empty_iff q).mpr (h (Finset.nonempty_iff_ne_empty.mpr hw))] at hq
  cases hq

variable [DecidableEq Tid]

/-- **The methods of the queue keep the resource invariant.** -/
theorem verified : Verified (Guarded none init (@Waits Tid α)) (Free none (op ∘ f) init Waits) (code.via f) where
  always h := h.guarded
  always_wake hw h := ⟨h.history, h.bound, h.waiting.mono hw⟩
  free_wake hw h := ⟨h.recorded, h.bound, h.waiting.mono hw⟩
  body t m q w lg h := by
    have hwait (q : QueueImpl α) (w : Waiting Tid Unit) (lg : Log Tid μ (Fifo.Res α))
        (_ : Free none (op ∘ f) init Waits q w lg) (hq : q.empty = true) : Waits q.elems (w.join () t) :=
      fun _ => (empty_iff q).mp hq
    have hpop (q : QueueImpl α) (w : Waiting Tid Unit) (lg : Log Tid μ (Fifo.Res α))
        (h : Free none (op ∘ f) init Waits q w lg) (hq : q.empty = false) (x : α) (elems : List α)
        (_ : q.elems = x :: elems) : Waits elems w := .of_empty (h.waiting.no_waiter hq)
    have hret : q.empty = true → q.elems = [] := (empty_iff q).mp
    simp only [Code.via, code]
    cases hm : f m with
    | push elem =>
      refine wp_notify Waits.mono h fun w' hle hw' h' => wp_push h' rfl (.of_empty ?_) ?_ ?_ ?_
      · cases hq : q.empty with
        | true => exact hw' hq
        | false => exact h'.waiting.no_waiter hq
      all_goals simp [hm, op, Fifo.apply, Fifo.isFull, Fifo.pushedBy, Fifo.poppedBy]
    | pop | popRef =>
      refine wp_wait h hwait fun q w lg h hq => wp_copy_pop h hq (hpop q w lg h hq) ?_ ?_ ?_ <;>
        simp [hm, op, Fifo.apply, Fifo.pushedBy, Fifo.poppedBy]
    | nonblockingPop =>
      refine wp_return h (fun hq => ?_) ?_ ?_ fun hq => wp_copy_pop h hq (hpop q w lg h hq) ?_ ?_ ?_ <;>
        simp [op, Fifo.apply, Fifo.pushedBy, Fifo.poppedBy, *]
    | front | frontRef =>
      refine wp_wait h hwait fun q w lg h hq => wp_copy h hq ?_ ?_ ?_ <;>
        simp [hm, op, Fifo.apply, Fifo.pushedBy, Fifo.poppedBy]
    | nonblockingFront =>
      refine wp_return h (fun hq => ?_) ?_ ?_ fun hq => wp_copy h hq ?_ ?_ ?_ <;>
        simp [op, Fifo.apply, Fifo.pushedBy, Fifo.poppedBy, *]
    | size =>
      refine wp_read h ?_ ?_ ?_ <;> simp [hm, op, Fifo.apply, Fifo.pushedBy, Fifo.poppedBy, QueueImpl.size]
    | isEmpty =>
      refine wp_read h ?_ ?_ ?_ <;> simp [hm, op, Fifo.apply, Fifo.pushedBy, Fifo.poppedBy, QueueImpl.empty]

end Verified

end BlockingQueue

end Tpool
