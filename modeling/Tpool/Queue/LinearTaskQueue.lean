import Tpool.Queue.BlockingQueue

/-!
# LinearTaskQueue

- `LinearTaskQueue.code`: a blocking queue of tasks, initially empty, whose methods delegate.
- `blocking_queues`: both queues are linearizable unbounded FIFOs that lose no wake-up.
-/

namespace Tpool

open Concurrency Concurrency.Monitor QueueImpl

namespace LinearTaskQueue

inductive Method (Task : Type*)
  | push (task : Task)
  | pop
  | size

variable {Task : Type*}

/-- The method of `m_tasks` that is called. -/
def delegate : Method Task → BlockingQueue.Method Task
  | .push task => .push task
  | .pop => .pop
  | .size => .size

def code : Code (Method Task) Unit (QueueImpl Task) (Fifo.Res Task) := BlockingQueue.code.via delegate

/-- A task queue, used by the threads `Tid`. -/
def queue (Task Tid : Type*) [DecidableEq Tid] :
    System (State Tid (Method Task) Unit (QueueImpl Task) (Fifo.Res Task)) (Action Tid (Method Task) Unit) :=
  Monitor.system code (ofContainer [])

/-- The operation of the FIFO that a method is meant to be. -/
def op (m : Method Task) : Fifo.Op Task := BlockingQueue.op (delegate m)

end LinearTaskQueue

/-! ## What the blocking queues guarantee -/

section Guarantee

variable {Tid α μ : Type*} [DecidableEq Tid]

/-- A linearizable unbounded FIFO before which threads wait only when it is empty, and where the only popper gets what
its front returned. -/
structure BlockingFifo (op : μ → Fifo.Op α) (init : List α) (s : State Tid μ Unit (QueueImpl α) (Fifo.Res α)) :
    Prop where
  linearizable : Linearizable none op init s
  waiting : ∀ t ∈ s.waiting (), s.data.elems = []
  only_popper : ∀ t before m r between m' r' after x y,
    s.log = before ++ (t, m, some r) :: (between ++ (t, m', some r') :: after) →
    (∀ e ∈ s.log, e.1 ≠ t → e.2.2.bind (Fifo.poppedBy (op e.2.1)) = none) → (∀ e ∈ between, e.1 ≠ t) →
    Fifo.seenBy (op m) r = some x → Fifo.poppedBy (op m') r' = some y → y = x

/-- Under whatever names its methods go, a blocking queue is a FIFO that loses no wake-up. -/
theorem BlockingQueue.blockingFifo (f : μ → BlockingQueue.Method α) (init : List α)
    {s : State Tid μ Unit (QueueImpl α) (Fifo.Res α)}
    (h : (Monitor.system (BlockingQueue.code.via f) (ofContainer init)).Reachable Anything s) :
    BlockingFifo (BlockingQueue.op ∘ f) init s := by
  have hlin := QueueImpl.linearizable BlockingQueue.verified (by simp) (.of_empty rfl) h
  have hA := (BlockingQueue.verified.sound (.start (by simp) (.of_empty rfl)) h).always BlockingQueue.verified
  exact ⟨hlin, fun t ht => hA.waiting ⟨t, ht⟩, fun t before m r between m' r' after x y he honly hb hx hy =>
    hlin.only_popper he honly hb hx hy⟩

/-- **The blocking queues are FIFOs without lost wake-ups**: `BlockingQueue`, from every initial container, and
`LinearTaskQueue`. -/
theorem blocking_queues :
    (∀ (init : List α) (s : State Tid (BlockingQueue.Method α) Unit (QueueImpl α) (Fifo.Res α)),
      (BlockingQueue.queue Tid init).Reachable Anything s → BlockingFifo BlockingQueue.op init s) ∧
    ∀ s : State Tid (LinearTaskQueue.Method α) Unit (QueueImpl α) (Fifo.Res α),
      (LinearTaskQueue.queue α Tid).Reachable Anything s → BlockingFifo LinearTaskQueue.op [] s :=
  ⟨fun init _ h => BlockingQueue.blockingFifo id init h, fun _ h => BlockingQueue.blockingFifo _ [] h⟩

/-- A thread that fronts, lets another push, and pops. -/
theorem blocking_queues_run : ∃ s, (BlockingQueue.queue (Fin 2) [1]).Reachable Anything s ∧ s.data.elems = [2] ∧
    BlockingFifo BlockingQueue.op [1] s := by
  obtain ⟨s, hs, hp⟩ := System.reachable_of_exec (BlockingQueue.queue (Fin 2) [1]) Anything
    ([.call 0 .front, .call 1 (.push 2)] ++ List.replicate 5 (.step 0 false) ++ List.replicate 5 (.step 1 false) ++
      [.call 0 .pop] ++ List.replicate 6 (.step 0 false)) (fun s => s.data.elems == [2]) (by decide)
  exact ⟨s, hs, by simpa using hp, blocking_queues.1 [1] s hs⟩

end Guarantee

end Tpool
