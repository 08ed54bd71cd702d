import Tpool.Queue.QueueImpl

/-!
# BoundedBlockingQueue

- `BoundedBlockingQueue.body`: the methods, statement by statement, over the two condition variables of one mutex.
- `Waits`: someone waits on `m_queue_empty_cond` only when the queue is empty, on `m_queue_full_cond` only when it is
  full. The notifications are sent on the transitions only, before the queue changes; `verified` shows that this is
  enough, and that the test for fullness may be an equality.
- `linearizable_bounded`, `no_lost_wakeup`: what follows for every run.
-/

namespace Tpool

open Concurrency Concurrency.Monitor QueueImpl

namespace BoundedBlockingQueue

variable {Tid α : Type*}

/-- What the constructors assert of their arguments; the one without a container takes the empty one. -/
structure Args (α : Type*) where
  maxSize : Nat
  container : List α
  maxSize_pos : 0 < maxSize
  container_le : container.length ≤ maxSize

def Args.ofSize (maxSize : Nat) (h : 0 < maxSize) : Args α := ⟨maxSize, [], h, Nat.zero_le _⟩

/-- The condition variables. -/
inductive Cond
  | empty
  | full
  deriving DecidableEq

/-- `popRef` and `frontRef` are the overloads that copy into their argument. -/
inductive Method (α : Type*)
  | push (elem : α)
  | nonblockingPush (elem : α)
  | pop
  | popRef
  | nonblockingPop
  | front
  | frontRef
  | nonblockingFront
  | size
  | isFull
  | isEmpty

abbrev Body (α : Type*) := List (Stmt Cond (QueueImpl α) (Fifo.Res α))

section Methods

variable (maxSize : Nat)

def isFullWithLockHeld (q : QueueImpl α) : Bool := q.size == maxSize

def push (elem : α) : Body α :=
  [.waitWhile .full fun q _ => isFullWithLockHeld maxSize q, .notifyAllIf .empty empty, pushBack elem .void]

def nonblockingPush (elem : α) : Body α :=
  [.returnIf (fun q => q.size == maxSize) (.bool false), .notifyAllIf .empty empty, pushBack elem (.bool true)]

def popRef : Body α :=
  -- wait until task queue is not empty
  [.waitWhile .empty fun q _ => q.empty, .notifyAllIf .full fun q => q.size == maxSize, copyFront .elem, popFront]

/-- `Pop()` calls the overload with a local element and returns it. -/
def pop : Body α := popRef maxSize

def nonblockingPop : Body α :=
  [.returnIf empty (.found none), .notifyAllIf .full fun q => q.size == maxSize, copyFront fun x => .found (some x),
    popFront]

def front : Body α := [.waitWhile .empty fun q _ => q.empty, copyFront .elem]

def frontRef : Body α := [.waitWhile .empty fun q _ => q.empty, copyFront .elem]

def nonblockingFront : Body α := [.returnIf empty (.found none), copyFront fun x => .found (some x)]

def size : Body α := [read fun q => .size q.size]

def isFull : Body α := [read fun q => .bool (q.size == maxSize)]

def isEmpty : Body α := [read fun q => .bool q.empty]

def body : Method α → Body α
  | .push elem => push maxSize elem
  | .nonblockingPush elem => nonblockingPush maxSize elem
  | .pop => pop maxSize
  | .popRef => popRef maxSize
  | .nonblockingPop => nonblockingPop maxSize
  | .front => front
  | .frontRef => frontRef
  | .nonblockingFront => nonblockingFront
  | .size => size
  | .isFull => isFull maxSize
  | .isEmpty => isEmpty

def code : Code (Method α) Cond (QueueImpl α) (Fifo.Res α) := ⟨body maxSize, .void⟩

end Methods

/-- A queue constructed with the arguments and used by the threads `Tid`. -/
def queue (Tid : Type*) [DecidableEq Tid] (args : Args α) :
    System (State Tid (Method α) Cond (QueueImpl α) (Fifo.Res α)) (Action Tid (Method α) Cond) :=
  Monitor.system (code args.maxSize) (ofContainer args.container)

/-- The operation of the FIFO that a method is meant to be. -/
def op : Method α → Fifo.Op α
  | .push elem => .push elem
  | .nonblockingPush elem => .tryPush elem
  | .pop | .popRef => .pop
  | .nonblockingPop => .tryPop
  | .front | .frontRef => .front
  | .nonblockingFront => .tryFront
  | .size => .size
  | .isFull => .isFull
  | .isEmpty => .isEmpty

/-! ## The methods are verified -/

section Verified

variable (maxSize : Nat)

/-- Who waits, waits for the empty queue to be pushed to, or for the full one to be popped from. -/
structure Waits (elems : List α) (w : Waiting Tid Cond) : Prop where
  empty : (w .empty).Nonempty → elems = []
  full : (w .full).Nonempty → elems.length = maxSize

variable {maxSize} {init elems : List α} {q : QueueImpl α} {w w' : Waiting Tid Cond}
  {lg : Log Tid (Method α) (Fifo.Res α)}

theorem Waits.mono (hw : w' ≤ w) (h : Waits maxSize elems w) : Waits maxSize elems w' :=
  ⟨fun hne => h.empty (hne.mono (hw .empty)), fun hne => h.full (hne.mono (hw .full))⟩

/-- When nobody waits, nobody waits at other contents either. -/
theorem Waits.of_empty (he : w .empty = ∅) (hf : w .full = ∅) : Waits maxSize elems w :=
  ⟨fun hne => by simp [he] at hne, fun hne => by simp [hf] at hne⟩

/-- Before a nonempty queue nobody waits for elements. -/
theorem Waits.no_popper (h : Waits maxSize q.elems w) (hq : q.empty = false) : w .empty = ∅ := by
  by_contra hw
  rw [(empty_iff q).mpr (h.empty (Finset.nonempty_iff_ne_empty.mpr hw))] at hq
  cases hq

/-- Before a queue that is not full nobody waits for room. -/
theorem Waits.no_pusher (h : Waits maxSize q.elems w) (hq : (q.size == maxSize) = false) : w .full = ∅ := by
  by_contra hw
  have hfull : q.size = maxSize := h.full (Finset.nonempty_iff_ne_empty.mpr hw)
  simp [hfull] at hq

/-- Not full is not holding the maximal number of elements. -/
theorem isFull_eq (q : QueueImpl α) : Fifo.isFull (some maxSize) q.elems = (q.size == maxSize) := by
  by_cases h : q.elems.length = maxSize
  · simp [Fifo.isFull, QueueImpl.size, h]
  · simp [Fifo.isFull, QueueImpl.size, h, Ne.symm h]

variable [DecidableEq Tid]

/-- Notifying the poppers and pushing, when there is room. -/
theorem wp_notify_push (h : Free (some maxSize) op init (Waits maxSize) q w lg) (hroom : (q.size == maxSize) = false)
    {t : Tid} {m : Method α} {elem : α} {r r0 : Fifo.Res α}
    (ha : Fifo.apply (some maxSize) q.elems (op m) = some (q.elems ++ [elem], r))
    (hpush : Fifo.pushedBy (op m) r = some elem) (hpop : Fifo.poppedBy (op m) r = none) :
    wp (Guarded (some maxSize) init (Waits maxSize)) (Free (some maxSize) op init (Waits maxSize)) t m
      [.notifyAllIf .empty empty, pushBack elem r] r0 q w lg := by
  refine wp_notify Waits.mono h fun w' hle hw' h' => ?_
  have hempty : w' .empty = ∅ := by
    cases hq : q.empty with
    | true => exact hw' hq
    | false => exact h'.waiting.no_popper hq
  exact wp_push h' (by rw [isFull_eq, hroom]) (.of_empty hempty (h'.waiting.no_pusher hroom)) ha hpush hpop

/-- Notifying the pushers and popping, when there is an element. -/
theorem wp_notify_pop (h : Free (some maxSize) op init (Waits maxSize) q w lg) (hq : q.empty = false)
    {t : Tid} {m : Method α} {r0 : Fifo.Res α} {mk : α → Fifo.Res α}
    (ha : ∀ x elems, Fifo.apply (some maxSize) (x :: elems) (op m) = some (elems, mk x))
    (hpush : ∀ x, Fifo.pushedBy (op m) (mk x) = none) (hpop : ∀ x, Fifo.poppedBy (op m) (mk x) = some x) :
    wp (Guarded (some maxSize) init (Waits maxSize)) (Free (some maxSize) op init (Waits maxSize)) t m
      [.notifyAllIf .full fun q => q.size == maxSize, copyFront mk, popFront] r0 q w lg := by
  refine wp_notify Waits.mono h fun w' hle hw' h' => ?_
  have hfull : w' .full = ∅ := by
    cases hroom : q.size == maxSize with
    | true => exact hw' hroom
    | false => exact h'.waiting.no_pusher hroom
  exact wp_copy_pop h' hq (fun _ _ _ => .of_empty (h'.waiting.no_popper hq) hfull) ha hpush hpop

/-- Waiting for an element. -/
theorem wp_wait_empty (h : Free (some maxSize) op init (Waits maxSize) q w lg) {t : Tid} {m : Method α} {rest : Body α}
    {r0 : Fifo.Res α} (hrest : ∀ q w lg, Free (some maxSize) op init (Waits maxSize) q w lg → q.empty = false →
      wp (Guarded (some maxSize) init (Waits maxSize)) (Free (some maxSize) op init (Waits maxSize)) t m rest r0 q
      w lg) :
    wp (Guarded (some maxSize) init (Waits maxSize)) (Free (some maxSize) op init (Waits maxSize)) t m
      (.waitWhile .empty (fun q _ => q.empty) :: rest) r0 q w lg :=
  wp_wait h (fun q _ _ h hq => ⟨fun _ => (empty_iff q).mp hq, fun hne => h.waiting.full (by simpa using hne)⟩) hrest

/-- **The methods of the queue keep the resource invariant.** -/
theorem verified : Verified (Guarded (some maxSize) init (@Waits Tid α maxSize))
    (Free (some maxSize) op init (Waits maxSize)) (code maxSize) where
  always h := h.guarded
  always_wake hw h := ⟨h.history, h.bound, h.waiting.mono hw⟩
  free_wake hw h := ⟨h.recorded, h.bound, h.waiting.mono hw⟩
  body t m q w lg h := by
    have hret : q.empty = true → q.elems = [] := (empty_iff q).mp
    simp only [code]
    cases m with
    | push elem =>
      refine wp_wait h (fun q w _ h hq => ⟨fun hne => h.waiting.empty (by simpa using hne), fun _ => ?_⟩)
        fun q w lg h hroom => wp_notify_push h hroom ?_ rfl rfl
      · simpa [isFullWithLockHeld, QueueImpl.size] using hq
      · have hroom : (q.size == maxSize) = false := hroom
        simp [op, Fifo.apply, isFull_eq, hroom]
    | nonblockingPush elem =>
      refine wp_return h (fun hfull => ?_) rfl rfl fun hroom => wp_notify_push h hroom ?_ rfl rfl <;>
        simp [op, Fifo.apply, isFull_eq, *]
    | pop | popRef =>
      exact wp_wait_empty h fun q w lg h hq => wp_notify_pop h hq (fun _ _ => rfl) (fun _ => rfl) fun _ => rfl
    | nonblockingPop =>
      refine wp_return h (fun hq => ?_) rfl rfl fun hq =>
        wp_notify_pop h hq (fun _ _ => rfl) (fun _ => rfl) fun _ => rfl
      simp [op, Fifo.apply, hret hq]
    | front | frontRef =>
      exact wp_wait_empty h fun q w lg h hq => wp_copy h hq (fun _ _ => rfl) (fun _ => rfl) fun _ => rfl
    | nonblockingFront =>
      refine wp_return h (fun hq => ?_) rfl rfl fun hq => wp_copy h hq (fun _ _ => rfl) (fun _ => rfl) fun _ => rfl
      simp [op, Fifo.apply, hret hq]
    | size => exact wp_read h rfl rfl rfl
    | isFull => exact wp_read h (by simp [op, Fifo.apply, isFull_eq]) rfl rfl
    | isEmpty => exact wp_read h rfl rfl rfl

end Verified

/-! ## Every run -/

section Runs

variable [DecidableEq Tid] {args : Args α} {s : State Tid (Method α) Cond (QueueImpl α) (Fifo.Res α)}

/-- **The queue is a linearizable bounded FIFO.** -/
theorem linearizable_bounded (h : (queue Tid args).Reachable Anything s) :
    Linearizable (some args.maxSize) op args.container s :=
  QueueImpl.linearizable verified (by simpa using args.container_le) (.of_empty rfl rfl) h

/-- A full queue of one element: a push that fails, then a pop. -/
theorem linearizable_bounded_run : ∃ s, (queue (Fin 2) ⟨1, ["a"], by decide, by decide⟩).Reachable Anything s ∧
    s.data.popped = ["a"] ∧ s.log.length = 2 ∧ Linearizable (some 1) op ["a"] s := by
  obtain ⟨s, hs, hp⟩ := System.reachable_of_exec (queue (Fin 2) ⟨1, ["a"], by decide, by decide⟩) Anything
    ([.call 0 (.nonblockingPush "b"), .call 1 .pop] ++ List.replicate 3 (.step 0 false) ++
      List.replicate 7 (.step 1 false)) (fun s => s.data.popped == ["a"] && s.log.length == 2) (by decide)
  simp only [Bool.and_eq_true, beq_iff_eq] at hp
  exact ⟨s, hs, hp.1, hp.2, linearizable_bounded hs⟩

theorem proved (h : (queue Tid args).Reachable Anything s) :
    Proved (Guarded (some args.maxSize) args.container (Waits args.maxSize))
      (Free (some args.maxSize) op args.container (Waits args.maxSize)) s :=
  verified.sound (.start (by simpa using args.container_le) (.of_empty rfl rfl)) h

/-- The methods that wait for an element. -/
def Method.waitsForElement : Method α → Bool
  | .pop | .popRef | .front | .frontRef => true
  | _ => false

/-- Only those methods contain a wait for an element. -/
theorem wait_empty_mem {maxSize : Nat} {m : Method α} {g : QueueImpl α → Fifo.Res α → Bool}
    (h : Stmt.waitWhile .empty g ∈ body maxSize m) : m.waitsForElement = true := by
  cases m <;> simp_all [body, push, nonblockingPush, pop, popRef, nonblockingPop, front, frontRef,
      nonblockingFront, size,
    isFull, isEmpty, copyFront, popFront, pushBack, QueueImpl.read, Method.waitsForElement]

/-- Only `Push` contains a wait for room. -/
theorem wait_full_mem {maxSize : Nat} {m : Method α} {g : QueueImpl α → Fifo.Res α → Bool}
    (h : Stmt.waitWhile .full g ∈ body maxSize m) : ∃ elem, m = .push elem := by
  cases m <;> simp_all [body, push, nonblockingPush, pop, popRef, nonblockingPop, front, frontRef,
      nonblockingFront, size,
    isFull, isEmpty, copyFront, popFront, pushBack, QueueImpl.read]

/-- Someone who waits finds the queue empty, or full. -/
theorem waiting (h : (queue Tid args).Reachable Anything s) : Waits args.maxSize s.data.elems s.waiting :=
  ((proved h).always verified).waiting

/-- An exception leaves the contents to the calls that were completed, and its next step frees the mutex. -/
theorem throw_leaves (h : (queue Tid args).Reachable Anything s) {t : Tid} {m : Method α} (ht : s.pc t = .leave m none)
    (throws : Bool) : (Fifo.object (some args.maxSize) op).Legal args.container s.log s.data.elems ∧
    ∃ s', (queue Tid args).step s (.step t throws) = some s' ∧ s'.owner = none ∧ s'.data = s.data ∧
    s'.pc t = .idle := by
  refine ⟨Object.legal_throw.mp ((proved h).leave t m none ht).recorded.legal, ?_⟩
  simp [queue, system, next, ht, State.goto]

/-- In a state in which no call can move, the calls in progress are all waiting for an element of an empty queue, or
all pushing to a full one. -/
theorem stuck (h : (queue Tid args).Reachable Anything s)
    (hstuck : ∀ t, s.pc t ≠ .idle → Stuck (code args.maxSize) s t) {t : Tid} (ht : s.pc t ≠ .idle) :
    (s.data.elems = [] ∧ ∀ u, s.pc u ≠ .idle → ∃ m, (s.pc u).method = some m ∧ m.waitsForElement = true) ∨
      (s.data.size = args.maxSize ∧ ∀ u, s.pc u ≠ .idle → ∃ elem, (s.pc u).method = some (.push elem)) := by
  have hwait := waiting h
  obtain ⟨-, hblocked⟩ := (proved h).stuck_waits hstuck
  have hmem : ∀ u m c g rest x, s.pc u = .blocked m c g rest x → Stmt.waitWhile c g ∈ body args.maxSize m :=
    fun u m c g rest x hu => (suffix_body h u m _ (by rw [hu]; rfl)).subset (by simp)
  obtain ⟨m, c, g, rest, x, hpc, hin⟩ := hblocked t ht
  cases c with
  | empty =>
    have hempty := hwait.empty ⟨t, hin⟩
    refine Or.inl ⟨hempty, fun u hu => ?_⟩
    obtain ⟨m', c', g', rest', x', hpc', hin'⟩ := hblocked u hu
    cases c' with
    | empty => exact ⟨m', by rw [hpc']; rfl, wait_empty_mem (hmem u _ _ _ _ _ hpc')⟩
    | full =>
      have hfull := hwait.full ⟨u, hin'⟩
      rw [hempty] at hfull
      exact absurd hfull args.maxSize_pos.ne
  | full =>
    have hfull := hwait.full ⟨t, hin⟩
    refine Or.inr ⟨hfull, fun u hu => ?_⟩
    obtain ⟨m', c', g', rest', x', hpc', hin'⟩ := hblocked u hu
    cases c' with
    | empty =>
      rw [hwait.empty ⟨u, hin'⟩] at hfull
      exact absurd hfull args.maxSize_pos.ne
    | full =>
      obtain ⟨elem, rfl⟩ := wait_full_mem (hmem u _ _ _ _ _ hpc')
      exact ⟨elem, by rw [hpc']; rfl⟩

/-- **No wake-up is lost**, also where copying an element throws. -/
theorem no_lost_wakeup (h : (queue Tid args).Reachable Anything s) :
    (∀ t ∈ s.waiting .empty, s.data.elems = []) ∧ (∀ t ∈ s.waiting .full, s.data.size = args.maxSize) ∧
    (∀ t m throws, s.pc t = .leave m none →
      (Fifo.object (some args.maxSize) op).Legal args.container s.log s.data.elems ∧
      ∃ s', (queue Tid args).step s (.step t throws) = some s' ∧ s'.owner = none ∧ s'.data = s.data ∧ s'.pc t = .idle) ∧
    ((∀ t, s.pc t ≠ .idle → Stuck (code args.maxSize) s t) → (∃ t, s.pc t ≠ .idle) →
      (s.data.elems = [] ∧ ∀ t, s.pc t ≠ .idle → ∃ m, (s.pc t).method = some m ∧ m.waitsForElement = true) ∨
      (s.data.size = args.maxSize ∧ ∀ t, s.pc t ≠ .idle → ∃ elem, (s.pc t).method = some (.push elem))) :=
  ⟨fun t ht => (waiting h).empty ⟨t, ht⟩, fun t ht => (waiting h).full ⟨t, ht⟩,
    fun _ _ throws ht => throw_leaves h ht throws, fun hstuck ⟨_, ht⟩ => stuck h hstuck ht⟩

/-- A push whose copy throws, after it has notified a waiting popper. -/
theorem no_lost_wakeup_run : ∃ s, (queue (Fin 2) ⟨1, ([] : List String), by decide, by decide⟩).Reachable Anything s ∧
    s.pc 1 = .leave (.push "a") none ∧ (∀ t ∈ s.waiting .empty, s.data.elems = []) ∧
    (∀ t ∈ s.waiting .full, s.data.size = 1) ∧
    (∀ t m throws, s.pc t = .leave m none → (Fifo.object (some 1) op).Legal [] s.log s.data.elems ∧
      ∃ s', (queue (Fin 2) ⟨1, ([] : List String), by decide, by decide⟩).step s (.step t throws) = some s' ∧
        s'.owner = none ∧ s'.data = s.data ∧ s'.pc t = .idle) ∧
    ((∀ t, s.pc t ≠ .idle → Stuck (code 1) s t) → (∃ t, s.pc t ≠ .idle) →
      (s.data.elems = [] ∧ ∀ t, s.pc t ≠ .idle → ∃ m, (s.pc t).method = some m ∧ m.waitsForElement = true) ∨
      (s.data.size = 1 ∧ ∀ t, s.pc t ≠ .idle → ∃ elem, (s.pc t).method = some (.push elem))) := by
  obtain ⟨s, hs, hp⟩ := System.reachable_of_exec (queue (Fin 2) ⟨1, ([] : List String), by decide, by decide⟩) Anything
    [.call 0 .pop, .step 0 false, .step 0 false, .call 1 (.push "a"), .step 1 false, .step 1 false, .step 1 false,
      .step 1 true]
    (fun s => match s.pc 1 with
      | .leave (.push elem) none => elem == "a"
      | _ => false) (by decide)
  refine ⟨s, hs, ?_, no_lost_wakeup hs⟩
  split at hp
  · rename_i hpc
    rw [hpc, eq_of_beq hp]
  · cases hp

end Runs

end BoundedBlockingQueue

end Tpool
