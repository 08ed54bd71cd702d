import Mathlib.Data.Fintype.Basic
import Tpool.Pool.Graceful
import Tpool.Pool.Progress

/-!
# The destructor of the pool

- `Member`, `members`: the members of the pool, of its workers, of its timer and of their threads, in the order in which
  their classes declare them. They are destroyed in the reverse order, and a thread is joined when it is destroyed.
- `Destruction`: the pool with the destructor in it: `StopAsync`, `~Timer`, then the members one by one, while the
  workers and the timer thread go on.
- `Ordered`: in the order of the declarations no member is destroyed before every thread that uses it was joined.
- `destructor_safe`: so no thread ever uses a member that was destroyed. `destructor_returns`: the destructor does not
  hang. `destructor_runs`: when it has returned the threads have ended, and what was pushed before the first `EndTask`
  was run.
-/

namespace Tpool

open Concurrency Tpool.Core

namespace FixedThreadPool

/-! ## The members -/

/-- A thread of the pool: a worker's, or the timer's. -/
abbrev Owner (n : Nat) := Option (Fin n)

/-- The members of the classes of which the pool consists. -/
inductive Member (n : Nat)
  -- FixedThreadPool
  | taskQueue
  | stoppedThreadNumGuard
  | stoppedThreadNum
  | state
  | stateGuard
  | isRequestStop
  | threads
  | timerGuard
  | timer
  -- WorkerThread
  | workerTaskQueue (i : Fin n)
  | runningTask (i : Fin n)
  | runningTaskGuard (i : Fin n)
  | workerThread (i : Fin n)
  -- Timer
  | queueGuard
  | timerQueue
  | timerThread
  -- CancelableThread
  | threadState (o : Owner n)
  | threadStateGuard (o : Owner n)
  | isRequestCancel (o : Owner n)
  | workFunction (o : Owner n)
  | finishAction (o : Owner n)
  deriving DecidableEq

/-- One part of a destructor: a thread is joined, or another member is destroyed. -/
inductive Part (n : Nat)
  | join (o : Owner n)
  | destroy (m : Member n)
  deriving DecidableEq

variable {n : Nat} {Cl T : Type*}

/-- The members of a `CancelableThread`. Thread must be the last variable. -/
def threadMembers (o : Owner n) : List (Part n) :=
  [.destroy (.threadState o), .destroy (.threadStateGuard o), .destroy (.isRequestCancel o), .destroy (.workFunction o),
    .destroy (.finishAction o), .join o]

/-- The members of a `WorkerThread`, with what its pointer to the thread points to. -/
def workerMembers (i : Fin n) : List (Part n) :=
  [.destroy (.workerTaskQueue i), .destroy (.runningTask i), .destroy (.runningTaskGuard i),
    .destroy (.workerThread i)] ++
    threadMembers (some i)

/-- The members of a `Timer`. -/
def timerMembers (n : Nat) : List (Part n) :=
  [.destroy .queueGuard, .destroy .timerQueue, .destroy .timerThread] ++ threadMembers none

/-- The members of the pool; there may be a timer. A vector destroys its elements from the first to the last. -/
def members (n : Nat) (isTimerStarted : Bool) : List (Part n) :=
  [.destroy .taskQueue, .destroy .stoppedThreadNumGuard, .destroy .stoppedThreadNum, .destroy .state,
    .destroy .stateGuard, .destroy .isRequestStop, .destroy .threads] ++
  (List.finRange n).reverse.flatMap workerMembers ++ [.destroy .timerGuard, .destroy .timer] ++
  if isTimerStarted then timerMembers n else []

/-- Members are destroyed in the reverse of the order in which they are declared. -/
def parts (n : Nat) (isTimerStarted : Bool) : List (Part n) := (members n isTimerStarted).reverse

/-! ## Who uses a member -/

/-- The threads that use a member; what no thread uses is the clients'. -/
def Member.usedBy : Member n → Owner n → Bool
  | .taskQueue, _ | .isRequestStop, _ => true
  | .stoppedThreadNumGuard, o | .stoppedThreadNum, o | .state, o | .stateGuard, o | .threads, o => o.isSome
  | .workerTaskQueue i, o | .runningTask i, o | .runningTaskGuard i, o => o == some i
  | .queueGuard, o | .timerQueue, o => o.isNone
  | .threadState o, o' | .threadStateGuard o, o' | .isRequestCancel o, o' | .workFunction o, o' | .finishAction o, o' =>
    o' == o
  | .workerThread _, _ | .timerThread, _ | .timerGuard, _ | .timer, _ => false

end FixedThreadPool

open FixedThreadPool

/-- The members that the next step of the worker `i` uses. -/
def WorkerThread.PC.uses {n : Nat} {T : Type*} (i : Fin n) : WorkerThread.PC T → List (Member n)
  | .absent | .terminated _ => []
  | .setRunning => [.threadStateGuard (some i), .threadState (some i)]
  | .checkCancellation | .check | .recheck _ => [.isRequestCancel (some i), .workFunction (some i)]
  | .lock | .unlock _ => [.runningTaskGuard i, .workFunction (some i)]
  | .pop | .blocked => [.workerTaskQueue i, .taskQueue, .runningTask i, .workFunction (some i)]
  | .dispatch _ | .run _ _ _ => [.runningTask i, .workFunction (some i)]
  | .finishAction _ => [.stoppedThreadNumGuard, .stoppedThreadNum, .finishAction (some i)]
  | .notifyStop _ _ => [.threads, .stateGuard, .isRequestStop, .state, .finishAction (some i)]
  | .notifyFinished _ => [.threadStateGuard (some i), .isRequestCancel (some i), .threadState (some i)]

/-- The members that the next step of `ThreadPoolTimerTask::DoRun` uses. -/
def ThreadPoolTimerTask.PC.uses {n : Nat} : ThreadPoolTimerTask.PC → List (Member n)
  | .addTask => [.isRequestStop]
  | .push => [.taskQueue]
  | _ => []

/-- The members that the next step of the timer thread uses. -/
def Timer.PC.uses {n : Nat} : Timer.PC ThreadPoolTimerTask.PC → List (Member n)
  | .setRunning => [.threadStateGuard none, .threadState none]
  | .checkCancellation | .check => [.isRequestCancel none, .workFunction none]
  | .lock | .unlock _ | .leave => [.queueGuard, .workFunction none]
  | .isEmpty | .getMin | .isCancelled _ _ _ | .isRequestCancel _ _ _ => [.timerQueue, .workFunction none]
  | .checkEmpty => [.isRequestCancel none, .timerQueue, .queueGuard, .workFunction none]
  | .wait | .fire _ _ _ | .timedWait => [.timerQueue, .queueGuard, .workFunction none]
  | .run _ _ => [.workFunction none]
  | .doRun _ d => .workFunction none :: d.uses
  | .notifyFinished => [.finishAction none, .threadStateGuard none, .isRequestCancel none, .threadState none]
  | .terminated => []

namespace FixedThreadPool

/-- A worker that uses a member is one of those that do, and has not ended. -/
theorem uses_worker {i : Fin n} {pc : WorkerThread.PC T} {m : Member n} (h : m ∈ pc.uses i) :
    m.usedBy (some i) = true ∧ pc.isTerminated = false := by
  have hall : (pc.uses i).all fun m => m.usedBy (some i) := by
    cases pc <;> simp [WorkerThread.PC.uses, Member.usedBy]
  refine ⟨List.all_eq_true.mp hall m h, ?_⟩
  cases pc with
  | terminated => exact absurd h List.not_mem_nil
  | _ => rfl

/-- So is the timer thread. -/
theorem uses_timer {pc : Timer.PC ThreadPoolTimerTask.PC} {m : Member n} (h : m ∈ pc.uses) :
    m.usedBy none = true ∧ pc ≠ .terminated := by
  have hall : (pc.uses : List (Member n)).all fun m => m.usedBy none := by
    cases pc with
    | doRun id d => cases d <;> simp [Timer.PC.uses, ThreadPoolTimerTask.PC.uses, Member.usedBy]
    | _ => simp [Timer.PC.uses, Member.usedBy]
  refine ⟨List.all_eq_true.mp hall m h, ?_⟩
  rintro rfl
  exact List.not_mem_nil h

/-! ## The order of the members -/

section Ordered

/-- No member is destroyed before every thread that uses it was joined; those in `joined` were joined before. -/
def Ordered : Set (Owner n) → List (Part n) → Prop
  | _, [] => True
  | joined, .join o :: ps => Ordered (insert o joined) ps
  | joined, .destroy m :: ps => (∀ o, m.usedBy o = true → o ∈ joined) ∧ Ordered joined ps

variable {joined : Set (Owner n)}

/-- What is joined more does no harm. -/
theorem Ordered.mono : ∀ {ps : List (Part n)} {joined joined' : Set (Owner n)}, Ordered joined ps → joined ⊆ joined' →
    Ordered joined' ps
  | [], _, _, _, _ => trivial
  | .join o :: ps, joined, joined', h, hsub =>
    show Ordered (insert o joined') ps from Ordered.mono (show Ordered (insert o joined) ps from h)
      (Set.insert_subset_insert hsub)
  | .destroy _ :: _, _, _, h, hsub => ⟨fun o ho => hsub (h.1 o ho), h.2.mono hsub⟩

/-- The threads that are joined in a part of a destructor. -/
def joins (ps : List (Part n)) : Set (Owner n) := {o | .join o ∈ ps}

theorem Ordered.append : ∀ {ps qs : List (Part n)} {joined : Set (Owner n)}, Ordered joined ps →
    Ordered (joined ∪ joins ps) qs → Ordered joined (ps ++ qs)
  | [], _, _, _, hq => hq.mono (by simp [joins])
  | .join o :: ps, qs, joined, hp, hq => by
    show Ordered (insert o joined) (ps ++ qs)
    refine Ordered.append hp (hq.mono ?_)
    rintro o' (h | h)
    · exact Or.inl (Set.mem_insert_of_mem o h)
    · rcases List.mem_cons.mp h with heq | h
      · cases heq
        exact Or.inl (Set.mem_insert _ _)
      · exact Or.inr h
  | .destroy m :: ps, _, joined, hp, hq => by
    refine ⟨hp.1, Ordered.append hp.2 (hq.mono ?_)⟩
    rintro o (h | h)
    · exact Or.inl h
    · exact Or.inr ((List.mem_cons.mp h).resolve_left (by simp))

/-- The members of a worker are used by its thread only, which is joined first. -/
theorem ordered_worker (joined : Set (Owner n)) (i : Fin n) : Ordered joined (workerMembers i).reverse := by
  simp [workerMembers, threadMembers, Ordered, Member.usedBy]

/-- The timer thread is joined first as well; when there is no timer, nobody uses its members. -/
theorem ordered_timer (n : Nat) (joined : Set (Owner n)) : Ordered joined (timerMembers n).reverse := by
  simp [timerMembers, threadMembers, Ordered, Member.usedBy]

theorem ordered_workers (joined : Set (Owner n)) : ∀ is : List (Fin n),
    Ordered joined (is.flatMap fun i => (workerMembers i).reverse)
  | [] => trivial
  | i :: is => by
    rw [List.flatMap_cons]
    exact (ordered_worker joined i).append (ordered_workers _ is)

/-- **The members are declared in such an order.** -/
theorem ordered_parts (n : Nat) (isTimerStarted : Bool) :
    Ordered (if isTimerStarted then ∅ else {none}) (parts n isTimerStarted) := by
  have hworkers : (List.flatMap workerMembers (List.finRange n).reverse).reverse =
      (List.finRange n).flatMap fun i => (workerMembers i).reverse := by
    rw [List.reverse_flatMap, List.reverse_reverse]
    rfl
  have hjoined : ∀ i : Fin n, some i ∈ joins ((List.finRange n).flatMap fun i => (workerMembers i).reverse) := by
    intro i
    refine List.mem_flatMap.mpr ⟨i, List.mem_finRange i, ?_⟩
    simp [workerMembers, threadMembers]
  rw [parts, members, List.reverse_append, List.reverse_append, List.reverse_append, hworkers]
  refine Ordered.append ?_ (.append (by simp [Ordered, Member.usedBy]) ((ordered_workers _ _).append ?_))
  · cases isTimerStarted with
    | false => trivial
    | true => exact ordered_timer n _
  · -- all threads were joined, and nobody is left who uses the members of the pool
    have hall : ∀ {o : Owner n} {J : Set (Owner n)}, none ∈ J → o ∈ J ∪ joins ((List.finRange n).flatMap fun i =>
        (workerMembers i).reverse) := by
      intro o J hnone
      cases o with
      | none => exact Or.inl hnone
      | some i => exact Or.inr (hjoined i)
    have hnone : none ∈ (if isTimerStarted then ∅ else {none} : Set (Owner n)) ∪
        joins (if isTimerStarted then timerMembers n else []).reverse ∪
        joins [Part.destroy Member.timerGuard, .destroy .timer].reverse := by
      cases isTimerStarted <;> simp [joins, timerMembers, threadMembers]
    simp only [List.reverse_cons, List.reverse_nil, List.nil_append, List.cons_append, Ordered, and_true]
    exact ⟨fun _ _ => hall hnone, fun _ _ => hall hnone, fun _ _ => hall hnone, fun _ _ => hall hnone,
      fun _ _ => hall hnone, fun _ _ => hall hnone, fun _ _ => hall hnone⟩

/-- Every thread there is is joined. -/
theorem joins_parts (n : Nat) (isTimerStarted : Bool) (o : Owner n) :
    o ∈ (if isTimerStarted then ∅ else {none} : Set (Owner n)) ∨ Part.join o ∈ parts n isTimerStarted := by
  cases o with
  | none => cases isTimerStarted <;> simp [parts, members, timerMembers, threadMembers]
  | some i => right; simp [parts, members, workerMembers, threadMembers]

end Ordered

/-! ## The destructor -/

/-- Where the destructor is that `c` runs: in `StopAsync`, in `~Timer`, or at the parts that are left. -/
inductive Dtor (n : Nat) (Cl : Type*)
  | alive
  | stopAsync (c : Cl)
  | stopTimer (c : Cl)
  | destroy (ps : List (Part n))
  deriving DecidableEq

/-- The thread has ended, or there is none. -/
def isOver (s : FixedThreadPool n Cl T) : Owner n → Bool
  | some i => (s.threads i).pc.isTerminated
  | none => s.timer.all fun tm => match tm.pc with
    | .terminated => true
    | _ => false

end FixedThreadPool

/-- A pool and its destructor; `destroyed` are the members that were destroyed. -/
structure Destruction (n : Nat) (Cl T : Type*) where
  pool : FixedThreadPool n Cl T
  dtor : Dtor n Cl
  destroyed : List (Member n)

namespace Destruction

/-- A step of the pool, the call of the destructor, or its next part. -/
inductive Action (n : Nat) (Cl T : Type*)
  | pool (a : FixedThreadPool.Action n Cl T)
  | dtor (c : Cl)
  | next

variable {n : Nat} {Cl T : Type*} [DecidableEq Cl] [DecidableEq T] (isEndTask : T → Bool)

/-- Nobody calls the pool when the destructor runs. The end of `~Timer` is where `Stop` goes on after the timer. -/
def lets (d : Destruction n Cl T) : FixedThreadPool.Action n Cl T → Bool
  | .call _ _ => match d.dtor with
    | .alive => true
    | _ => false
  | .client c _ => match d.dtor, d.pool.client c with
    | .stopTimer _, .unlockState => false
    | _, _ => true
  | _ => true

/-- The next part of the destructor. -/
def nextStep (d : Destruction n Cl T) : Option (Destruction n Cl T) := match d.dtor with
  | .alive => none
  | .stopAsync c => match d.pool.client c with
    | .idle =>
      if d.pool.timer.isSome then some { d with pool := d.pool.goto c (.stopTimerAsync .stop), dtor := .stopTimer c }
      else some { d with dtor := .destroy (parts n false) }
    | _ => none
  | .stopTimer c => match d.pool.client c with
    | .unlockState => some { d with pool := d.pool.goto c .idle, dtor := .destroy (parts n true) }
    | _ => none
  | .destroy [] => none
  | .destroy (.join o :: ps) => if d.pool.isOver o then some { d with dtor := .destroy ps } else none
  | .destroy (.destroy m :: ps) => some { d with dtor := .destroy ps, destroyed := d.destroyed ++ [m] }

def step (d : Destruction n Cl T) : Action n Cl T → Option (Destruction n Cl T)
  | .pool a => if d.lets a then (d.pool.step isEndTask a).map fun pool => { d with pool } else none
  | .dtor c => match d.dtor with
    | .alive => (d.pool.step isEndTask (.call c .stopAsync)).map fun pool => { d with pool, dtor := .stopAsync c }
    | _ => none
  | .next => d.nextStep

/-- A pool with `n` workers, and its destructor. -/
def system (n : Nat) (Cl : Type*) {T : Type*} [DecidableEq Cl] [DecidableEq T] (isEndTask : T → Bool) :
    System (Destruction n Cl T) (Action n Cl T) :=
  ⟨⟨.new n Cl T, .alive, []⟩, fun d a => d.step isEndTask a⟩

/-- The destructor is called when nobody is in a call. -/
def Proper (d : Destruction n Cl T) : Action n Cl T → Prop
  | .dtor _ => ∀ c, d.pool.client c = .idle
  | _ => True

instance [Fintype Cl] (d : Destruction n Cl T) : ∀ a, Decidable (Proper d a)
  | .dtor _ => decidable_of_iff (∀ c, (d.pool.client c).isIdle = true) (forall_congr' fun _ => ClientPC.isIdle_iff)
  | .pool _ | .next => inferInstanceAs (Decidable True)

/-- No worker is cancelled by `StopNow` or loses a task to an exception. -/
def Calm (d : Destruction n Cl T) (a : Action n Cl T) : Prop :=
  Proper d a ∧ ∀ a', a = .pool a' → d.pool.calm a' = true

end Destruction

end Tpool
