import Tpool.Concurrency.Blocked
import Tpool.Concurrency.Returns
import Tpool.Queue.BoundedBlockingQueue
import Tpool.Queue.LinearTaskQueue

/-!
# Calls of the queues that return

In a fair run a call returns, or what it waits for is missing again and again.

- `passes`: a call passes its waits where there is what it waits for.
- `bounded_queue_returns`: for the bounded queue. Who waits for an element and who waits for room do not block each
  other, since a queue that is full again and again and empty again and again has ever more elements going through it
  (`through`).
- `blocking_queues_return`: for `BlockingQueue` and `LinearTaskQueue`.
-/

namespace Tpool

open Concurrency Concurrency.Monitor Concurrency.System QueueImpl

variable {Tid α μ : Type*} [DecidableEq Tid]

namespace QueueImpl

/-- A statement that only appends to what was pushed and to what was popped. -/
def Grows {ι : Type*} : Stmt ι (QueueImpl α) (Fifo.Res α) → Prop
  | .act _ g => ∀ q x q' x', g q x = some (q', x') →
      q.pushed.length ≤ q'.pushed.length ∧ q.popped.length ≤ q'.popped.length
  | _ => True

section Grows

variable {ι : Type*} {c : ι}

@[simp] theorem grows_waitWhile {f : QueueImpl α → Fifo.Res α → Bool} : Grows (.waitWhile c f) := trivial

@[simp] theorem grows_returnIf {f : QueueImpl α → Bool} {x : Fifo.Res α} : Grows (ι := ι) (.returnIf f x) := trivial

@[simp] theorem grows_notifyAllIf {f : QueueImpl α → Bool} : Grows (.notifyAllIf c f) := trivial

@[simp] theorem grows_read {f : QueueImpl α → Fifo.Res α} : Grows (ι := ι) (QueueImpl.read f) := by
  intro q x q' x' he
  cases he
  exact ⟨le_rfl, le_rfl⟩

@[simp] theorem grows_pushBack {elem : α} {res : Fifo.Res α} : Grows (ι := ι) (pushBack elem res) := by
  intro q x q' x' he
  cases he
  exact ⟨by simp [QueueImpl.push], le_rfl⟩

@[simp] theorem grows_copyFront {mk : α → Fifo.Res α} : Grows (ι := ι) (copyFront mk) := by
  intro q x q' x' he
  obtain ⟨y, -, he⟩ := Option.map_eq_some_iff.mp he
  cases he
  exact ⟨le_rfl, le_rfl⟩

@[simp] theorem grows_popFront : Grows (ι := ι) (popFront (α := α)) := by
  intro q x q' x' he
  obtain ⟨y, hpop, he⟩ := Option.map_eq_some_iff.mp he
  cases he
  simp only [QueueImpl.pop] at hpop
  split at hpop <;> cases hpop
  exact ⟨le_rfl, by simp⟩

end Grows

end QueueImpl

namespace BoundedBlockingQueue

variable {args : Args α} {s s' : State Tid (Method α) Cond (QueueImpl α) (Fifo.Res α)} {t u : Tid} {m : Method α}

/-- The waits of the methods. -/
theorem wait_mem {maxSize : Nat} {c : Cond} {g : QueueImpl α → Fifo.Res α → Bool}
    (h : Stmt.waitWhile c g ∈ body maxSize m) :
    (c = .empty ∧ m.waitsForElement = true ∧ g = fun q _ => q.empty) ∨
      (c = .full ∧ (∃ elem, m = .push elem) ∧ g = fun q _ => isFullWithLockHeld maxSize q) := by
  cases m <;> simp_all [body, push, nonblockingPush, pop, popRef, nonblockingPop, front, frontRef,
      nonblockingFront, size,
    isFull, isEmpty, copyFront, popFront, pushBack, QueueImpl.read, Method.waitsForElement]

/-- Where there is what its method waits for, a call passes. -/
theorem passes (h : (queue Tid args).Reachable Anything s) (hm : (s.pc t).method = some m)
    (helem : m.waitsForElement = true → s.data.elems ≠ [])
    (hroom : (∃ elem, m = .push elem) → s.data.size ≠ args.maxSize) :
    Passes s t := by
  refine ⟨fun m' c f rest x hpc => ?_, fun _ m' c f rest x hpc hin => ?_⟩
  all_goals
    obtain rfl : m' = m := by simpa [hpc, PC.method] using hm
    have hmem := (suffix_body h t m' _ (by rw [hpc]; rfl)).subset (List.mem_cons_self ..)
  · rcases wait_mem hmem with ⟨-, hwaits, rfl⟩ | ⟨-, hpush, rfl⟩
    · exact Bool.not_eq_true _ ▸ (empty_iff s.data).not.mpr (helem hwaits)
    · simpa [isFullWithLockHeld] using hroom hpush
  · rcases wait_mem hmem with ⟨rfl, hwaits, -⟩ | ⟨rfl, hpush, -⟩
    · exact helem hwaits ((waiting h).empty ⟨t, hin⟩)
    · exact hroom hpush ((waiting h).full ⟨t, hin⟩)

/-- The statements of the methods only append to the history. -/
theorem grows {maxSize : Nat} (m : Method α) : ∀ st ∈ body maxSize m, Grows st := by
  cases m <;> simp [body, push, nonblockingPush, pop, popRef, nonblockingPop, front, frontRef, nonblockingFront, size,
    isFull, isEmpty]

/-- How many elements were pushed and popped. -/
def passed (s : State Tid (Method α) Cond (QueueImpl α) (Fifo.Res α)) : ℕ × ℕ :=
  (s.data.pushed.length, s.data.popped.length)

theorem passed_mono (h : (queue Tid args).Reachable Anything s) {a : Action Tid (Method α) Cond}
    (hs : (queue Tid args).step s a = some s') : passed s ≤ passed s' :=
  next_data (R := fun q q' : QueueImpl α => q.pushed.length ≤ q'.pushed.length ∧ q.popped.length ≤ q'.popped.length)
    (fun _ => ⟨le_rfl, le_rfl⟩) (fun m b g hg => grows m (.act b g) hg) h hs

theorem history_length (h : (queue Tid args).Reachable Anything s) :
    args.container.length + s.data.pushed.length = s.data.popped.length + s.data.elems.length := by
  simpa using congrArg List.length ((proved h).always verified).history

section Runs

variable {r : (queue Tid args).Run Anything} {k : ℕ}

/-- A call returns, or what it waits for is missing again and again. -/
theorem returns_or_starves (hf : r.Fair Action.party) (hm : ((r.state k).pc t).method = some m) :
    (∃ j ≥ k, (r.state j).pc t = .idle) ∨
      (m.waitsForElement = true ∧ r.Often fun s => s.data.elems = []) ∨
      (∃ elem, m = .push elem) ∧ r.Often fun s => s.data.size = args.maxSize := by
  by_cases hwaits : m.waitsForElement = true ∧ r.Often fun s => s.data.elems = []
  · exact Or.inr (Or.inl hwaits)
  by_cases hpushes : (∃ elem, m = .push elem) ∧ r.Often fun s => s.data.size = args.maxSize
  · exact Or.inr (Or.inr hpushes)
  -- from some point on there is what it waits for
  have helem : r.Finally fun s => m.waitsForElement = true → s.data.elems ≠ [] :=
    Run.finally_imp fun hw hoften => hwaits ⟨hw, hoften.mono fun _ => not_not.mp⟩
  have hroom : r.Finally fun s => (∃ elem, m = .push elem) → s.data.size ≠ args.maxSize :=
    Run.finally_imp fun hp hoften => hpushes ⟨hp, hoften.mono fun _ => not_not.mp⟩
  refine Or.inl
    (returns verified (.start (by simpa using args.container_le) (.of_empty rfl rfl)) (fun _ _ => trivial) hf
    hm ?_)
  exact (helem.and hroom).mono fun s h hdata hm => passes h hm hdata.1 hdata.2

/-- Where the queue is full again and again, and empty again and again, ever more elements go through it. -/
theorem through (hempty : r.Often fun s => s.data.elems = []) (hfull : r.Often fun s => s.data.size = args.maxSize)
    (n : ℕ) :
    r.Finally fun s => (n, n) ≤ passed s := by
  have hstable : ∀ p, (queue Tid args).Stable Anything fun s => p ≤ passed s :=
    fun p s a s' h _ hs hp => hp.trans (passed_mono h hs)
  have hmono : ∀ {i j : ℕ}, i ≤ j → passed (r.state i) ≤ passed (r.state j) :=
    fun hij => Run.mono passed (fun _ _ _ h _ hs => passed_mono h hs) hij
  induction n with
  | zero => exact Run.finally_always fun k => ⟨Nat.zero_le _, Nat.zero_le _⟩
  | succ n ih =>
    -- from full to empty elements are popped, from empty to full they are pushed
    obtain ⟨i, -, hn⟩ := ih.exists 0
    obtain ⟨j1, hj1, hfull1⟩ := hfull.exists i
    obtain ⟨j2, hj2, hempty2⟩ := hempty.exists j1
    obtain ⟨j3, hj3, hfull3⟩ := hfull.exists j2
    have h1 := history_length (r.reachable j1)
    have h2 := history_length (r.reachable j2)
    have h3 := history_length (r.reachable j3)
    obtain ⟨hpushed, hpopped⟩ := hn.trans (hmono hj1)
    obtain ⟨hpushed2, hpopped2⟩ := hmono hj2
    obtain ⟨hpushed3, hpopped3⟩ := hmono hj3
    have hpos := args.maxSize_pos
    simp only [QueueImpl.size, passed] at *
    rw [hempty2, List.length_nil] at h2
    exact Run.finally_of (hstable _) (k := j3) ⟨by simp only; omega, by simp only; omega⟩

/-- **A call returns, or what it waits for is missing again and again**; and who waits for an element and who waits for
room do not block each other: while neither returns, ever more elements are pushed and popped. -/
theorem bounded_queue_returns (hf : r.Fair Action.party) :
    (∀ t k m, ((r.state k).pc t).method = some m → (∃ j ≥ k, (r.state j).pc t = .idle) ∨
      (m.waitsForElement = true ∧ r.Often fun s => s.data.elems = []) ∨
      (∃ elem, m = .push elem) ∧ r.Often fun s => s.data.size = args.maxSize) ∧
    ∀ t u k m elem, ((r.state k).pc t).method = some m → m.waitsForElement = true →
      ((r.state k).pc u).method = some (.push elem) →
      (∃ j ≥ k, (r.state j).pc t = .idle ∨ (r.state j).pc u = .idle) ∨
        ∀ n, r.Finally fun s => n ≤ s.data.pushed.length ∧ n ≤ s.data.popped.length := by
  refine ⟨fun t k m hm => returns_or_starves hf hm, fun t u k m elem hm hwaits hpush => ?_⟩
  rcases returns_or_starves hf hm with ⟨j, hj, hidle⟩ | ⟨-, hempty⟩ | ⟨⟨_, rfl⟩, -⟩
  · exact Or.inl ⟨j, hj, Or.inl hidle⟩
  · rcases returns_or_starves hf hpush with ⟨j, hj, hidle⟩ | ⟨hno, -⟩ | ⟨-, hfull⟩
    · exact Or.inl ⟨j, hj, Or.inr hidle⟩
    · cases hno
    · exact Or.inr (through hempty hfull)
  · cases hwaits

end Runs

/-- In `Pop`, or in `Push`. -/
def popping (p : PC (Method ℕ) Cond (QueueImpl ℕ) (Fifo.Res ℕ)) : Bool := match p.method with
  | some .pop => true
  | _ => false

def pushing (p : PC (Method ℕ) Cond (QueueImpl ℕ) (Fifo.Res ℕ)) : Bool := match p.method with
  | some (.push _) => true
  | _ => false

/-- A pop of the empty queue, which waits, and two pushes of which the second waits for the pop. -/
def meetingRun (t u : Fin 2) : List (Action (Fin 2) (Method ℕ) Cond) :=
  [.call t .pop, .step t false, .step t false, .call u (.push 7)] ++ List.replicate 6 (.step u false) ++
    [.call u (.push 8), .step u false, .step u false] ++ List.replicate 7 (.step t false) ++
    List.replicate 6 (.step u false)

/-- A queue for one element, empty at first. -/
def meetingArgs : Args ℕ := .ofSize 1 (by decide)

/-- In that run the pop and the second push are in progress together. -/
theorem bounded_queue_returns_meetingRun : ∃ r : (queue (Fin 2) meetingArgs).Run Anything,
    r.Fair Action.party ∧ ∃ elem, ((r.state 11).pc 0).method = some .pop ∧
      ((r.state 11).pc 1).method = some (.push elem) ∧
      ((∃ j ≥ 11, (r.state j).pc 0 = .idle ∨ (r.state j).pc 1 = .idle) ∨
        ∀ n, r.Finally fun s => n ≤ s.data.pushed.length ∧ n ≤ s.data.popped.length) := by
  obtain ⟨r, hf, hr⟩ := exists_run_idle (code meetingArgs.maxSize) (ofContainer meetingArgs.container) (meetingRun 0 1)
    (by decide)
  have hboth := check_run hr (k := 11) (p := fun s => popping (s.pc 0) && pushing (s.pc 1)) (by decide)
  simp only [Bool.and_eq_true] at hboth
  have hpop : ((r.state 11).pc 0).method = some .pop := by
    have h := hboth.1
    unfold popping at h
    split at h
    · assumption
    · cases h
  obtain ⟨elem, hpush⟩ : ∃ elem, ((r.state 11).pc 1).method = some (.push elem) := by
    have h := hboth.2
    unfold pushing at h
    split at h
    · exact ⟨_, by assumption⟩
    · cases h
  exact ⟨r, hf, elem, hpop, hpush,
    (bounded_queue_returns hf).2 0 1 11 .pop elem hpop rfl hpush⟩

end BoundedBlockingQueue

namespace BlockingQueue

variable {f : μ → Method α} {init : List α} {s : State Tid μ Unit (QueueImpl α) (Fifo.Res α)} {t : Tid} {m : μ}

/-- The methods that wait for an element. -/
def Method.waitsForElement : Method α → Bool
  | .pop | .popRef | .front | .frontRef => true
  | _ => false

/-- The waits of the methods. -/
theorem wait_mem {m : Method α} {c : Unit} {g : QueueImpl α → Fifo.Res α → Bool} (h : Stmt.waitWhile c g ∈ body m) :
    m.waitsForElement = true ∧ g = fun q _ => q.empty := by
  cases m <;> simp_all [body, push, pop, popRef, nonblockingPop, front, frontRef, nonblockingFront, size, isEmpty,
    copyFront, popFront, pushBack, QueueImpl.read, Method.waitsForElement]

/-- Where there is an element, a call passes. -/
theorem passes (h : (Monitor.system (code.via f) (ofContainer init)).Reachable Anything s)
    (hm : (s.pc t).method = some m)
    (helem : (f m).waitsForElement = true → s.data.elems ≠ []) : Passes s t := by
  have hwaiting := ((verified.sound (.start (by simp) (.of_empty rfl)) h).always verified).waiting
  refine ⟨fun m' c g rest x hpc => ?_, fun _ m' c g rest x hpc hin => ?_⟩
  all_goals
    obtain rfl : m' = m := by simpa [hpc, PC.method] using hm
    obtain ⟨hwaits, rfl⟩ := wait_mem ((suffix_body h t m' _ (by rw [hpc]; rfl)).subset (List.mem_cons_self ..))
  · exact Bool.not_eq_true _ ▸ (empty_iff s.data).not.mpr (helem hwaits)
  · exact helem hwaits (hwaiting ⟨t, hin⟩)

/-- Under whatever names its methods go: a call returns, or it waits for an element again and again. -/
theorem returns_or_waits {r : (Monitor.system (code.via f) (ofContainer init)).Run Anything} (hf : r.Fair Action.party)
    {k : ℕ} (hm : ((r.state k).pc t).method = some m) :
    (∃ j ≥ k, (r.state j).pc t = .idle) ∨ ((f m).waitsForElement = true ∧ r.Often fun s => s.data.elems = []) := by
  by_cases hwaits : (f m).waitsForElement = true ∧ r.Often fun s => s.data.elems = []
  · exact Or.inr hwaits
  have helem : r.Finally fun s => (f m).waitsForElement = true → s.data.elems ≠ [] :=
    Run.finally_imp fun hw hoften => hwaits ⟨hw, hoften.mono fun _ => not_not.mp⟩
  refine Or.inl (returns verified (.start (by simp) (.of_empty rfl)) (fun _ _ => trivial) hf hm ?_)
  exact helem.mono fun s h hdata hm => passes h hm hdata

end BlockingQueue

/-- **A call of a blocking queue returns, or it waits for an element of a queue that is empty again and again**:
`BlockingQueue`, from every initial container, and `LinearTaskQueue`. -/
theorem blocking_queues_return :
    (∀ (init : List α) (r : (BlockingQueue.queue Tid init).Run Anything), r.Fair Action.party →
      ∀ t k m, ((r.state k).pc t).method = some m → (∃ j ≥ k, (r.state j).pc t = .idle) ∨
        (m.waitsForElement = true ∧ r.Often fun s => s.data.elems = [])) ∧
    ∀ r : (LinearTaskQueue.queue α Tid).Run Anything, r.Fair Action.party →
      ∀ t k m, ((r.state k).pc t).method = some m → (∃ j ≥ k, (r.state j).pc t = .idle) ∨
        (m = .pop ∧ r.Often fun s => s.data.elems = []) := by
  refine ⟨fun init r hf t k m hm => BlockingQueue.returns_or_waits (f := id) hf hm, fun r hf t k m hm => ?_⟩
  refine (BlockingQueue.returns_or_waits (f := LinearTaskQueue.delegate) hf hm).imp_right fun ⟨hwaits, hempty⟩ => ?_
  cases m with
  | pop => exact ⟨rfl, hempty⟩
  | push | size => cases hwaits

/-- A task that is popped by one thread and pushed by another. -/
def handOver (t u : Fin 2) : List (Action (Fin 2) (LinearTaskQueue.Method ℕ) Unit) :=
  [.call t .pop, .step t false, .step t false, .call u (.push 7)] ++ List.replicate 5 (.step u false) ++
    List.replicate 6 (.step t false)

theorem blocking_queues_return_handOver : ∃ r : (LinearTaskQueue.queue ℕ (Fin 2)).Run Anything, r.Fair Action.party ∧
    ∃ m, ((r.state 3).pc 0).method = some m ∧ ((∃ j ≥ 3, (r.state j).pc 0 = .idle) ∨
      (m = .pop ∧ r.Often fun s => s.data.elems = [])) := by
  obtain ⟨r, hf, hr⟩ := exists_run_idle LinearTaskQueue.code (ofContainer ([] : List ℕ)) (handOver 0 1) (by decide)
  have hin := check_run hr (k := 3) (p := fun s => (s.pc 0).method.isSome) (by decide)
  obtain ⟨m, hm⟩ := Option.isSome_iff_exists.mp hin
  exact ⟨r, hf, m, hm, blocking_queues_return.2 r hf 0 3 m hm⟩

end Tpool
