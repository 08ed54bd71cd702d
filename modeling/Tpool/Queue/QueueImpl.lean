import Tpool.Concurrency.Fifo

/-!
# The queue under the blocking queues

- `QueueImpl`: `std::queue`, with the history of its elements (`pushed`, `popped`) recorded beside it.
- `copyFront`, `popFront`, `pushBack`: the statements the methods of the blocking queues are made of. Copying an element
  may throw; removing one does not.
- `Recorded`: the log of the calls is one of the bounded FIFO from the initial container to the current contents, and
  the history is that of the log. `throw`, `read`, `push` and `pop` say how a call that ends keeps it.
- `Guarded` and `Free`: what holds while the lock is held and while it is free, for any condition `W` on who waits at
  which contents; `wp_wait`, `wp_return`, `wp_notify`, `wp_copy`, `wp_copy_pop` and `wp_push` are the preconditions of
  the parts the methods are made of.
-/

namespace Tpool

open Concurrency Concurrency.Monitor

/-- `std::queue` and its history. -/
structure QueueImpl (α : Type*) where
  elems : List α
  pushed : List α
  popped : List α

namespace QueueImpl

variable {α : Type*}

def ofContainer (container : List α) : QueueImpl α := ⟨container, [], []⟩

def empty (q : QueueImpl α) : Bool := q.elems.isEmpty

def size (q : QueueImpl α) : Nat := q.elems.length

/-- Undefined on the empty queue. -/
def front (q : QueueImpl α) : Option α := q.elems.head?

def push (q : QueueImpl α) (x : α) : QueueImpl α := { q with elems := q.elems ++ [x], pushed := q.pushed ++ [x] }

/-- Undefined on the empty queue. -/
def pop (q : QueueImpl α) : Option (QueueImpl α) := match q.elems with
  | [] => none
  | x :: elems => some { q with elems := elems, popped := q.popped ++ [x] }

/-- `elem = m_queue.front()`, where the copy may throw; `mk` is what the call returns with it. -/
def copyFront {ι : Type*} (mk : α → Fifo.Res α) : Stmt ι (QueueImpl α) (Fifo.Res α) :=
  .act true fun q _ => q.front.map fun x => (q, mk x)

/-- `m_queue.pop()`. -/
def popFront {ι : Type*} : Stmt ι (QueueImpl α) (Fifo.Res α) := .act false fun q r => q.pop.map fun q => (q, r)

/-- `m_queue.push(elem)`, where the copy may throw; `r` is what the call returns. -/
def pushBack {ι : Type*} (x : α) (r : Fifo.Res α) : Stmt ι (QueueImpl α) (Fifo.Res α) :=
  .act true fun q _ => some (q.push x, r)

/-- Reading the queue without copying an element. -/
def read {ι : Type*} (f : QueueImpl α → Fifo.Res α) : Stmt ι (QueueImpl α) (Fifo.Res α) :=
  .act false fun q _ => some (q, f q)

/-- The contents and the pushes so far are the pops so far and the contents. -/
def History (init : List α) (q : QueueImpl α) : Prop := init ++ q.pushed = q.popped ++ q.elems

theorem empty_iff (q : QueueImpl α) : q.empty = true ↔ q.elems = [] := by simp [empty]

theorem front_of_elems {q : QueueImpl α} {x : α} {elems : List α} (h : q.elems = x :: elems) : q.front = some x := by
  simp [front, h]

theorem pop_of_elems {q : QueueImpl α} {x : α} {elems : List α} (h : q.elems = x :: elems) :
    q.pop = some { q with elems := elems, popped := q.popped ++ [x] } := by
  simp [pop, h]

/-! ## The log of the calls and the contents -/

section Recorded

variable {Tid μ : Type*} (cap : Option Nat) (op : μ → Fifo.Op α) (init : List α)

/-- The log leads from the initial container to the contents, and the history is the log's. -/
structure Recorded (q : QueueImpl α) (lg : Log Tid μ (Fifo.Res α)) : Prop where
  legal : (Fifo.object cap op).Legal init lg q.elems
  pushed : q.pushed = Fifo.pushed op lg
  popped : q.popped = Fifo.popped op lg

variable {cap op init} {q : QueueImpl α} {lg : Log Tid μ (Fifo.Res α)} {t : Tid} {m : μ} {r : Fifo.Res α} {x : α}

/-- Nothing has been called yet. -/
theorem Recorded.start : Recorded cap op init (ofContainer init) ([] : Log Tid μ (Fifo.Res α)) := ⟨rfl, rfl, rfl⟩

theorem Recorded.history (h : Recorded cap op init q lg) : History init q := by
  rw [History, h.pushed, h.popped]
  exact Fifo.history h.legal

/-- A call that an exception leaves. -/
theorem Recorded.throw (h : Recorded cap op init q lg) : Recorded cap op init q (lg ++ [(t, m, none)]) :=
  ⟨Object.legal_throw.mpr h.legal, by simpa [Fifo.pushed] using h.pushed, by simpa [Fifo.popped] using h.popped⟩

/-- A call that changes nothing. -/
theorem Recorded.read (h : Recorded cap op init q lg) (ha : Fifo.apply cap q.elems (op m) = some (q.elems, r))
    (hpush : Fifo.pushedBy (op m) r = none) (hpop : Fifo.poppedBy (op m) r = none) :
    Recorded cap op init q (lg ++ [(t, m, some r)]) :=
  ⟨h.legal.snoc ha, by simpa [Fifo.pushed, hpush] using h.pushed, by simpa [Fifo.popped, hpop] using h.popped⟩

/-- A call that has pushed. -/
theorem Recorded.push (h : Recorded cap op init q lg)
    (ha : Fifo.apply cap q.elems (op m) = some (q.elems ++ [x], r)) (hpush : Fifo.pushedBy (op m) r = some x)
    (hpop : Fifo.poppedBy (op m) r = none) : Recorded cap op init (q.push x) (lg ++ [(t, m, some r)]) := by
  refine ⟨h.legal.snoc ha, ?_, ?_⟩
  · simpa [Fifo.pushed, hpush, QueueImpl.push] using h.pushed
  · simpa [Fifo.popped, hpop, QueueImpl.push] using h.popped

/-- A call that has popped. -/
theorem Recorded.pop (h : Recorded cap op init q lg) {elems : List α}
    (ha : Fifo.apply cap q.elems (op m) = some (elems, r)) (hpush : Fifo.pushedBy (op m) r = none)
    (hpop : Fifo.poppedBy (op m) r = some x) :
    Recorded cap op init { q with elems := elems, popped := q.popped ++ [x] } (lg ++ [(t, m, some r)]) := by
  refine ⟨h.legal.snoc ha, ?_, ?_⟩
  · simpa [Fifo.pushed, hpush] using h.pushed
  · simpa [Fifo.popped, hpop] using h.popped

end Recorded

/-! ## The parts of the methods -/

section Parts

variable {Tid ι μ : Type*} (cap : Option Nat) (op : μ → Fifo.Op α) (init : List α) (W : List α → Waiting Tid ι → Prop)

/-- What holds while the lock is held. -/
structure Guarded (q : QueueImpl α) (w : Waiting Tid ι) : Prop where
  history : History init q
  bound : ∀ n ∈ cap, q.size ≤ n
  waiting : W q.elems w

/-- The resource invariant: moreover the calls so far are a run of the FIFO. -/
structure Free (q : QueueImpl α) (w : Waiting Tid ι) (lg : Log Tid μ (Fifo.Res α)) : Prop where
  recorded : Recorded cap op init q lg
  bound : ∀ n ∈ cap, q.size ≤ n
  waiting : W q.elems w

variable {cap op init W} {q : QueueImpl α} {w : Waiting Tid ι} {lg : Log Tid μ (Fifo.Res α)} {t : Tid} {m : μ}
  {rest : List (Stmt ι (QueueImpl α) (Fifo.Res α))} {r r0 : Fifo.Res α} {c : ι} {g : QueueImpl α → Bool}

theorem Free.guarded (h : Free cap op init W q w lg) : Guarded cap init W q w :=
  ⟨h.recorded.history, h.bound, h.waiting⟩

/-- An exception gives the lock back with the queue as it was. -/
theorem Free.throw (h : Free cap op init W q w lg) : Free cap op init W q w (lg ++ [(t, m, none)]) :=
  ⟨h.recorded.throw, h.bound, h.waiting⟩

/-- A call that changes nothing gives the lock back. -/
theorem Free.read (h : Free cap op init W q w lg) (ha : Fifo.apply cap q.elems (op m) = some (q.elems, r))
    (hpush : Fifo.pushedBy (op m) r = none) (hpop : Fifo.poppedBy (op m) r = none) :
    Free cap op init W q w (lg ++ [(t, m, some r)]) :=
  ⟨h.recorded.read ha hpush hpop, h.bound, h.waiting⟩

variable [DecidableEq Tid] [DecidableEq ι]

/-- Waiting, when those who may wait at these contents may be one more. -/
theorem wp_wait (h : Free cap op init W q w lg)
    (hwait : ∀ q w lg, Free cap op init W q w lg → g q = true → W q.elems (w.join c t))
    (hrest : ∀ q w lg, Free cap op init W q w lg → g q = false →
      wp (Guarded cap init W) (Free cap op init W) t m rest r0 q w lg) :
    wp (Guarded cap init W) (Free cap op init W) t m (.waitWhile c (fun q _ => g q) :: rest) r0 q w lg := by
  refine ⟨h, fun q w lg h => ?_⟩
  split
  · rename_i hg
    exact ⟨h.recorded, h.bound, hwait q w lg h hg⟩
  · rename_i hg
    exact hrest q w lg h (by simpa using hg)

/-- Returning early from a queue that stays as it is. -/
theorem wp_return (h : Free cap op init W q w lg)
    (ha : g q = true → Fifo.apply cap q.elems (op m) = some (q.elems, r)) (hpush : Fifo.pushedBy (op m) r = none)
    (hpop : Fifo.poppedBy (op m) r = none)
    (hrest : g q = false → wp (Guarded cap init W) (Free cap op init W) t m rest r0 q w lg) :
    wp (Guarded cap init W) (Free cap op init W) t m (.returnIf g r :: rest) r0 q w lg := by
  refine ⟨h.guarded, ?_⟩
  split
  · rename_i hg
    exact h.read (ha hg) hpush hpop
  · rename_i hg
    exact hrest (by simpa using hg)

/-- Notifying, when fewer may wait wherever more may. -/
theorem wp_notify (hW : ∀ {elems w w'}, w' ≤ w → W elems w → W elems w') (h : Free cap op init W q w lg)
    (hrest : ∀ w', w' ≤ w → (g q = true → w' c = ∅) → Free cap op init W q w' lg →
      wp (Guarded cap init W) (Free cap op init W) t m rest r0 q w' lg) :
    wp (Guarded cap init W) (Free cap op init W) t m (.notifyAllIf c g :: rest) r0 q w lg := by
  have hle : (if g q then w.clear c else w) ≤ w := by
    split
    · exact w.clear_le c
    · exact le_rfl
  refine ⟨h.guarded, hrest _ hle (fun hg => by simp [hg]) ⟨h.recorded, h.bound, hW hle h.waiting⟩⟩

/-- Copying the front element. -/
theorem wp_copy (h : Free cap op init W q w lg) (hq : q.empty = false) {mk : α → Fifo.Res α}
    (ha : ∀ x elems, Fifo.apply cap (x :: elems) (op m) = some (x :: elems, mk x))
    (hpush : ∀ x, Fifo.pushedBy (op m) (mk x) = none) (hpop : ∀ x, Fifo.poppedBy (op m) (mk x) = none) :
    wp (Guarded cap init W) (Free cap op init W) t m [copyFront mk] r0 q w lg := by
  obtain ⟨x, elems, he⟩ := List.exists_cons_of_ne_nil (l := q.elems) (by simpa [empty] using hq)
  refine ⟨h.guarded, fun _ => h.throw, q, mk x, by simp [front_of_elems he], ?_⟩
  exact h.read (by rw [he]; exact ha x elems) (hpush x) (hpop x)

/-- Copying the front element and removing it. -/
theorem wp_copy_pop (h : Free cap op init W q w lg) (hq : q.empty = false)
    (hW : ∀ x elems, q.elems = x :: elems → W elems w) {mk : α → Fifo.Res α}
    (ha : ∀ x elems, Fifo.apply cap (x :: elems) (op m) = some (elems, mk x))
    (hpush : ∀ x, Fifo.pushedBy (op m) (mk x) = none) (hpop : ∀ x, Fifo.poppedBy (op m) (mk x) = some x) :
    wp (Guarded cap init W) (Free cap op init W) t m [copyFront mk, popFront] r0 q w lg := by
  obtain ⟨x, elems, he⟩ := List.exists_cons_of_ne_nil (l := q.elems) (by simpa [empty] using hq)
  refine ⟨h.guarded, fun _ => h.throw, q, mk x, by simp [front_of_elems he], h.guarded, (by simp),
    { q with elems := elems, popped := q.popped ++ [x] }, mk x, by simp [pop_of_elems he],
    ⟨?_, fun n hn => ?_, hW x elems he⟩⟩
  · exact h.recorded.pop (by rw [he]; exact ha x elems) (hpush x) (hpop x)
  · have := h.bound n hn
    simp only [QueueImpl.size, he, List.length_cons] at this ⊢
    omega

/-- Pushing an element, when there is room. -/
theorem wp_push (h : Free cap op init W q w lg) {x : α} (hroom : Fifo.isFull cap q.elems = false)
    (hW : W (q.elems ++ [x]) w)
    (ha : Fifo.apply cap q.elems (op m) = some (q.elems ++ [x], r)) (hpush : Fifo.pushedBy (op m) r = some x)
    (hpop : Fifo.poppedBy (op m) r = none) :
    wp (Guarded cap init W) (Free cap op init W) t m [pushBack x r] r0 q w lg := by
  refine ⟨h.guarded, fun _ => h.throw, q.push x, r, rfl, h.recorded.push ha hpush hpop, fun n hn => ?_, hW⟩
  have hle := h.bound n hn
  have hne : n ≠ q.elems.length := by
    rintro rfl
    simp [Fifo.isFull, Option.mem_def.mp hn] at hroom
  simp only [QueueImpl.size, QueueImpl.push, List.length_append, List.length_singleton] at hle ⊢
  omega

/-- Reading the queue. -/
theorem wp_read (h : Free cap op init W q w lg) {f : QueueImpl α → Fifo.Res α}
    (ha : Fifo.apply cap q.elems (op m) = some (q.elems, f q)) (hpush : Fifo.pushedBy (op m) (f q) = none)
    (hpop : Fifo.poppedBy (op m) (f q) = none) :
    wp (Guarded cap init W) (Free cap op init W) t m [QueueImpl.read f] r0 q w lg :=
  ⟨h.guarded, (by simp), q, f q, rfl, h.read ha hpush hpop⟩

end Parts

/-! ## Linearizability -/

section Linearizable

variable {Tid ι μ : Type*} (cap : Option Nat) (op : μ → Fifo.Op α) (init : List α)

/-- **A bounded FIFO, as its callers see it.** The calls that have released the lock, in that order, are a run of the
FIFO that leads to the contents; a call that may fail does so at the contents where the FIFO refuses it, and changes
nothing; a pop takes what was last seen at the front. -/
structure Linearizable (s : State Tid μ ι (QueueImpl α) (Fifo.Res α)) : Prop where
  bound : ∀ n ∈ cap, s.data.size ≤ n
  history : init ++ s.data.pushed = s.data.popped ++ s.data.elems
  legal : ∃ q, (Fifo.object cap op).Legal init s.log q ∧ (s.owner = none → q = s.data.elems ∧
    s.data.pushed = Fifo.pushed op s.log ∧ s.data.popped = Fifo.popped op s.log)
  tryPush : ∀ before t m r after x, s.log = before ++ (t, m, some r) :: after → op m = .tryPush x →
    ∃ q, (Fifo.object cap op).Legal init before q ∧ (r = .bool false ↔ Fifo.isFull cap q = true) ∧
      (r = .bool false → (Fifo.object cap op).Legal init (before ++ [(t, m, some r)]) q)
  tryPop : ∀ before t m r after, s.log = before ++ (t, m, some r) :: after → op m = .tryPop →
    ∃ q, (Fifo.object cap op).Legal init before q ∧ (r = .found none ↔ q = []) ∧
      (r = .found none → (Fifo.object cap op).Legal init (before ++ [(t, m, some r)]) q)
  tryFront : ∀ before t m r after, s.log = before ++ (t, m, some r) :: after → op m = .tryFront →
    ∃ q, (Fifo.object cap op).Legal init before q ∧ (r = .found none ↔ q = []) ∧
      (Fifo.object cap op).Legal init (before ++ [(t, m, some r)]) q
  front : ∀ before t m r between u m' r' after x y,
    s.log = before ++ (t, m, some r) :: (between ++ (u, m', some r') :: after) →
    Fifo.seenBy (op m) r = some x → Fifo.popped op between = [] → Fifo.poppedBy (op m') r' = some y → y = x

variable {cap op init} {W : List α → Waiting Tid ι → Prop} {code : Code μ ι (QueueImpl α) (Fifo.Res α)}
  {s : State Tid μ ι (QueueImpl α) (Fifo.Res α)}

/-- At the start nobody waits and nothing has been called. -/
theorem Free.start (hcap : ∀ n ∈ cap, init.length ≤ n) (hW : W init fun _ => ∅) :
    Free cap op init W (ofContainer init) (fun _ => ∅) [] :=
  ⟨.start, hcap, hW⟩

/-- When `t` is the only one who takes elements out, its pop takes what its front before it returned. -/
theorem Linearizable.only_popper (h : Linearizable cap op init s) {before between after : Log Tid μ (Fifo.Res α)}
    {t : Tid} {m m' : μ} {r r' : Fifo.Res α} {x y : α}
    (he : s.log = before ++ (t, m, some r) :: (between ++ (t, m', some r') :: after))
    (honly : ∀ e ∈ s.log, e.1 ≠ t → e.2.2.bind (Fifo.poppedBy (op e.2.1)) = none) (hb : ∀ e ∈ between, e.1 ≠ t)
    (hx : Fifo.seenBy (op m) r = some x) (hy : Fifo.poppedBy (op m') r' = some y) : y = x :=
  h.front before t m r between t m' r' after x y he hx
    (Fifo.popped_eq_nil.mpr fun e hm => honly e (by rw [he]; simp [hm]) (hb e hm)) hy

variable [DecidableEq Tid] [DecidableEq ι]

/-- A verified queue is linearizable. -/
theorem linearizable (hv : Verified (Guarded cap init W) (Free cap op init W) code) (hcap : ∀ n ∈ cap, init.length ≤ n)
    (hW : W init fun _ => ∅) (h : (Monitor.system code (ofContainer init)).Reachable Anything s) :
    Linearizable cap op init s := by
  have hp := hv.sound (.start hcap hW) h
  have hA := hp.always hv
  obtain ⟨q, hq⟩ := hv.logged (P := fun lg => ∃ q, (Fifo.object cap op).Legal init lg q)
    (fun hF => ⟨_, hF.recorded.legal⟩) (.start hcap hW) h
  have hat : ∀ before t m r after, s.log = before ++ (t, m, some r) :: after → ∃ q1 q2,
      (Fifo.object cap op).Legal init before q1 ∧ Fifo.apply cap q1 (op m) = some (q2, r) := by
    intro before t m r after he
    rw [he] at hq
    obtain ⟨q1, q2, h1, h2, -⟩ := hq.at
    exact ⟨q1, q2, h1, h2⟩
  refine ⟨hA.bound, hA.history, ?_, ?_, ?_, ?_, ?_⟩
  · cases ho : s.owner with
    | none => exact ⟨_, (hp.free ho).recorded.legal, fun _ => ⟨rfl, (hp.free ho).recorded.pushed,
        (hp.free ho).recorded.popped⟩⟩
    | some t => exact ⟨q, hq, by simp⟩
  · intro before t m r after x he hm
    obtain ⟨q1, q2, h1, h2⟩ := hat before t m r after he
    have hiff := Fifo.tryPush_iff (hm ▸ h2)
    exact ⟨q1, h1, hiff.1, fun hr => h1.snoc (by rw [← hiff.2 hr]; exact (hiff.2 hr).symm ▸ h2)⟩
  · intro before t m r after he hm
    obtain ⟨q1, q2, h1, h2⟩ := hat before t m r after he
    have hiff := Fifo.tryPop_iff (hm ▸ h2)
    exact ⟨q1, h1, hiff.1, fun hr => h1.snoc (by rw [← hiff.2 hr]; exact (hiff.2 hr).symm ▸ h2)⟩
  · intro before t m r after he hm
    obtain ⟨q1, q2, h1, h2⟩ := hat before t m r after he
    have hiff := Fifo.tryFront_iff (hm ▸ h2)
    exact ⟨q1, h1, hiff.1, h1.snoc (by rw [← hiff.2]; exact hiff.2.symm ▸ h2)⟩
  · intro before t m r between u m' r' after x y he hx hb hy
    rw [he] at hq
    exact Fifo.front_pop hq hx hb hy

end Linearizable

end QueueImpl

end Tpool
