import Tpool.Concurrency.Observe
import Tpool.Concurrency.WaitsFor
import Tpool.Task.FutureTask

/-!
# TryGetResult in a Call

- `Futures.run`, `Futures.tryGetResult`: the code of the futures `F` with all their locks, when the `Call` of each of
  them is a program of the user (`Call`) that may try the results of any of them. `DoRun` keeps `m_resultCondition`
  locked around it.
- `Circular`: a thread in the `Call` of `f` comes to the lock of `g`, and that is its own, or of a thread that waits for
  it.
- `tryGetResult_progress`: without such a step there is no deadlock. `circular_stuck`: with one there is.
- `ranked_progress`: no such step is taken where each `Call` tries only futures below its own, in some numbering.
-/

namespace Tpool

open Concurrency Relation

namespace Futures

variable {Tid F X R O : Type*}

/-! ## The code -/

/-- The members of the futures, and the variables of the user's code. `result`, `state` and `isRequestCancel` have a
mutex: `m_resultCondition`, `m_stateGuard` and the one in the `Atomic`. -/
inductive Member (F X : Type*)
  | result (f : F)
  | isResultReturned (f : F)
  | state (f : F)
  | isRequestCancel (f : F)
  | user (x : X)
  deriving DecidableEq

inductive Value (R O : Type*)
  | result (r : R)
  | flag (b : Bool)
  | state (s : TaskBase.State)
  | user (o : O)

def Value.result? : Value R O → Option R
  | .result r => some r
  | _ => none

def Value.isTrue : Value R O → Bool
  | .flag b => b
  | _ => false

def Value.user? : Value R O → Option O
  | .user o => some o
  | _ => none

/-- The code of a `Call`. `checkCancellation` goes on with whether it threw, `tryGetResult` with nothing where it threw
that the result is not ready; what is thrown and not caught there is `throw`, and `isCancel` when it was
`CheckCancellation`. -/
inductive Call (F X R O : Type*)
  | ret (value : R)
  | throw (isCancel : Bool)
  | checkCancellation (next : Bool → Call F X R O)
  | tryGetResult (g : F) (next : Option R → Call F X R O)
  | read (x : X) (next : Option O → Call F X R O)
  | write (x : X) (o : O) (next : Call F X R O)

/-- The `Call` tries the result of `g` on some path. -/
def Call.Tries (g : F) : Call F X R O → Prop
  | .ret _ | .throw _ => False
  | .checkCancellation next => ∃ b, (next b).Tries g
  | .tryGetResult h next => h = g ∨ ∃ r, (next r).Tries g
  | .read _ next => ∃ o, (next o).Tries g
  | .write _ _ next => next.Tries g

/-- A method returns what `FutureTask.Ret` says, or leaves by an exception of the user's code. -/
abbrev Prog (F X R O : Type*) := Locks.Prog (Member F X) (Value R O) (Option (FutureTask.Ret R))

/-- `m_isRequestCancel` as a `bool`. -/
def isRequestCancel (f : F) (next : Bool → Prog F X R O) : Prog F X R O :=
  .lock (.isRequestCancel f) (.load (.isRequestCancel f) fun v => .unlock (.isRequestCancel f) (next v.isTrue))

def setState (f : F) (state : TaskBase.State) (next : Prog F X R O) : Prog F X R O :=
  .lock (.state f) (.store (.state f) (.state state) (.unlock (.state f) next))

def tryGetResult (f : F) (next : Option R → Prog F X R O) : Prog F X R O :=
  .lock (.result f) (.load (.isResultReturned f) fun isResultReturned =>
    if isResultReturned.isTrue then .load (.result f) fun v => .unlock (.result f) (next v.result?)
    else .unlock (.result f) (next none))

/-- The `Call` of `f`, by how it is left. -/
def Call.prog (f : F) (ret : R → Prog F X R O) (throw : Bool → Prog F X R O) : Call F X R O → Prog F X R O
  | .ret value => ret value
  | .throw isCancel => throw isCancel
  | .checkCancellation next => isRequestCancel f fun b => (next b).prog f ret throw
  | .tryGetResult g next => Futures.tryGetResult g fun r => (next r).prog f ret throw
  | .read x next => .load (.user x) fun v => (next v.user?).prog f ret throw
  | .write x o next => .store (.user x) (.user o) (next.prog f ret throw)

/-- `DoRun`. Its locker notifies those in `GetResult`, and unlocks when the `Call` throws. -/
def doRun (f : F) (call : Call F X R O) (next : Exit → Prog F X R O) : Prog F X R O :=
  .lock (.result f) (.load (.isResultReturned f) fun _ => call.prog f
    (fun value => .store (.result f) (.result value)
      (.store (.isResultReturned f) (.flag true) (.unlock (.result f) (next .ret))))
    fun isCancel => .unlock (.result f) (next (if isCancel then .cancel else .other)))

/-- Wake up the waiting threads that is cancelling this task. -/
def notifyAll (f : F) : Prog F X R O :=
  .lock (.state f) (isRequestCancel f fun _ => .unlock (.state f) (.ret (some .void)))

def cancelled (f : F) : Prog F X R O := setState f .cancelled (notifyAll f)

/-- How `Run` goes on after `DoRun`. -/
def afterDoRun (f : F) : Exit → Prog F X R O
  | .ret => setState f .finished (notifyAll f)
  | .cancel => cancelled f
  | .other => .ret none

def run (f : F) (call : Call F X R O) : Prog F X R O :=
  isRequestCancel f fun requested =>
    if requested then cancelled f else setState f .running (doRun f call (afterDoRun f))

def cancelAsync (f : F) : Prog F X R O :=
  .lock (.isRequestCancel f)
  (.store (.isRequestCancel f) (.flag true) (.unlock (.isRequestCancel f) (.ret (some .void))))

/-- What a thread calls. -/
inductive Method (F : Type*)
  | run (f : F)
  | tryGetResult (f : F)
  | cancelAsync (f : F)

def body (call : F → Call F X R O) : Method F → Prog F X R O
  | .run f => run f (call f)
  | .tryGetResult f => tryGetResult f fun r => .ret (some (r.elim .notReady .value))
  | .cancelAsync f => cancelAsync f

abbrev State (Tid F X R O : Type*) :=
  Locks.State Tid (Member F X) (Value R O) (Method F) (Option (FutureTask.Ret R))

/-- New futures; `result` and `user` are what is in the results and in the variables of the user's code at the start. -/
def new (result : F → R) (user : X → O) : Member F X → Value R O
  | .result f => .result (result f)
  | .isResultReturned _ | .isRequestCancel _ => .flag false
  | .state _ => .state .init
  | .user x => .user (user x)

/-- The threads call methods of new futures with the `Call`s `call`. -/
def system [DecidableEq Tid] [DecidableEq F] [DecidableEq X] (call : F → Call F X R O) (result : F → R) (user : X → O)
    (clients : Tid → Locks.Client (Method F) (Option (FutureTask.Ret R))) : System (State Tid F X R O) Tid :=
  Locks.system (body call) (new result user) clients

/-! ## Which locks are taken under which -/

/-- The futures whose results are tried in the `Call` of a future are `tries`. The mutex of `y` may be held when that of
`x` is locked. -/
def Under (tries : F → F → Prop) : Member F X → Member F X → Prop
  | .result f, .result g => tries f g
  | .result f, .isRequestCancel g | .state f, .isRequestCancel g => f = g
  | _, _ => False

section Nested

variable {tries : F → F → Prop} {held : Set (Member F X)} {f g : F} {next : Bool → Prog F X R O} {p : Prog F X R O}

theorem isRequestCancel_nested (hheld : ∀ y ∈ held, Under tries y (.isRequestCancel f))
    (hnext : ∀ b, (next b).Nested (Under tries) held) : (isRequestCancel f next).Nested (Under tries) held := by
  refine ⟨hheld, fun hf v => ⟨Set.mem_insert _ _, ?_⟩⟩
  rw [Set.insert_sdiff_self_of_notMem hf]
  exact hnext _

theorem setState_nested {state : TaskBase.State} (hp : p.Nested (Under tries) ∅) :
    (setState f state p).Nested (Under tries) ∅ := by
  refine ⟨by simp, fun hf => ⟨Set.mem_insert _ _, ?_⟩⟩
  rw [Set.insert_sdiff_self_of_notMem hf]
  exact hp

theorem tryGetResult_nested {next : Option R → Prog F X R O} (hheld : ∀ y ∈ held, Under tries y (.result g))
    (hnext : ∀ r, (next r).Nested (Under tries) held) : (tryGetResult g next).Nested (Under tries) held := by
  refine ⟨hheld, fun hg v => ?_⟩
  dsimp only
  split
  · intro r
    refine ⟨Set.mem_insert _ _, ?_⟩
    rw [Set.insert_sdiff_self_of_notMem hg]
    exact hnext _
  · refine ⟨Set.mem_insert _ _, ?_⟩
    rw [Set.insert_sdiff_self_of_notMem hg]
    exact hnext _

/-- A `Call` goes through its program with the lock of its future. -/
theorem Call.prog_nested {ret : R → Prog F X R O} {throw : Bool → Prog F X R O} {call : Call F X R O}
    (hcall : ∀ g, call.Tries g → tries f g) (hret : ∀ value, (ret value).Nested (Under tries) {.result f})
    (hthrow : ∀ isCancel, (throw isCancel).Nested (Under tries) {.result f}) :
    (call.prog f ret throw).Nested (Under tries) {.result f} := by
  induction call with
  | ret value => exact hret value
  | throw isCancel => exact hthrow isCancel
  | checkCancellation next ih =>
    refine isRequestCancel_nested ?_ fun b => ih b fun g hg => hcall g ⟨b, hg⟩
    rintro y rfl
    rfl
  | tryGetResult g next ih =>
    refine tryGetResult_nested ?_ fun r => ih r fun g hg => hcall g (Or.inr ⟨r, hg⟩)
    rintro y rfl
    exact hcall g (Or.inl rfl)
  | read x next ih => exact fun v => ih _ fun g hg => hcall g ⟨_, hg⟩
  | write x o next ih => exact ih hcall

theorem notifyAll_nested : (notifyAll f : Prog F X R O).Nested (Under tries) ∅ := by
  refine ⟨by simp, fun hf => isRequestCancel_nested ?_ fun b => ⟨Set.mem_insert _ _, ?_⟩⟩
  · rintro y (rfl | hy)
    · rfl
    · cases hy
  · rw [Set.insert_sdiff_self_of_notMem hf]
    rfl

theorem afterDoRun_nested (e : Exit) : (afterDoRun f e : Prog F X R O).Nested (Under tries) ∅ := by
  cases e with
  | ret => exact setState_nested notifyAll_nested
  | cancel => exact setState_nested notifyAll_nested
  | other => rfl

theorem doRun_nested {call : Call F X R O} (hcall : ∀ g, call.Tries g → tries f g) :
    (doRun f call (afterDoRun f)).Nested (Under tries) ∅ := by
  have hunlock : ∀ e, (Locks.Prog.unlock (.result f) (afterDoRun f e) : Prog F X R O).Nested (Under tries)
      {.result f} := by
    refine fun e => ⟨rfl, ?_⟩
    rw [Set.sdiff_self]
    exact afterDoRun_nested e
  refine ⟨by simp, fun _ _ => ?_⟩
  rw [LawfulSingleton.insert_empty_eq]
  exact Call.prog_nested hcall (fun value => hunlock .ret) fun isCancel => hunlock _

theorem body_nested {call : F → Call F X R O} (m : Method F) :
    (body call m).Nested (Under fun f g => (call f).Tries g) ∅ := by
  cases m with
  | run f =>
    unfold body run
    refine isRequestCancel_nested (fun _ => False.elim) fun requested => ?_
    split
    · exact setState_nested notifyAll_nested
    · exact setState_nested (doRun_nested fun g => id)
  | tryGetResult f =>
    unfold body
    exact tryGetResult_nested (fun _ => False.elim) fun _ => rfl
  | cancelAsync f =>
    refine ⟨by simp, fun hf => ⟨Set.mem_insert _ _, ?_⟩⟩
    rw [Set.insert_sdiff_self_of_notMem hf]
    rfl

end Nested

/-! ## Circular steps -/

section Steps

open Locks

variable [DecidableEq Tid] [DecidableEq F] [DecidableEq X] {call : F → Call F X R O} {result : F → R} {user : X → O}
  {clients : Tid → Client (Method F) (Option (FutureTask.Ret R))} {s s' s'' : State Tid F X R O} {t u : Tid}
  {ok : State Tid F X R O → Tid → Prop}

/-- The thread, in the `Call` of `f`, comes to the lock of `g`, while `g` is locked by the thread itself, or by one that
waits, through any number of others, for it. -/
def Circular (call : F → Call F X R O) (s : State Tid F X R O) (t : Tid) : Prop :=
  ∃ s' f g u, next (body call) s t = some s' ∧ s'.owner (.result f) = some t ∧ (s'.thread t).Wants (.result g) ∧
    s'.owner (.result g) = some u ∧ ReflTransGen (Waits s') u t

omit [DecidableEq Tid] [DecidableEq F] [DecidableEq X] in
/-- Who waits for itself does so in the `Call` of a future, for the result of a future. -/
theorem Nested.cycle {tries : F → F → Prop} (hi : Locks.Nested (Under tries) s) (ht : TransGen (Waits s) t t) :
    ∃ f g u, s.owner (.result f) = some t ∧ (s.thread t).Wants (.result g) ∧ s.owner (.result g) = some u ∧
      ReflTransGen (Waits s) u t := by
  obtain ⟨v, -, x, -, hx⟩ := TransGen.tail'_iff.mp ht
  obtain ⟨u, ⟨y, hwant, hy⟩, hu⟩ := TransGen.head'_iff.mp ht
  obtain ⟨w, ⟨z, hz, -⟩, -⟩ := TransGen.head'_iff.mp (TransGen.trans_right hu ht)
  -- `t` locks `y` under `x`, and `u` locks `z` under `y`
  have hxy : Under tries x y := hi.under hwant hx
  have hyz : Under tries y z := hi.under hz hy
  cases y with
  | result g =>
    cases x with
    | result f => exact ⟨f, g, u, hx, hwant, hy, hu⟩
    | isResultReturned f | state f | isRequestCancel f | user x => exact hxy.elim
  | state g => cases x <;> exact hxy.elim
  | isResultReturned g | isRequestCancel g | user y => exact hyz.elim

/-- A step that closes a cycle is circular, and the other way round. -/
theorem closesCycle_iff (h : (system call result user clients).Reachable ok s) :
    ClosesCycle (body call) s t ↔ Circular call s t := by
  constructor
  · rintro ⟨s', hs, ht⟩
    obtain ⟨f, g, u, hf, hwant, hg, hu⟩ := Nested.cycle ((Reachable.nested body_nested h).next body_nested hs) ht
    exact ⟨s', f, g, u, hs, hf, hwant, hg, hu⟩
  · rintro ⟨s', f, g, u, hs, -, hwant, hg, hu⟩
    exact ⟨s', hs, TransGen.head' ⟨_, hwant, hg⟩ hu⟩

/-! ## Calls in an order -/

/-- The place of a mutex in the order that `rank` gives the futures. -/
def Member.place (rank : F → ℕ) : Member F X → ℕ
  | .result f => rank f + 2
  | .state _ => 1
  | .isResultReturned _ | .isRequestCancel _ | .user _ => 0

omit [DecidableEq F] [DecidableEq X] in
theorem Under.place_lt {tries : F → F → Prop} {rank : F → ℕ} (hrank : ∀ f g, tries f g → rank g < rank f)
    (y x : Member F X) (h : Under tries y x) : x.place rank < y.place rank := by
  cases y <;> cases x <;> simp only [Under, Member.place] at h ⊢ <;> try omega
  have := hrank _ _ h
  omega

/-- Where every `Call` tries only futures of a lower rank than its own, no step is circular. -/
theorem Reachable.not_circular {rank : F → ℕ} (hrank : ∀ f g, (call f).Tries g → rank g < rank f)
    (h : (system call result user clients).Reachable Anything s) :
    (system call result user clients).Reachable (fun s t => ¬ Circular call s t) s := by
  refine h.induct System.Reachable.init fun s t s' hr _ hs hi => hi.step (fun hc => ?_) hs
  obtain ⟨s', hs', hcycle⟩ := (closesCycle_iff hr).mpr hc
  have hnested := (Reachable.nested body_nested hr).next body_nested hs'
  exact hnested.acyclic (Under.place_lt hrank) hcycle

/-! ## Progress -/

/-- **`TryGetResult` does not deadlock**, whatever the `Call`s are, in the runs without a circular step. -/
theorem tryGetResult_progress
    (h : (system call result user clients).Reachable (fun s t => ¬ Circular call s t) s)
    (ht : s.thread t ≠ .between .done) :
    ∃ u, s.thread u ≠ .between .done ∧ ∃ s', next (body call) s u = some s' := by
  have hopen : (system call result user clients).Reachable (fun s t => ¬ ClosesCycle (body call) s t) s := by
    refine h.induct System.Reachable.init fun s t s' hr hok hs hi => ?_
    have hcycle : ¬ ClosesCycle (body call) s t := mt (closesCycle_iff hr).mp hok
    exact System.Reachable.step hi hcycle hs
  exact progress body_nested h (Reachable.acyclic hopen) ht

/-- The `Call` tries the result of `g`, and returns it, or `0`. -/
def copy (g : F) : Call F Unit ℕ Unit := .tryGetResult g fun r => .ret (r.getD 0)

/-- The second future tries the result of the first one. -/
def ordered : Bool → Call Bool Unit ℕ Unit
  | false => .ret 7
  | true => copy false

/-- Two futures, each of which tries the result of the other. -/
def crossed : Bool → Call Bool Unit ℕ Unit := fun f => copy (!f)

/-- Two threads run a future each. -/
def runEach (t : Bool) : Client (Method Bool) (Option (FutureTask.Ret ℕ)) := .call (.run t) fun _ => .done

theorem ordered_rank (f g : Bool) (h : (ordered f).Tries g) : g.toNat < f.toNat := by
  cases f with
  | false => exact h.elim
  | true =>
    obtain rfl | ⟨r, hr⟩ := h
    · decide
    · exact hr.elim

/-- A thread that waits for another one, which goes on. -/
theorem tryGetResult_progress_ordered : ∃ s : State Bool Bool Unit ℕ Unit, next (body ordered) s true = none ∧
    ∃ u, s.thread u ≠ .between .done ∧ ∃ s', next (body ordered) s u = some s' := by
  obtain ⟨s, hs, hp⟩ := System.reachable_of_exec (system ordered (fun _ => 0) id runEach) Anything
    (List.replicate 9 false ++ List.replicate 9 true)
    (fun s => (next (body ordered) s true).isNone && !(s.thread true).isDone) (by decide)
  simp only [Bool.and_eq_true, Option.isNone_iff_eq_none, Bool.not_eq_true'] at hp
  exact ⟨s, hp.1, tryGetResult_progress (Reachable.not_circular ordered_rank hs) (Thread.ne_done hp.2)⟩

/-- **Two futures that try each other deadlock**: each thread is in the `Call` of its future, and waits for the
other. -/
theorem crossed_deadlock : ∃ s : State Bool Bool Unit ℕ Unit,
    (system crossed (fun _ => 0) id runEach).Reachable Anything s ∧
    ∀ t, s.thread t ≠ .between .done ∧ next (body crossed) s t = none := by
  obtain ⟨s, hs, hp⟩ := System.reachable_of_exec (system crossed (fun _ => 0) id runEach) Anything
    (List.replicate 9 false ++ List.replicate 9 true)
    (fun s => decide (∀ t, (s.thread t).isDone = false ∧ (next (body crossed) s t).isNone = true)) (by decide)
  refine ⟨s, hs, fun t => ?_⟩
  obtain ⟨hdone, hnone⟩ := of_decide_eq_true hp t
  exact ⟨Thread.ne_done hdone, Option.isNone_iff_eq_none.mp hnone⟩

/-- After a circular step the thread is stuck in the `Call`, whatever the others do. -/
theorem circular_stuck (h : (system call result user clients).Reachable ok s) (ht : Circular call s t) :
    ∃ s', next (body call) s t = some s' ∧ ∀ s'', (system call result user clients).Reaches Anything s' s'' →
      next (body call) s'' t = none ∧ s''.thread t ≠ .between .done := by
  obtain ⟨s', hs, hcycle⟩ := (closesCycle_iff h).mpr ht
  exact ⟨s', hs, fun s'' hs'' => cycle_stays body_nested ((Reachable.nested body_nested h).next body_nested hs)
      hcycle hs''⟩

/-- **No deadlock** where the `Call`s try only futures of a lower rank. -/
theorem ranked_progress {rank : F → ℕ} (hrank : ∀ f g, (call f).Tries g → rank g < rank f)
    (h : (system call result user clients).Reachable Anything s) (ht : s.thread t ≠ .between .done) :
    ∃ u, s.thread u ≠ .between .done ∧ ∃ s', next (body call) s u = some s' := by
  have hacyclic : ∀ u, ¬ TransGen (Waits s) u u := fun u =>
    Nested.acyclic (Under.place_lt hrank) (Reachable.nested body_nested h)
  exact progress body_nested h hacyclic ht

end Steps

end Futures

end Tpool
