import Tpool.Concurrency.LockFair
import Tpool.Concurrency.Sections
import Tpool.Sync.Atomic

/-!
# Atomic operations as accesses

- `access`: what an operation is for. An assignment, `CompareAndSet`, `GetData` and `Equal` with a value are one access;
  the assignment from another variable and `Equal` with it are two, between which the others may come.
- `accesses_atomic`: by any interleaving of the threads, the code does what some interleaving of these accesses does.
- `programs_end`: in a fair run every program of such operations ends.
-/

namespace Tpool

open Concurrency Concurrency.Locks

namespace Atomic

variable {Tid V T : Type*}

abbrev Effect (V T : Type*) := Act V T (Ret T)

def read (x : V) (k : T → Effect V T) : Effect V T := .access x (fun v => v) k

def write (x : V) (i : T) : Effect V T := .access x (fun _ => i) fun _ => .ret .void

section Compare

variable [BEq T] [DecidableEq V]

/-- What the operations do in one access or two. -/
def access (template : Template T) : Op V T → Effect V T
  | .assign x i => write x i
  | .compareAndSet x compare newValue =>
    .access x (fun v => if v == compare then newValue else v) fun v => .ret (.bool (v == compare))
  | .getData x => read x fun v => .ret (.value v)
  | .equalTo x other => read x fun v => .ret (.bool (v == other))
  | .assignFrom x other =>
    match template with
    | .native false => read other fun v => write x v
    | .generic _ | .native true => if x = other then .ret .void else read other fun v => write x v
  | .equal x other leftFirst =>
    if x = other then .ret (.bool true)
    else match template, leftFirst with
    | .native _, true => read x fun v => read other fun w => .ret (.bool (v == w))
    | .generic _, _ | .native _, false => read other fun w => read x fun v => .ret (.bool (v == w))

/-! ## The code does the accesses -/

variable {x : V} {k : T → Code V T} {act : T → Effect V T}

omit [BEq T] [DecidableEq V] in
theorem getValue_does (hk : ∀ v, (k v).Does none (act v)) : (getValue x k).Does none (read x act) :=
  ⟨_, _, rfl, fun v => ⟨rfl, rfl, rfl, hk v⟩⟩

omit [BEq T] [DecidableEq V] in
theorem assign_does (i : T) : (assign x i : Code V T).Does none (write x i) :=
  ⟨_, _, rfl, fun _ => ⟨rfl, rfl, rfl, rfl⟩⟩

omit [DecidableEq V] in
theorem compareAndSet_does (compare newValue : T) : (compareAndSet x compare newValue).Does none
    (.access x (fun v => if v == compare then newValue else v) fun v => .ret (.bool (v == compare))) := by
  refine ⟨_, _, rfl, fun v => ⟨rfl, ?_⟩⟩
  by_cases hv : (v == compare) = true
  · simp only [hv, if_true]
    exact ⟨rfl, rfl, rfl, rfl⟩
  · simp only [Bool.not_eq_true] at hv
    simp only [hv, Bool.false_eq_true, if_false]
    exact ⟨rfl, rfl, rfl⟩

omit [BEq T] [DecidableEq V] in
/-- The implementations whose `GetData` returns a value. -/
theorem Template.cases_of_byValue {template : Template T} (ht : template.byValue = true) :
    template = .generic .value ∨ ∃ throughBase, template = .native throughBase := by
  cases template with
  | generic ret =>
    cases ret with
    | value => exact Or.inl rfl
    | reference copying => cases ht
  | native throughBase => exact Or.inr ⟨throughBase, rfl⟩

omit [BEq T] in
theorem assignFrom_does (x other : V) :
    (if x = other then .ret .void else getValue other (assign x) : Code V T).Does none
    (if x = other then .ret .void else read other fun v => write x v) := by
  by_cases hx : x = other
  · simp only [hx, if_true]
    rfl
  · simp only [hx, if_false]
    exact getValue_does assign_does

/-- The code does what the accesses say, unless `GetData` returns a reference, which the caller reads without the
lock. -/
theorem body_does {template : Template T} (ht : template.byValue = true) (op : Op V T) :
    (body template op).Does none (access template op) := by
  cases op with
  | assign x i => exact assign_does i
  | compareAndSet x compare newValue => exact compareAndSet_does compare newValue
  | equalTo x other => cases template <;> exact getValue_does fun _ => rfl
  | getData x => obtain rfl | ⟨_, rfl⟩ := Template.cases_of_byValue ht <;> exact getValue_does fun _ => rfl
  | assignFrom x other =>
    obtain rfl | ⟨throughBase, rfl⟩ := Template.cases_of_byValue ht
    · exact assignFrom_does x other
    · cases throughBase with
      | false => exact getValue_does assign_does
      | true => exact assignFrom_does x other
  | equal x other leftFirst =>
    by_cases hx : x = other
    · cases template <;> simp [body, access, Generic.equal, Native.equal, hx, Prog.Does]
    · obtain rfl | ⟨_, rfl⟩ := Template.cases_of_byValue ht
      · simp only [body, access, Generic.equal, hx, if_false]
        exact getValue_does fun _ => getValue_does fun _ => rfl
      · simp only [body, access, Native.equal, hx, if_false]
        cases leftFirst <;> exact getValue_does fun _ => getValue_does fun _ => rfl

variable [DecidableEq Tid] {template : Template T} {init : V → T} {clients : Tid → Client (Op V T) (Ret T)}
  {s : Locks.State Tid V T (Op V T) (Ret T)}

/-- **Atomic operations are accesses**: to each state that the code reaches, in any order of the threads, there is one
that the accesses reach, in which the same operations have begun, the threads between two operations are at the same
place of their programs (so they were returned the same), and the variables have the same values, unless one is locked.
This is for all implementations but the generic one whose `GetData` returns a reference. -/
theorem accesses_atomic (ht : template.byValue = true) (h : (system template init clients).Reachable Anything s) :
    ∃ m, (accesses (access template) init clients).Reachable Anything m ∧ m.called = s.called ∧
      (∀ t c, m.thread t = .between c ↔ s.thread t = .between c) ∧ ∀ x, s.owner x = none → m.data x = s.data x := by
  obtain ⟨m, hm, hi⟩ := shown (body_does ht) h
  refine ⟨m, hm, hi.called, fun t c => ?_, hi.data⟩
  cases hi.thread t with
  | between hs hm => simp [hs, hm]
  | outside hs hm | within hs hm => simp [hs, hm]

/-- Two threads that want to be the one who sets the variable: one holds the mutex, and has set it. -/
theorem accesses_atomic_bothSet : ∃ (s : Locks.State Bool Unit ℕ (Op Unit ℕ) (Ret ℕ))
    (m : Memory Bool Unit ℕ (Op Unit ℕ) (Ret ℕ)), s.owner () = some true ∧ s.data () = 1 ∧ s.called.length = 2 ∧
    (accesses (access (.generic .value)) (fun _ => 0) fun _ => .call (.compareAndSet () 0 1) fun _ => .done).Reachable
      Anything m ∧ m.called = s.called ∧ (∀ t c, m.thread t = .between c ↔ s.thread t = .between c) ∧
    ∀ x, s.owner x = none → m.data x = s.data x := by
  obtain ⟨s, hs, hp⟩ := System.reachable_of_exec
    (system (.generic .value) (fun _ : Unit => 0) fun _ : Bool => .call (.compareAndSet () 0 1) fun _ => .done)
    Anything [true, false, true, true, true]
    (fun s => s.owner () == some true && (s.data () == 1 && s.called.length == 2)) (by decide)
  simp only [Bool.and_eq_true, beq_iff_eq] at hp
  obtain ⟨m, hm⟩ := accesses_atomic rfl hs
  exact ⟨s, m, hp.1, hp.2.1, hp.2.2, hm⟩

/-- **Every program ends**: in a fair run of any number of threads, whatever operations their programs call. -/
theorem programs_end {r : (system template init clients).Run Anything} (hf : r.Fair some) (t : Tid) :
    r.Finally fun s => s.thread t = .between .done := program_ends (body_oneLock template) hf t

/-- Two threads assign two variables to each other, one after the other. -/
theorem programs_end_bothAssign :
    ∃ r : (system (.generic (.reference Copying.pair)) (fun y : Bool => if y = true then (1, 1) else (2, 2))
      fun t : Bool => .call (.assignFrom t !t) fun _ => .done).Run Anything,
    r.Fair some ∧ (r.state 2).called.length = 2 ∧ ∀ t, r.Finally fun s => s.thread t = .between .done := by
  obtain ⟨r, hf, hr⟩ :=
    exists_run_done (body (.generic (.reference Copying.pair))) (fun y : Bool => if y = true then (1, 1) else (2, 2))
    (fun t : Bool => .call (.assignFrom t !t) fun _ => .done)
    [true, false, true, true, true, true, false, false, false, false, true, true, true, true, false, false, false,
      false] (by decide +kernel)
  have hcalled := System.check_run hr (k := 2) (p := fun s => s.called.length == 2) (by decide +kernel)
  exact ⟨r, hf, eq_of_beq hcalled, programs_end hf⟩

end Compare

end Atomic

end Tpool
