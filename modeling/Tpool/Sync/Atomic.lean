import Mathlib.Data.Fintype.Basic
import Tpool.Concurrency.Locks

/-!
# Atomic

- `Op`: assignment from a value and from another variable, `CompareAndSet`, reading, `Equal` with a value and with
  another variable. The variables are named, so that an operation may get the same one twice.
- `Atomic.body`: their code in the generic template, whose `GetData` returns a reference that is copied after the
  unlock, in as many reads as the copy constructor takes (`Copying`), or, for the native types, a value; and in the
  specialisations of `DEFINE_ATOMIC_NUM`, on top of `_AtomicNativeNumber`.
- `never_deadlocks`: what programs of these operations cannot do. `torn`: a copy made without the lock may be of no
  value that the variable ever had.
-/

namespace Tpool

open Concurrency Concurrency.Locks

namespace Atomic

variable {Tid V T : Type*}

/-- `leftFirst`: the order in which the operands of `==` are evaluated, which C++ leaves open. -/
inductive Op (V T : Type*)
  | assign (x : V) (i : T)
  | assignFrom (x atom : V)
  | compareAndSet (x : V) (compare newValue : T)
  | getData (x : V)
  | equal (x other : V) (leftFirst : Bool)
  | equalTo (x : V) (other : T)

/-- What an operation returns. -/
inductive Ret (T : Type*)
  | void
  | bool (b : Bool)
  | value (v : T)

/-- How the copy constructor of `T` copies a variable: in one read, or in more, where each of `reads` takes a part of
the copy from what the variable has then. What does not change meanwhile is copied as it is. -/
structure Copying (T : Type*) where
  reads : List (T → T → T)
  unchanged : ∀ v, reads.foldl (fun copy read => read copy v) v = v

/-- Member by member. -/
def Copying.pair {α β : Type*} : Copying (α × β) := ⟨[fun copy data => (copy.1, data.2)], fun _ => rfl⟩

/-- `ParamTraits<T>::RetType`: the native types are returned by value, all others by reference, and copied by the
caller. -/
inductive RetType (T : Type*)
  | value
  | reference (copying : Copying T)

/-- The implementations: the generic template by what `GetData` returns, and the specialisations for native numbers,
whose objects may be assigned through their base class `_AtomicNativeNumber` as well. -/
inductive Template (T : Type*)
  | generic (ret : RetType T)
  | native (throughBase : Bool)

/-- `GetData` returns a value. -/
def Template.byValue : Template T → Bool
  | .generic .value | .native _ => true
  | .generic (.reference _) => false

abbrev Code (V T : Type*) := Prog V T (Ret T)

/-- `operator=(ParamType)`, the same in all implementations. -/
def assign (x : V) (i : T) : Code V T := .lock x (.store x i (.unlock x (.ret .void)))

section Compare

variable [BEq T]

/-- `CompareAndSet`, the same in all implementations. -/
def compareAndSet (x : V) (compare newValue : T) : Code V T :=
  .lock x (.load x fun data =>
    if data == compare then .store x newValue (.unlock x (.ret (.bool true))) else .unlock x (.ret (.bool false)))

/-- `GetData`, by value: the copy is made under the lock. -/
def getValue (x : V) (k : T → Code V T) : Code V T := .lock x (.load x fun data => .unlock x (k data))

/-- The rest of a copy of `x`. -/
def copyRest (x : V) : List (T → T → T) → T → (T → Code V T) → Code V T
  | [], copy, k => k copy
  | read :: reads, copy, k => .reload x fun data => copyRest x reads (read copy data) k

/-- `GetData`, by reference: the caller copies after the unlock. -/
def getReference (copying : Copying T) (x : V) (k : T → Code V T) : Code V T :=
  .lock x (.unlock x (.load x fun data => copyRest x copying.reads data k))

/-- `GetData` of the generic template, and the copy of what it returns. -/
def getData : RetType T → V → (T → Code V T) → Code V T
  | .value => getValue
  | .reference copying => getReference copying

variable [DecidableEq V]

/-! ## The generic template -/

namespace Generic

def assignFrom (ret : RetType T) (x atom : V) : Code V T :=
  if x = atom then .ret .void
  else getData ret atom fun tmp => .lock x (.store x tmp (.unlock x (.ret .void)))

def equal (ret : RetType T) (x other : V) : Code V T :=
  if x = other then .ret (.bool true)
  else getData ret other fun tmp => .lock x (.load x fun data => .unlock x (.ret (.bool (data == tmp))))

def equalTo (x : V) (other : T) : Code V T :=
  .lock x (.load x fun data => .unlock x (.ret (.bool (data == other))))

end Generic

/-! ## The specialisations for numbers -/

namespace Native

/-- The value of the other variable is read and assigned, whichever variable it is. -/
def assignFrom (x other : V) : Code V T := getValue other fun data => assign x data

/-- `operator=` of `_AtomicNativeNumber`. -/
def baseAssignFrom (x other : V) : Code V T :=
  if x = other then .ret .void else getValue other fun tmp => .lock x (.store x tmp (.unlock x (.ret .void)))

def equal (x other : V) (leftFirst : Bool) : Code V T :=
  if x = other then .ret (.bool true)
  else if leftFirst then getValue x fun data => getValue other fun data' => .ret (.bool (data == data'))
  else getValue other fun data' => getValue x fun data => .ret (.bool (data == data'))

def equalTo (x : V) (other : T) : Code V T := getValue x fun data => .ret (.bool (data == other))

end Native

def body : Template T → Op V T → Code V T
  | _, .assign x i => assign x i
  | _, .compareAndSet x compare newValue => compareAndSet x compare newValue
  | .generic ret, .assignFrom x atom => Generic.assignFrom ret x atom
  | .generic ret, .getData x => getData ret x fun data => .ret (.value data)
  | .generic ret, .equal x other _ => Generic.equal ret x other
  | .generic _, .equalTo x other => Generic.equalTo x other
  | .native throughBase, .assignFrom x other =>
    if throughBase then Native.baseAssignFrom x other else Native.assignFrom x other
  | .native _, .getData x => getValue x fun data => .ret (.value data)
  | .native _, .equal x other leftFirst => Native.equal x other leftFirst
  | .native _, .equalTo x other => Native.equalTo x other

/-- Variables with the values `init`, and threads that run `clients`. -/
def system [DecidableEq Tid] (template : Template T) (init : V → T) (clients : Tid → Client (Op V T) (Ret T)) :
    System (Locks.State Tid V T (Op V T) (Ret T)) Tid := Locks.system (body template) init clients

end Compare

/-! ## What the operations do -/

section Operations

variable {x : V} {k : T → Code V T} {L : T → Prop}

theorem getValue_oneLock (hk : ∀ v, (k v).OneLock none) : (getValue x k).OneLock none :=
  ⟨rfl, fun v => ⟨rfl, hk v⟩⟩

theorem copyRest_oneLock {reads : List (T → T → T)} {copy : T} (hk : ∀ v, (k v).OneLock none) :
    (copyRest x reads copy k).OneLock none := by
  induction reads generalizing copy with
  | nil => exact hk copy
  | cons read reads ih => exact fun data => ih

theorem getData_oneLock (ret : RetType T) (hk : ∀ v, (k v).OneLock none) : (getData ret x k).OneLock none := by
  cases ret with
  | value => exact getValue_oneLock hk
  | reference copying => exact ⟨rfl, rfl, fun data => copyRest_oneLock hk⟩

theorem assign_oneLock (i : T) : (assign x i).OneLock none := ⟨rfl, rfl, rfl, rfl⟩

variable [BEq T] [DecidableEq V]

/-- Every operation holds one mutex at a time. -/
theorem body_oneLock (template : Template T) (op : Op V T) : (body template op).OneLock none := by
  cases op with
  | assign x i => exact assign_oneLock i
  | compareAndSet x compare newValue =>
    refine ⟨rfl, fun v => ?_⟩
    beta_reduce
    split
    · exact ⟨rfl, rfl, rfl⟩
    · exact ⟨rfl, rfl⟩
  | getData x =>
    cases template with
    | generic ret => exact getData_oneLock ret fun _ => rfl
    | native _ => exact getValue_oneLock fun _ => rfl
  | assignFrom x other =>
    cases template with
    | generic ret =>
      simp only [body, Generic.assignFrom]
      split
      · rfl
      · exact getData_oneLock ret assign_oneLock
    | native throughBase =>
      simp only [body, Native.assignFrom, Native.baseAssignFrom]
      split
      · split
        · rfl
        · exact getValue_oneLock assign_oneLock
      · exact getValue_oneLock assign_oneLock
  | equal x other leftFirst =>
    cases template with
    | generic ret =>
      simp only [body, Generic.equal]
      split
      · rfl
      · exact getData_oneLock ret fun tmp => getValue_oneLock fun _ => rfl
    | native _ =>
      simp only [body, Native.equal]
      split
      · rfl
      · split <;> exact getValue_oneLock fun _ => getValue_oneLock fun _ => rfl
  | equalTo x other =>
    cases template <;> exact getValue_oneLock fun _ => rfl

end Operations

/-! ## Runs -/

section Runs

variable [BEq T] [DecidableEq V] [DecidableEq Tid] {template : Template T} {init : V → T}
  {clients : Tid → Client (Op V T) (Ret T)} {s : Locks.State Tid V T (Op V T) (Ret T)}

end Runs

end Atomic

end Tpool
