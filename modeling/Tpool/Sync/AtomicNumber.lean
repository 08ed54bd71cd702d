import Mathlib.Data.Int.Cast.Defs
import Tpool.Concurrency.Total
import Tpool.Sync.AtomicAccess

/-!
# Atomic numbers

- `NumberOp`: the operations of the specialisations for native numbers, which count up and down as well.
- `Native.count`: the code of the operators `++` and `--`, before and after the operand.
- `updates_kept`: none of their updates gets lost, by any interleaving, and in a fair run all are made.
-/

namespace Tpool

open Concurrency Concurrency.Locks

namespace Atomic

variable {Tid V T : Type*}

/-- The operations of every `Atomic`, and the operators. -/
inductive NumberOp (V T : Type*)
  | atomic (op : Op V T)
  | preIncrement (x : V)
  | postIncrement (x : V)
  | preDecrement (x : V)
  | postDecrement (x : V)

/-- It may set `x` to what `x` has nothing to do with. -/
def NumberOp.assigns [DecidableEq V] (x : V) : NumberOp V T → Bool
  | .atomic (.assign y _) | .atomic (.assignFrom y _) | .atomic (.compareAndSet y _ _) => decide (y = x)
  | .atomic (.getData _) | .atomic (.equal _ _ _) | .atomic (.equalTo _ _) => false
  | .preIncrement _ | .postIncrement _ | .preDecrement _ | .postDecrement _ => false

/-! ## The operators -/

namespace Native

/-- Under the lock the number is changed, and it or the old one is returned. -/
def count (x : V) (change result : T → T) : Code V T :=
  .lock x (.load x fun data => .store x (change data) (.unlock x (.ret (.value (result data)))))

variable [AddCommGroupWithOne T]

def preIncrement (x : V) : Code V T := count x (· + 1) (· + 1)

def postIncrement (x : V) : Code V T := count x (· + 1) id

def preDecrement (x : V) : Code V T := count x (· - 1) (· - 1)

def postDecrement (x : V) : Code V T := count x (· - 1) id

end Native

theorem count_oneLock {x : V} {change result : T → T} : (Native.count x change result).OneLock none :=
  ⟨rfl, fun _ => ⟨rfl, rfl, rfl⟩⟩

/-- What an operator does in its one access. -/
def counted (x : V) (change result : T → T) : Effect V T := .access x change fun v => .ret (.value (result v))

theorem count_does {x : V} {change result : T → T} :
    (Native.count x change result).Does none (counted x change result) :=
  ⟨_, _, rfl, fun _ => ⟨rfl, rfl, rfl, rfl, rfl⟩⟩

/-! ## Numbers -/

section Numbers

variable [AddCommGroupWithOne T] [BEq T] [DecidableEq V] {throughBase : Bool}

def numberBody (throughBase : Bool) : NumberOp V T → Code V T
  | .atomic op => body (.native throughBase) op
  | .preIncrement x => Native.preIncrement x
  | .postIncrement x => Native.postIncrement x
  | .preDecrement x => Native.preDecrement x
  | .postDecrement x => Native.postDecrement x

def numberAccess (throughBase : Bool) : NumberOp V T → Effect V T
  | .atomic op => access (.native throughBase) op
  | .preIncrement x => counted x (· + 1) (· + 1)
  | .postIncrement x => counted x (· + 1) id
  | .preDecrement x => counted x (· - 1) (· - 1)
  | .postDecrement x => counted x (· - 1) id

/-- What it adds to `x`. -/
def NumberOp.amount (x : V) : NumberOp V T → T
  | .atomic _ => 0
  | .preIncrement y | .postIncrement y => if y = x then 1 else 0
  | .preDecrement y | .postDecrement y => if y = x then -1 else 0

theorem numberBody_oneLock (op : NumberOp V T) : (numberBody throughBase op).OneLock none := by
  cases op with
  | atomic op => exact body_oneLock _ op
  | preIncrement x | postIncrement x | preDecrement x | postDecrement x => exact count_oneLock

theorem numberBody_does (op : NumberOp V T) : (numberBody throughBase op).Does none (numberAccess throughBase op) := by
  cases op with
  | atomic op => exact body_does rfl op
  | preIncrement x | postIncrement x | preDecrement x | postDecrement x => exact count_does

/-! ## What they add -/

variable {x y : V} {k : T → Effect V T}

omit [BEq T] in
theorem counted_adds {change result : T → T} {e : T} (h : ∀ v, change v = v + e) :
    (counted y change result).Adds x (if y = x then e else 0) := by
  refine ⟨if y = x then e else 0, fun hyx v => ?_, fun hyx => if_neg hyx, fun v => sub_self _⟩
  rw [if_pos hyx, h]

omit [BEq T] [DecidableEq V] in
theorem read_adds (hk : ∀ v, (k v).Adds x 0) : (read y k).Adds x 0 :=
  ⟨0, fun _ v => (add_zero v).symm, fun _ => rfl, fun v => by rw [sub_zero]; exact hk v⟩

omit [BEq T] [DecidableEq V] in
theorem write_adds (hyx : y ≠ x) (i : T) : (write y i : Effect V T).Adds x 0 :=
  ⟨0, fun h => absurd h hyx, fun _ => rfl, fun _ => sub_self _⟩

theorem access_adds {template : Template T} {op : Op V T} (h : (NumberOp.atomic op).assigns x = false) :
    (access template op).Adds x 0 := by
  cases op with
  | assign y i => exact write_adds (of_decide_eq_false h) i
  | compareAndSet y compare newValue =>
    exact ⟨0, fun hyx => absurd hyx (of_decide_eq_false h), fun _ => rfl, fun _ => sub_self _⟩
  | getData y | equalTo y => exact read_adds fun _ => rfl
  | assignFrom y other =>
    have hcopy : (read other fun v => write y v : Effect V T).Adds x 0 := read_adds fun v =>
      write_adds (of_decide_eq_false h) v
    simp only [access]
    split
    · exact hcopy
    · split
      · rfl
      · exact hcopy
    · split
      · rfl
      · exact hcopy
  | equal y other leftFirst =>
    simp only [access]
    split
    · rfl
    · split <;> exact read_adds fun _ => read_adds fun _ => rfl

theorem numberAccess_adds {op : NumberOp V T} (h : op.assigns x = false) :
    (numberAccess throughBase op).Adds x (op.amount x) := by
  cases op with
  | atomic op => exact access_adds h
  | preIncrement y | postIncrement y => exact counted_adds fun _ => rfl
  | preDecrement y | postDecrement y => exact counted_adds fun v => sub_eq_add_neg v 1

/-! ## Runs -/

variable [DecidableEq Tid]

/-- Numbers with the values `init`, and threads that run `clients`. -/
def numbers (throughBase : Bool) (init : V → T) (clients : Tid → Client (NumberOp V T) (Ret T)) :
    System (Locks.State Tid V T (NumberOp V T) (Ret T)) Tid := Locks.system (numberBody throughBase) init clients

variable {init : V → T} {clients : Tid → Client (NumberOp V T) (Ret T)}
  {s : Locks.State Tid V T (NumberOp V T) (Ret T)}

/-- When nobody is in an operation, a variable that was only counted has what it was counted. -/
theorem data_of_between [Fintype Tid] (h : (numbers throughBase init clients).Reachable Anything s)
    (hout : ∀ t, ∃ c, s.thread t = .between c) (hx : ∀ op ∈ s.called, op.assigns x = false) :
    s.data x = init x + (s.called.map (NumberOp.amount x)).sum := by
  obtain ⟨m, hm, hi⟩ := shown numberBody_does h
  obtain ⟨f, hf, htotal⟩ := total hm fun op hop => numberAccess_adds (hx op (hi.called ▸ hop))
  have hbetween : ∀ t, (∃ c, m.thread t = .between c) ∧ s.owner x ≠ some t := fun t => by
    obtain ⟨c, hc⟩ := hout t
    cases hi.thread t with
    | between hs hm hfree => exact ⟨⟨_, hm⟩, hfree x⟩
    | outside hs | within hs => cases hs.symm.trans hc
  have hfree : s.owner x = none := Option.eq_none_iff_forall_ne_some.mpr fun t => (hbetween t).2
  have hzero : ∀ t, f t = 0 := fun t => by
    obtain ⟨⟨c, hc⟩, -⟩ := hbetween t
    have ht := hf t
    rw [hc] at ht
    exact ht
  rw [← hi.data x hfree, ← hi.called, ← htotal]
  simp [hzero]

/-- **No update gets lost**: with any number of threads that count variables up and down, whatever else they do, and by
any interleaving of the code, a variable that nobody assigns has, whenever nobody is in an operation, its first value
and what all the operators called so far add; and in a fair run all programs end. This is in the integers as long as
none overflows, and modulo a power of two for the unsigned types. -/
theorem updates_kept [Fintype Tid] :
    (∀ s, (numbers throughBase init clients).Reachable Anything s → (∀ t, ∃ c, s.thread t = .between c) →
      ∀ x, (∀ op ∈ s.called, op.assigns x = false) → s.data x = init x + (s.called.map (NumberOp.amount x)).sum) ∧
    ∀ r : (numbers throughBase init clients).Run Anything, r.Fair some →
      r.Finally fun s => ∀ t, s.thread t = .between .done :=
  ⟨fun _ hs hout _ hx => data_of_between hs hout hx,
    fun _ hf => System.Run.finally_all fun t => program_ends numberBody_oneLock hf t⟩

end Numbers

/-- Two threads count the same number up at the same time. -/
theorem updates_kept_bothCount : ∃ r : (numbers false (fun _ : Unit => (5 : ℤ))
      fun t : Bool => .call (if t = true then .preIncrement () else .postIncrement ()) fun _ => .done).Run Anything,
    ((r.state 4).owner () = some true ∧ (r.state 4).called.length = 2) ∧ (r.state 12).data () = 7 ∧
    r.Finally fun s => ∀ t, s.thread t = .between .done := by
  obtain ⟨r, hf, hr⟩ := exists_run_done (numberBody false) (fun _ : Unit => (5 : ℤ))
    (fun t : Bool => .call (if t = true then .preIncrement () else .postIncrement ()) fun _ => .done)
    [true, false, true, true, true, true, false, true, false, false, false, false] (by decide +kernel)
  have hrun := System.check_run hr (k := 4) (p := fun s => s.owner () == some true && s.called.length == 2)
    (by decide +kernel)
  have hlast := System.check_run hr (k := 12) (p := fun s => decide (∀ t, (s.thread t).over = true) &&
    (s.called.all (fun op => !op.assigns ()) && (s.called.map (NumberOp.amount ())).sum == 2)) (by decide +kernel)
  simp only [Bool.and_eq_true, beq_iff_eq, decide_eq_true_eq, List.all_eq_true, Bool.not_eq_true'] at hrun hlast
  obtain ⟨hover, hkeeps, hsum⟩ := hlast
  have hdata := updates_kept.1 _ (r.reachable 12) (fun t => ⟨.done, Thread.eq_of_over (hover t)⟩) () hkeeps
  rw [hsum] at hdata
  exact ⟨r, hrun, hdata, updates_kept.2 r hf⟩

end Atomic

end Tpool
