import Mathlib.Data.List.Basic
import Tpool.Concurrency.Monitor

/-!
# Sequential objects, and the bounded FIFO

- `Object`: what an operation does to a value and returns, when it is enabled. `Object.Legal q lg q'`: the log `lg` is a
  sequential run of the object from `q` to `q'`; a call that was left by an exception has no effect.
- `Fifo.apply cap`: the queue that holds at most `cap` elements (any number, when `cap = none`).
- What every legal log of it says: the history equation (`history`), when the calls that may fail do (`tryPush_iff`,
  `tryPop_iff`, `tryFront_iff`), and that a pop takes what was seen at the front (`front_pop`).
-/

namespace Concurrency

/-- A sequential object: the effect and the result of an operation, `none` when it is not enabled. -/
abbrev Object (σ μ ρ : Type*) := σ → μ → Option (σ × ρ)

namespace Object

variable {Tid σ μ ρ : Type*} (O : Object σ μ ρ)

/-- The log is a sequential run from `q` to `q'`. -/
def Legal : σ → Monitor.Log Tid μ ρ → σ → Prop
  | q, [], q' => q = q'
  | q, (_, _, none) :: lg, q' => Legal q lg q'
  | q, (_, m, some r) :: lg, q' => ∃ q1, O q m = some (q1, r) ∧ Legal q1 lg q'

variable {O}

/-- A sequential run in two parts. -/
theorem legal_append {lg lg' : Monitor.Log Tid μ ρ} :
    ∀ {q q' : σ}, Legal O q (lg ++ lg') q' ↔ ∃ q1, Legal O q lg q1 ∧ Legal O q1 lg' q' := by
  induction lg with
  | nil => intro q q'; simp [Legal]
  | cons e lg ih =>
    obtain ⟨t, m, r⟩ := e
    intro q q'
    cases r with
    | none => exact ih
    | some r =>
      constructor
      · rintro ⟨q2, h, hl⟩
        obtain ⟨q1, h1, h2⟩ := ih.mp hl
        exact ⟨q1, ⟨q2, h, h1⟩, h2⟩
      · rintro ⟨q1, ⟨q2, h, h1⟩, h2⟩
        exact ⟨q2, h, ih.mpr ⟨q1, h1, h2⟩⟩

/-- A call that was left by an exception has no effect. -/
theorem legal_throw {lg : Monitor.Log Tid μ ρ} {t : Tid} {m : μ} {q q' : σ} :
    Legal O q (lg ++ [(t, m, none)]) q' ↔ Legal O q lg q' := by
  simp [legal_append, Legal]

/-- One more call. -/
theorem Legal.snoc {lg : Monitor.Log Tid μ ρ} {t : Tid} {m : μ} {r : ρ} {q q1 q2 : σ} (h : Legal O q lg q1)
    (ha : O q1 m = some (q2, r)) : Legal O q (lg ++ [(t, m, some r)]) q2 :=
  legal_append.mpr ⟨q1, h, q2, ha, rfl⟩

/-- The step of a call in a run. -/
theorem Legal.at {before after : Monitor.Log Tid μ ρ} {t : Tid} {m : μ} {r : ρ} {q q' : σ}
    (h : Legal O q (before ++ (t, m, some r) :: after) q') :
    ∃ q1 q2, Legal O q before q1 ∧ O q1 m = some (q2, r) ∧ Legal O q2 after q' := by
  obtain ⟨q1, h1, q2, h2, h3⟩ := legal_append.mp h
  exact ⟨q1, q2, h1, h2, h3⟩

end Object

/-! ## The bounded FIFO -/

namespace Fifo

variable {α : Type*}

inductive Op (α : Type*)
  | push (x : α)
  | tryPush (x : α)
  | pop
  | tryPop
  | front
  | tryFront
  | size
  | isEmpty
  | isFull

/-- What an operation returns; `found none` is a failed `tryPop` or `tryFront`. -/
inductive Res (α : Type*)
  | void
  | elem (x : α)
  | found (x : Option α)
  | bool (b : Bool)
  | size (n : Nat)

/-- Holding as many elements as allowed. -/
def isFull (cap : Option Nat) (q : List α) : Bool := cap == some q.length

/-- The bounded FIFO. `push` waits for room, `pop` and `front` for an element. -/
def apply (cap : Option Nat) (q : List α) : Op α → Option (List α × Res α)
  | .push x => if isFull cap q then none else some (q ++ [x], .void)
  | .tryPush x => some (if isFull cap q then (q, .bool false) else (q ++ [x], .bool true))
  | .pop => q.head?.map fun x => (q.tail, .elem x)
  | .tryPop => some (q.tail, .found q.head?)
  | .front => q.head?.map fun x => (q, .elem x)
  | .tryFront => some (q, .found q.head?)
  | .size => some (q, .size q.length)
  | .isEmpty => some (q, .bool q.isEmpty)
  | .isFull => some (q, .bool (isFull cap q))

/-- The element a call has put into the queue. -/
def pushedBy : Op α → Res α → Option α
  | .push x, _ => some x
  | .tryPush x, .bool true => some x
  | _, _ => none

/-- The element a call has taken out of the queue. -/
def poppedBy : Op α → Res α → Option α
  | .pop, .elem x => some x
  | .tryPop, .found x => x
  | _, _ => none

/-- The element a call has seen at the front. -/
def seenBy : Op α → Res α → Option α
  | .front, .elem x => some x
  | .tryFront, .found x => x
  | _, _ => none

variable {cap : Option Nat} {q q' : List α}

/-- One operation changes the queue by what it puts in and takes out. -/
theorem apply_history {o : Op α} {r : Res α} (h : apply cap q o = some (q', r)) :
    q ++ (pushedBy o r).toList = (poppedBy o r).toList ++ q' := by
  cases o <;> cases q <;> simp only [apply] at h <;> (try split at h) <;> simp at h <;>
    obtain ⟨rfl, rfl⟩ := h <;> simp [pushedBy, poppedBy]

theorem apply_pop {o : Op α} {r : Res α} {x : α} (h : apply cap q o = some (q', r)) (hx : poppedBy o r = some x) :
    q.head? = some x := by
  have h' := apply_history h
  cases o <;> simp_all [apply, poppedBy, pushedBy]

theorem apply_seen {o : Op α} {r : Res α} {x : α} (h : apply cap q o = some (q', r)) (hx : seenBy o r = some x) :
    q.head? = some x ∧ q' = q := by
  cases o <;> simp_all [apply, seenBy] <;> grind

/-- A `tryPush` fails when the queue is full and only then. -/
theorem tryPush_iff {x : α} {r : Res α} (h : apply cap q (.tryPush x) = some (q', r)) :
    (r = .bool false ↔ isFull cap q = true) ∧ (r = .bool false → q' = q) := by
  simp only [apply, Option.some.injEq] at h
  split at h <;> cases h <;> simp_all

/-- A `tryPop` fails when the queue is empty and only then. -/
theorem tryPop_iff {r : Res α} (h : apply cap q .tryPop = some (q', r)) :
    (r = .found none ↔ q = []) ∧ (r = .found none → q' = q) := by
  simp only [apply, Option.some.injEq, Prod.mk.injEq] at h
  obtain ⟨rfl, rfl⟩ := h
  cases q <;> simp

/-- A `tryFront` fails when the queue is empty and only then. -/
theorem tryFront_iff {r : Res α} (h : apply cap q .tryFront = some (q', r)) :
    (r = .found none ↔ q = []) ∧ q' = q := by
  simp only [apply, Option.some.injEq, Prod.mk.injEq] at h
  obtain ⟨rfl, rfl⟩ := h
  cases q <;> simp

/-! ## Its logs -/

section Log

variable {Tid μ : Type*} (cap) (op : μ → Op α)

/-- The FIFO whose operations go by the names in `μ`. -/
def object : Object (List α) μ (Res α) := fun q m => apply cap q (op m)

/-- The elements put into the queue, in the order of the log. -/
def pushed (lg : Monitor.Log Tid μ (Res α)) : List α := lg.filterMap fun e => e.2.2.bind (pushedBy (op e.2.1))

/-- The elements taken out of the queue, in the order of the log. -/
def popped (lg : Monitor.Log Tid μ (Res α)) : List α := lg.filterMap fun e => e.2.2.bind (poppedBy (op e.2.1))

variable {cap op} {lg : Monitor.Log Tid μ (Res α)}

theorem popped_eq_nil : popped op lg = [] ↔ ∀ e ∈ lg, e.2.2.bind (poppedBy (op e.2.1)) = none := by
  simp [popped]

/-- **The history equation.** -/
theorem history : ∀ {q q' : List α}, (object cap op).Legal q lg q' → q ++ pushed op lg = popped op lg ++ q' := by
  induction lg with
  | nil => rintro q q' rfl; simp [pushed, popped]
  | cons e lg ih =>
    obtain ⟨t, m, r⟩ := e
    intro q q' h
    cases r with
    | none => simpa [pushed, popped] using ih h
    | some r =>
      obtain ⟨q1, h1, h2⟩ := h
      have hstep := apply_history h1
      have hrest := ih h2
      calc q ++ pushed op ((t, m, some r) :: lg)
          = q ++ (pushedBy (op m) r).toList ++ pushed op lg := by cases hb : pushedBy (op m) r <;> simp [pushed, hb]
        _ = (poppedBy (op m) r).toList ++ (q1 ++ pushed op lg) := by rw [hstep, List.append_assoc]
        _ = (poppedBy (op m) r).toList ++ (popped op lg ++ q') := by rw [hrest]
        _ = popped op ((t, m, some r) :: lg) ++ q' := by cases hb : poppedBy (op m) r <;> simp [popped, hb]

/-- **A pop takes what was seen at the front**, when nothing was taken out in between. -/
theorem front_pop {before between after : Monitor.Log Tid μ (Res α)} {t u : Tid} {m m' : μ} {r r' : Res α} {x y : α}
    (h : (object cap op).Legal q (before ++ (t, m, some r) :: (between ++ (u, m', some r') :: after)) q')
    (hx : seenBy (op m) r = some x) (hb : popped op between = []) (hy : poppedBy (op m') r' = some y) : y = x := by
  obtain ⟨q1, q2, -, h1, h⟩ := h.at
  obtain ⟨q3, q4, h2, h3, -⟩ := h.at
  obtain ⟨hhead, rfl⟩ := apply_seen h1 hx
  have hhist := history h2
  rw [hb, List.nil_append] at hhist
  have hhead' := apply_pop h3 hy
  rw [← hhist, List.head?_append, hhead] at hhead'
  exact (Option.some.inj hhead').symm

end Log

end Fifo

end Concurrency
