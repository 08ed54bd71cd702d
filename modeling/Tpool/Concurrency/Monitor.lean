import Mathlib.Data.Finset.Basic
import Mathlib.Logic.Function.Basic
import Mathlib.Order.Basic
import Tpool.Concurrency.System

/-!
# Monitors: one mutex, its condition variables, and the code that runs under it

- A method is a list of statements (`Stmt`) executed between the lock and the unlock of one mutex. `waitWhile c f` is
  the loop `while (f) c.wait()`; `notifyAllIf c f` is `if (f) c.notify_all()`; `act` reads and writes the data and the
  locals and may throw, which unlocks and leaves the method; `returnIf f r` is an early return.
- `next` is the step function: lock, unlock, every statement and the two halves of a wait are steps of their own, and a
  waiter may wake spuriously. `waiting c` holds the threads blocked on `c` that nobody has notified.
- `Step` says what a move can do (`next_cases`); what moves keep is proved from it.
- `wp A F` is the weakest precondition of a body for the assertion `A` at every point where the lock is held and the
  resource invariant `F` at every point where it is released. `sound` is the rule of the logic: when `F` holds at the
  start and implies the precondition of every body, it holds whenever the lock is free, and `A` always holds.
- `stuck_waits`: with that proved, the calls of a state in which no call can move are all blocked and not notified.
-/

namespace Concurrency.Monitor

variable {Tid μ ι σ l : Type*}

/-- A statement of a method's body. -/
inductive Stmt (ι σ l : Type*)
  | waitWhile (c : ι) (f : σ → l → Bool)
  | returnIf (f : σ → Bool) (r : l)
  | notifyAllIf (c : ι) (f : σ → Bool)
  | act (mayThrow : Bool) (g : σ → l → Option (σ × l))

/-- The bodies of the methods, and the locals with which each of them starts. -/
structure Code (μ ι σ l : Type*) where
  body : μ → List (Stmt ι σ l)
  start : l

/-- The monitor whose methods delegate to those of another. -/
def Code.via {μ' : Type*} (code : Code μ ι σ l) (f : μ' → μ) : Code μ' ι σ l := ⟨fun m => code.body (f m), code.start⟩

/-- Where a thread is in a method: before the lock, at a statement, in a wait, or about to unlock with the locals it
returns (`none` when an exception leaves the method). -/
inductive PC (μ ι σ l : Type*)
  | idle
  | enter (m : μ)
  | body (m : μ) (rest : List (Stmt ι σ l)) (x : l)
  | blocked (m : μ) (c : ι) (f : σ → l → Bool) (rest : List (Stmt ι σ l)) (x : l)
  | leave (m : μ) (r : Option l)

/-- The method call a thread is in. -/
def PC.method : PC μ ι σ l → Option μ
  | .idle => none
  | .enter m | .body m _ _ | .blocked m _ _ _ _ | .leave m _ => some m

/-- Between lock and unlock. -/
def PC.inside : PC μ ι σ l → Bool
  | .body _ _ _ | .leave _ _ => true
  | _ => false

/-- The threads blocked and not notified, by condition variable. -/
abbrev Waiting (Tid ι : Type*) := ι → Finset Tid

/-- The calls that have released the lock, in that order, with what they returned. -/
abbrev Log (Tid μ l : Type*) := List (Tid × μ × Option l)

structure State (Tid μ ι σ l : Type*) where
  data : σ
  owner : Option Tid
  waiting : Waiting Tid ι
  pc : Tid → PC μ ι σ l
  log : Log Tid μ l

/-- A move: a thread calls a method, a thread executes its next step, throwing where it may when `throws`, or a waiter
wakes by itself. -/
inductive Action (Tid μ ι : Type*)
  | call (t : Tid) (m : μ)
  | step (t : Tid) (throws : Bool)
  | wake (c : ι) (t : Tid)

section Step

variable [DecidableEq Tid] [DecidableEq ι]

/-- `t` blocks on `c`. -/
def Waiting.join (w : Waiting Tid ι) (c : ι) (t : Tid) : Waiting Tid ι := Function.update w c (insert t (w c))

/-- Everyone blocked on `c` is notified. -/
def Waiting.clear (w : Waiting Tid ι) (c : ι) : Waiting Tid ι := Function.update w c ∅

/-- `t` is no longer blocked on `c`. -/
def Waiting.wake (w : Waiting Tid ι) (c : ι) (t : Tid) : Waiting Tid ι := Function.update w c ((w c).erase t)

def State.goto (s : State Tid μ ι σ l) (t : Tid) (p : PC μ ι σ l) : State Tid μ ι σ l :=
  { s with pc := Function.update s.pc t p }

/-- One statement of the thread `t`, which holds the lock. -/
def exec (s : State Tid μ ι σ l) (t : Tid) (throws : Bool) (m : μ) (x : l) (rest : List (Stmt ι σ l)) :
    Stmt ι σ l → Option (State Tid μ ι σ l)
  | .waitWhile c f =>
    if f s.data x then
      some { s.goto t (.blocked m c f rest x) with owner := none, waiting := s.waiting.join c t }
    else some (s.goto t (.body m rest x))
  | .returnIf f r => some (s.goto t (if f s.data then .leave m (some r) else .body m rest x))
  | .notifyAllIf c f =>
    some { s.goto t (.body m rest x) with waiting := if f s.data then s.waiting.clear c else s.waiting }
  | .act mayThrow g =>
    if throws then if mayThrow then some (s.goto t (.leave m none)) else none
    else (g s.data x).map fun (d, x') => { s.goto t (.body m rest x') with data := d }

/-- The step function of a monitor. -/
def next (code : Code μ ι σ l) (s : State Tid μ ι σ l) : Action Tid μ ι → Option (State Tid μ ι σ l)
  | .call t m => match s.pc t with
    | .idle => some (s.goto t (.enter m))
    | _ => none
  | .wake c t => if t ∈ s.waiting c then some { s with waiting := s.waiting.wake c t } else none
  | .step t throws => match s.pc t with
    | .idle => none
    | .enter m =>
      if s.owner = none then some { s.goto t (.body m (code.body m) code.start) with owner := some t } else none
    | .body m [] x => some (s.goto t (.leave m (some x)))
    | .body m (st :: rest) x => exec s t throws m x rest st
    -- pthread_cond_wait returns with the mutex locked; the loop tests its condition again
    | .blocked m c f rest x =>
      if t ∉ s.waiting c ∧ s.owner = none then
        some { s.goto t (.body m (.waitWhile c f :: rest) x) with owner := some t }
      else none
    | .leave m r => some { s.goto t .idle with owner := none, log := s.log ++ [(t, m, r)] }

/-- The monitor around the data `d`, with no call in progress. -/
def system (code : Code μ ι σ l) (d : σ) : System (State Tid μ ι σ l) (Action Tid μ ι) where
  init := ⟨d, none, fun _ => ∅, fun _ => .idle, []⟩
  step := next code

/-- What a move does, by where the thread is and which statement it executes. -/
inductive Step (code : Code μ ι σ l) (s : State Tid μ ι σ l) : Action Tid μ ι → State Tid μ ι σ l → Prop
  | call {t : Tid} {m : μ} (ht : s.pc t = .idle) : Step code s (.call t m) (s.goto t (.enter m))
  | wake {c : ι} {t : Tid} (hc : t ∈ s.waiting c) : Step code s (.wake c t) { s with waiting := s.waiting.wake c t }
  | enter {t : Tid} {throws : Bool} {m : μ} (ht : s.pc t = .enter m) (ho : s.owner = none) :
    Step code s (.step t throws) { s.goto t (.body m (code.body m) code.start) with owner := some t }
  | finish {t : Tid} {throws : Bool} {m : μ} {x : l} (ht : s.pc t = .body m [] x) :
    Step code s (.step t throws) (s.goto t (.leave m (some x)))
  | wait {t : Tid} {throws : Bool} {m : μ} {c : ι} {f : σ → l → Bool} {rest : List (Stmt ι σ l)} {x : l}
    (ht : s.pc t = .body m (.waitWhile c f :: rest) x) (hf : f s.data x = true) : Step code s (.step t throws)
      { s.goto t (.blocked m c f rest x) with owner := none, waiting := s.waiting.join c t }
  | pass {t : Tid} {throws : Bool} {m : μ} {c : ι} {f : σ → l → Bool} {rest : List (Stmt ι σ l)} {x : l}
    (ht : s.pc t = .body m (.waitWhile c f :: rest) x) (hf : f s.data x ≠ true) :
    Step code s (.step t throws) (s.goto t (.body m rest x))
  | ret {t : Tid} {throws : Bool} {m : μ} {f : σ → Bool} {r : l} {rest : List (Stmt ι σ l)} {x : l}
    (ht : s.pc t = .body m (.returnIf f r :: rest) x) (hf : f s.data = true) :
    Step code s (.step t throws) (s.goto t (.leave m (some r)))
  | skip {t : Tid} {throws : Bool} {m : μ} {f : σ → Bool} {r : l} {rest : List (Stmt ι σ l)} {x : l}
    (ht : s.pc t = .body m (.returnIf f r :: rest) x) (hf : f s.data ≠ true) :
    Step code s (.step t throws) (s.goto t (.body m rest x))
  | notify {t : Tid} {throws : Bool} {m : μ} {c : ι} {f : σ → Bool} {rest : List (Stmt ι σ l)} {x : l}
    (ht : s.pc t = .body m (.notifyAllIf c f :: rest) x) : Step code s (.step t throws)
      { s.goto t (.body m rest x) with waiting := if f s.data then s.waiting.clear c else s.waiting }
  | throw {t : Tid} {m : μ} {mayThrow : Bool} {g : σ → l → Option (σ × l)} {rest : List (Stmt ι σ l)} {x : l}
    (ht : s.pc t = .body m (.act mayThrow g :: rest) x) (hm : mayThrow = true) :
    Step code s (.step t true) (s.goto t (.leave m none))
  | act {t : Tid} {m : μ} {mayThrow : Bool} {g : σ → l → Option (σ × l)} {rest : List (Stmt ι σ l)} {x x' : l} {d : σ}
    (ht : s.pc t = .body m (.act mayThrow g :: rest) x) (hg : g s.data x = some (d, x')) :
    Step code s (.step t false) { s.goto t (.body m rest x') with data := d }
  | resume {t : Tid} {throws : Bool} {m : μ} {c : ι} {f : σ → l → Bool} {rest : List (Stmt ι σ l)} {x : l}
    (ht : s.pc t = .blocked m c f rest x) (hc : t ∉ s.waiting c) (ho : s.owner = none) :
    Step code s (.step t throws) { s.goto t (.body m (.waitWhile c f :: rest) x) with owner := some t }
  | leave {t : Tid} {throws : Bool} {m : μ} {r : Option l} (ht : s.pc t = .leave m r) :
    Step code s (.step t throws) { s.goto t .idle with owner := none, log := s.log ++ [(t, m, r)] }

variable {code : Code μ ι σ l} {s s' : State Tid μ ι σ l}

theorem exec_cases {t : Tid} {throws : Bool} {m : μ} {x : l} {rest : List (Stmt ι σ l)} {st : Stmt ι σ l}
    (ht : s.pc t = .body m (st :: rest) x) (h : exec s t throws m x rest st = some s') :
    Step code s (.step t throws) s' := by
  cases st with
  | waitWhile c f =>
    simp only [exec] at h
    split at h <;> cases h
    · exact .wait ht ‹_›
    · exact .pass ht ‹_›
  | returnIf f r =>
    cases h
    split
    · exact .ret ht ‹_›
    · exact .skip ht ‹_›
  | notifyAllIf c f => cases h; exact .notify ht
  | act mayThrow g =>
    simp only [exec] at h
    split at h
    · rename_i hthrows
      subst hthrows
      split at h <;> cases h
      exact .throw ht ‹_›
    · rename_i hthrows
      obtain rfl : throws = false := by simpa using hthrows
      obtain ⟨_, hg, h⟩ := Option.map_eq_some_iff.mp h
      subst h
      exact .act ht hg

theorem next_cases {a : Action Tid μ ι} (h : next code s a = some s') : Step code s a s' := by
  cases a with
  | call t m => simp only [next] at h; split at h <;> cases h; exact .call ‹_›
  | wake c t => simp only [next] at h; split at h <;> cases h; exact .wake ‹_›
  | step t throws =>
    simp only [next] at h
    cases ht : s.pc t with
    | idle => rw [ht] at h; cases h
    | enter m => simp only [ht] at h; split at h <;> cases h; exact .enter ht ‹_›
    | leave m r => simp only [ht, Option.some.injEq] at h; subst h; exact .leave ht
    | blocked m c f rest x =>
      simp only [ht] at h
      split at h
      · rename_i hc
        cases h
        exact .resume ht hc.1 hc.2
      · cases h
    | body m stmts x =>
      rw [ht] at h
      cases stmts with
      | nil => cases h; exact .finish ht
      | cons st rest => exact exec_cases ht h

end Step

/-! ## The wait sets -/

section Waiting

variable [DecidableEq ι] (w : Waiting Tid ι) (c : ι)

theorem Waiting.clear_le : w.clear c ≤ w := by
  intro d
  by_cases h : d = c
  · subst h; simp [clear]
  · simp [clear, h]

theorem Waiting.clear_mono {w w' : Waiting Tid ι} (h : w' ≤ w) : w'.clear c ≤ w.clear c := by
  intro d
  by_cases hd : d = c
  · subst hd; simp [clear]
  · simpa [clear, hd] using h d

@[simp] theorem Waiting.clear_self : w.clear c c = ∅ := by simp [clear]

@[simp] theorem Waiting.clear_of_ne {d : ι} (h : d ≠ c) : w.clear c d = w d := by simp [clear, h]

variable [DecidableEq Tid] (t : Tid)

theorem Waiting.wake_le : w.wake c t ≤ w := by
  intro d
  by_cases h : d = c
  · subst h; simpa [wake] using Finset.erase_subset t (w d)
  · simp [wake, h]

@[simp] theorem Waiting.join_self : w.join c t c = insert t (w c) := by simp [join]

@[simp] theorem Waiting.join_of_ne {d : ι} (h : d ≠ c) : w.join c t d = w d := by simp [join, h]

theorem Waiting.mem_join {w : Waiting Tid ι} {c d : ι} {t u : Tid} (h : u ∈ w.join c t d) :
    (d = c ∧ u = t) ∨ u ∈ w d := by
  by_cases hd : d = c
  · subst hd
    rcases Finset.mem_insert.mp (by simpa using h) with h | h
    · exact Or.inl ⟨rfl, h⟩
    · exact Or.inr h
  · exact Or.inr (by simpa [hd] using h)

end Waiting

/-! ## The logic -/

section Logic

variable [DecidableEq Tid] [DecidableEq ι]
  (A : σ → Waiting Tid ι → Prop) (F : σ → Waiting Tid ι → Log Tid μ l → Prop)

/-- The weakest precondition of the rest of a body. A wait gives the lock away, so what follows it is owed from every
state that satisfies the resource invariant, where the loop leaves or blocks again. -/
def wp (t : Tid) (m : μ) : List (Stmt ι σ l) → l → σ → Waiting Tid ι → Log Tid μ l → Prop
  | [], x, d, w, lg => F d w (lg ++ [(t, m, some x)])
  | .waitWhile c f :: rest, x, d, w, lg => F d w lg ∧
      ∀ d w lg, F d w lg → if f d x then F d (w.join c t) lg else wp t m rest x d w lg
  | .returnIf f r :: rest, x, d, w, lg => A d w ∧
      if f d then F d w (lg ++ [(t, m, some r)]) else wp t m rest x d w lg
  | .notifyAllIf c f :: rest, x, d, w, lg => A d w ∧
      wp t m rest x d (if f d then w.clear c else w) lg
  | .act mayThrow g :: rest, x, d, w, lg => A d w ∧ (mayThrow = true → F d w (lg ++ [(t, m, none)])) ∧
      ∃ d' x', g d x = some (d', x') ∧ wp t m rest x' d' w lg

/-- What the logic asks of a monitor: the resource invariant implies the assertion and the precondition of every
body, and neither minds that waiters wake. -/
structure Verified (code : Code μ ι σ l) : Prop where
  always : ∀ {d w lg}, F d w lg → A d w
  always_wake : ∀ {d w w'}, w' ≤ w → A d w → A d w'
  free_wake : ∀ {d w w' lg}, w' ≤ w → F d w lg → F d w' lg
  body : ∀ t m {d w lg}, F d w lg → wp A F t m (code.body m) code.start d w lg

variable {A F} {code : Code μ ι σ l}

/-- Preconditions do not mind that waiters wake. -/
theorem Verified.wp_wake (hv : Verified A F code) (t : Tid) (m : μ) :
    ∀ {rest : List (Stmt ι σ l)} {x : l} {d : σ} {w w' : Waiting Tid ι} {lg : Log Tid μ l}, w' ≤ w →
      wp A F t m rest x d w lg → wp A F t m rest x d w' lg
  | [], _, _, _, _, _, hw, h => hv.free_wake hw h
  | .waitWhile _ _ :: _, _, _, _, _, _, hw, h => ⟨hv.free_wake hw h.1, h.2⟩
  | .returnIf f r :: rest, x, d, w, w', lg, hw, h => by
    refine ⟨hv.always_wake hw h.1, ?_⟩
    have h2 := h.2
    split at h2
    · rw [if_pos ‹_›]; exact hv.free_wake hw h2
    · rw [if_neg ‹_›]; exact hv.wp_wake t m hw h2
  | .notifyAllIf c f :: rest, x, d, w, w', lg, hw, h => by
    refine ⟨hv.always_wake hw h.1, hv.wp_wake t m ?_ h.2⟩
    split
    · exact Waiting.clear_mono c hw
    · exact hw
  | .act mt g :: rest, x, d, w, w', lg, hw, h => by
    obtain ⟨h1, h2, d', x', hg, h3⟩ := h
    exact ⟨hv.always_wake hw h1, fun e => hv.free_wake hw (h2 e), d', x', hg, hv.wp_wake t m hw h3⟩

/-- The assertion holds at every point of a body. -/
theorem Verified.wp_always (hv : Verified A F code) {t : Tid} {m : μ} {rest : List (Stmt ι σ l)} {x : l} {d : σ}
    {w : Waiting Tid ι} {lg : Log Tid μ l} (h : wp A F t m rest x d w lg) : A d w := by
  match rest with
  | [] => exact hv.always h
  | .waitWhile _ _ :: _ | .returnIf _ _ :: _ | .notifyAllIf _ _ :: _ | .act _ _ :: _ =>
    first | exact hv.always h.1 | exact h.1

variable (A F)

/-- What holds between the steps of a verified monitor. -/
structure Proved (s : State Tid μ ι σ l) : Prop where
  owner_iff : ∀ t, s.owner = some t ↔ (s.pc t).inside = true
  waits : ∀ c t, t ∈ s.waiting c → ∃ m f rest x, s.pc t = .blocked m c f rest x
  free : s.owner = none → F s.data s.waiting s.log
  body : ∀ t m rest x, s.pc t = .body m rest x → wp A F t m rest x s.data s.waiting s.log
  leave : ∀ t m r, s.pc t = .leave m r → F s.data s.waiting (s.log ++ [(t, m, r)])
  resume : ∀ t m c f rest x, s.pc t = .blocked m c f rest x →
    ∀ d w lg, F d w lg → if f d x then F d (w.join c t) lg else wp A F t m rest x d w lg

variable {A F}

/-- A thread between lock and unlock is the only one. -/
theorem Proved.alone {s : State Tid μ ι σ l} (hp : Proved A F s) {t u : Tid} (ht : (s.pc t).inside = true)
    (hu : (s.pc u).inside = true) : u = t := by
  have h1 := (hp.owner_iff t).mpr ht
  have h2 := (hp.owner_iff u).mpr hu
  rw [h1] at h2
  exact (Option.some.inj h2).symm

theorem Proved.not_inside {s : State Tid μ ι σ l} (hp : Proved A F s) (ho : s.owner = none) (t : Tid) :
    (s.pc t).inside = false := by
  cases h : (s.pc t).inside with
  | false => rfl
  | true => rw [← hp.owner_iff, ho] at h; cases h

/-- A thread that is in no wait is in no wait set. -/
theorem Proved.not_waiting {s : State Tid μ ι σ l} (hp : Proved A F s) {t : Tid}
    (ht : ∀ m c f rest x, s.pc t ≠ .blocked m c f rest x) (c : ι) : t ∉ s.waiting c := by
  intro h
  obtain ⟨m, f, rest, x, h⟩ := hp.waits c t h
  exact ht m c f rest x h

/-- The thread that holds the lock moves on. -/
theorem Proved.hold {s : State Tid μ ι σ l} (hp : Proved A F s) {t : Tid} (ht : (s.pc t).inside = true)
    {p : PC μ ι σ l} {d : σ} {w : Waiting Tid ι} (hw : w ≤ s.waiting) (hin : p.inside = true)
    (hbody : ∀ m rest x, p = .body m rest x → wp A F t m rest x d w s.log)
    (hleave : ∀ m r, p = .leave m r → F d w (s.log ++ [(t, m, r)])) :
    Proved A F { s.goto t p with data := d, waiting := w } := by
  have hpc : ∀ u, u ≠ t → Function.update s.pc t p u = s.pc u := fun u h => Function.update_of_ne h _ _
  have hown := (hp.owner_iff t).mpr ht
  refine ⟨fun u => ?_, fun c u hu => ?_, fun ho => ?_, fun u m rest x hu => ?_, fun u m r hu => ?_,
    fun u m c f rest x hu => ?_⟩
  · by_cases h : u = t
    · subst h; simpa [State.goto, hin] using hown
    · simpa [State.goto, hpc u h] using hp.owner_iff u
  · obtain ⟨m, f, rest, x, hb⟩ := hp.waits c u (hw c hu)
    have h : u ≠ t := by rintro rfl; rw [hb] at ht; cases ht
    exact ⟨m, f, rest, x, by simpa [State.goto, hpc u h] using hb⟩
  · simp only [State.goto] at ho
    rw [hown] at ho; cases ho
  · by_cases h : u = t
    · subst h; exact hbody m rest x (by simpa [State.goto] using hu)
    · have hu : s.pc u = .body m rest x := by simpa [State.goto, hpc u h] using hu
      exact absurd (hp.alone ht (by rw [hu]; rfl)) h
  · by_cases h : u = t
    · subst h; exact hleave m r (by simpa [State.goto] using hu)
    · have hu : s.pc u = .leave m r := by simpa [State.goto, hpc u h] using hu
      exact absurd (hp.alone ht (by rw [hu]; rfl)) h
  · by_cases h : u = t
    · subst h
      have hu : p = .blocked m c f rest x := by simpa [State.goto] using hu
      subst hu; cases hin
    · exact hp.resume u m c f rest x (by simpa [State.goto, hpc u h] using hu)

/-- A thread takes the free lock. -/
theorem Proved.acquire {s : State Tid μ ι σ l} (hp : Proved A F s) (ho : s.owner = none) {t : Tid}
    (ht : ∀ c, t ∉ s.waiting c) {m : μ} {rest : List (Stmt ι σ l)} {x : l}
    (hwp : wp A F t m rest x s.data s.waiting s.log) :
    Proved A F { s.goto t (.body m rest x) with owner := some t } := by
  have hpc : ∀ u, u ≠ t → Function.update s.pc t (.body m rest x) u = s.pc u :=
    fun u h => Function.update_of_ne h _ _
  refine ⟨fun u => ?_, fun c u hu => ?_, fun ho => (by cases ho), fun u m' rest' x' hu => ?_, fun u m' r hu => ?_,
    fun u m' c f rest' x' hu => ?_⟩
  · by_cases h : u = t
    · subst h; simp [State.goto, PC.inside]
    · simpa [State.goto, hpc u h, Ne.symm h] using hp.not_inside ho u
  · have h : u ≠ t := by rintro rfl; exact ht c hu
    obtain ⟨m', f, rest', x', hb⟩ := hp.waits c u hu
    exact ⟨m', f, rest', x', by simpa [State.goto, hpc u h] using hb⟩
  · by_cases h : u = t
    · subst h
      simp only [State.goto, Function.update_self, PC.body.injEq] at hu
      obtain ⟨rfl, rfl, rfl⟩ := hu
      exact hwp
    · have hu : s.pc u = .body m' rest' x' := by simpa [State.goto, hpc u h] using hu
      have := hp.not_inside ho u
      rw [hu] at this; cases this
  · by_cases h : u = t
    · subst h; simp [State.goto] at hu
    · have hu : s.pc u = .leave m' r := by simpa [State.goto, hpc u h] using hu
      have := hp.not_inside ho u
      rw [hu] at this; cases this
  · by_cases h : u = t
    · subst h; simp [State.goto] at hu
    · exact hp.resume u m' c f rest' x' (by simpa [State.goto, hpc u h] using hu)

/-- The thread that holds the lock gives it back, to wait or to return. -/
theorem Proved.release {s : State Tid μ ι σ l} (hp : Proved A F s) {t : Tid} (ht : (s.pc t).inside = true)
    {p : PC μ ι σ l} {w : Waiting Tid ι} {lg : Log Tid μ l} (hin : p.inside = false)
    (hw : ∀ c u, u ∈ w c → (u = t ∧ ∃ m f rest x, p = .blocked m c f rest x) ∨ u ∈ s.waiting c)
    (hF : F s.data w lg)
    (hres : ∀ m c f rest x, p = .blocked m c f rest x →
      ∀ d w lg, F d w lg → if f d x then F d (w.join c t) lg else wp A F t m rest x d w lg) :
    Proved A F { s.goto t p with owner := none, waiting := w, log := lg } := by
  have hpc : ∀ u, u ≠ t → Function.update s.pc t p u = s.pc u := fun u h => Function.update_of_ne h _ _
  have hout : ∀ u, (Function.update s.pc t p u).inside = false := by
    intro u
    by_cases h : u = t
    · subst h; simpa using hin
    · rw [hpc u h]
      cases hu : (s.pc u).inside with
      | false => rfl
      | true => exact absurd (hp.alone ht hu) h
  refine ⟨fun u => by simp [State.goto, hout u], fun c u hu => ?_, fun _ => hF, fun u m rest x hu => ?_,
    fun u m r hu => ?_, fun u m c f rest x hu => ?_⟩
  · rcases hw c u hu with ⟨rfl, m, f, rest, x, rfl⟩ | hu
    · exact ⟨m, f, rest, x, by simp [State.goto]⟩
    · obtain ⟨m, f, rest, x, hb⟩ := hp.waits c u hu
      have h : u ≠ t := by rintro rfl; rw [hb] at ht; cases ht
      exact ⟨m, f, rest, x, by simpa [State.goto, hpc u h] using hb⟩
  · have := hout u
    simp only [State.goto] at hu
    rw [hu] at this; cases this
  · have := hout u
    simp only [State.goto] at hu
    rw [hu] at this; cases this
  · by_cases h : u = t
    · subst h; exact hres m c f rest x (by simpa [State.goto] using hu)
    · exact hp.resume u m c f rest x (by simpa [State.goto, hpc u h] using hu)

/-- A call begins. -/
theorem Proved.call {s : State Tid μ ι σ l} (hp : Proved A F s) {t : Tid} (ht : s.pc t = .idle) (m : μ) :
    Proved A F (s.goto t (.enter m)) := by
  have hpc : ∀ u, u ≠ t → Function.update s.pc t (.enter m) u = s.pc u := fun u h => Function.update_of_ne h _ _
  have hold : ∀ u p, (s.goto t (.enter m)).pc u = p → p ≠ .enter m → s.pc u = p := by
    intro u p hu hne
    by_cases h : u = t
    · subst h; exact absurd (by simpa [State.goto] using hu.symm) hne
    · simpa [State.goto, hpc u h] using hu
  refine ⟨fun u => ?_, fun c u hu => ?_, hp.free, fun u m' rest x hu => hp.body u m' rest x (hold u _ hu (by simp)),
    fun u m' r hu => hp.leave u m' r (hold u _ hu (by simp)),
    fun u m' c f rest x hu => hp.resume u m' c f rest x (hold u _ hu (by simp))⟩
  · by_cases h : u = t
    · subst h; simpa [State.goto, ht, PC.inside] using hp.owner_iff u
    · simpa [State.goto, hpc u h] using hp.owner_iff u
  · obtain ⟨m', f, rest, x, hb⟩ := hp.waits c u hu
    have h : u ≠ t := by rintro rfl; rw [hb] at ht; cases ht
    exact ⟨m', f, rest, x, by simpa [State.goto, hpc u h] using hb⟩

/-- A waiter wakes. -/
theorem Proved.wake {s : State Tid μ ι σ l} (hv : Verified A F code) (hp : Proved A F s) (c : ι) (t : Tid) :
    Proved A F { s with waiting := s.waiting.wake c t } :=
  ⟨hp.owner_iff, fun d u hu => hp.waits d u (s.waiting.wake_le c t d hu),
    fun ho => hv.free_wake (s.waiting.wake_le c t) (hp.free ho),
    fun u m rest x hu => hv.wp_wake u m (s.waiting.wake_le c t) (hp.body u m rest x hu),
    fun u m r hu => hv.free_wake (s.waiting.wake_le c t) (hp.leave u m r hu), hp.resume⟩

/-- A move keeps what is proved. -/
theorem Proved.next {s s' : State Tid μ ι σ l} (hv : Verified A F code) (hp : Proved A F s) {a : Action Tid μ ι}
    (h : next code s a = some s') : Proved A F s' := by
  have inside : ∀ {t m rest x}, s.pc t = .body m rest x → (s.pc t).inside = true := fun ht => by rw [ht]; rfl
  cases next_cases h with
  | call ht => exact hp.call ht _
  | wake hc => exact hp.wake hv _ _
  | enter ht ho => exact hp.acquire ho (hp.not_waiting (by simp [ht])) (hv.body _ _ (hp.free ho))
  | resume ht hc ho =>
    refine hp.acquire ho (fun d hd => ?_) ⟨hp.free ho, hp.resume _ _ _ _ _ _ ht⟩
    obtain ⟨_, _, _, _, hb⟩ := hp.waits d _ hd
    rw [ht] at hb
    cases hb; exact hc hd
  | leave ht =>
    exact hp.release (by rw [ht]; rfl) rfl (fun _ _ hu => Or.inr hu) (hp.leave _ _ _ ht)
      (fun _ _ _ _ _ he => by cases he)
  | finish ht =>
    refine hp.hold (inside ht) le_rfl rfl (fun _ _ _ he => by cases he) (fun m' r' he => ?_)
    cases he; exact hp.body _ _ _ _ ht
  | @wait t _ m c f rest x ht hf =>
    have hwp := hp.body _ _ _ _ ht
    have hstep := hwp.2 _ _ _ hwp.1
    rw [if_pos hf] at hstep
    refine hp.release (inside ht) rfl (fun d u hu => ?_) hstep fun m' c' f' rest' x' he => ?_
    · rcases Waiting.mem_join hu with ⟨rfl, rfl⟩ | hu
      · exact Or.inl ⟨rfl, m, f, rest, x, rfl⟩
      · exact Or.inr hu
    · cases he; exact hwp.2
  | pass ht hf =>
    have hwp := hp.body _ _ _ _ ht
    have hstep := hwp.2 _ _ _ hwp.1
    rw [if_neg hf] at hstep
    refine hp.hold (inside ht) le_rfl rfl (fun m' rest' x' he => ?_) (fun _ _ he => by cases he)
    cases he; exact hstep
  | ret ht hf =>
    have hwp := (hp.body _ _ _ _ ht).2
    rw [if_pos hf] at hwp
    refine hp.hold (inside ht) le_rfl rfl (fun _ _ _ he => by cases he) (fun m' r' he => ?_)
    cases he; exact hwp
  | skip ht hf =>
    have hwp := (hp.body _ _ _ _ ht).2
    rw [if_neg hf] at hwp
    refine hp.hold (inside ht) le_rfl rfl (fun m' rest' x' he => ?_) (fun _ _ he => by cases he)
    cases he; exact hwp
  | notify ht =>
    refine hp.hold (inside ht) ?_ rfl (fun m' rest' x' he => ?_) (fun _ _ he => by cases he)
    · split
      · exact s.waiting.clear_le _
      · exact le_rfl
    · cases he; exact (hp.body _ _ _ _ ht).2
  | throw ht hm =>
    obtain ⟨_, hthrow, _⟩ := hp.body _ _ _ _ ht
    refine hp.hold (inside ht) le_rfl rfl (fun _ _ _ he => by cases he) (fun m' r' he => ?_)
    cases he; exact hthrow hm
  | act ht hg =>
    obtain ⟨_, _, d', x', hg', hwp⟩ := hp.body _ _ _ _ ht
    obtain ⟨rfl, rfl⟩ := Prod.mk.inj (Option.some.inj (hg.symm.trans hg'))
    refine hp.hold (inside ht) le_rfl rfl (fun m' rest' x' he => ?_) (fun _ _ he => by cases he)
    cases he; exact hwp

/-- **Soundness.** In a verified monitor whose data satisfies the resource invariant at the start, the assertion holds
in every reachable state and the resource invariant in those whose lock is free. -/
theorem Verified.sound (hv : Verified A F code) {d : σ} (h0 : F d (fun _ => ∅) [])
    {s : State Tid μ ι σ l} (h : (system code d).Reachable Anything s) : Proved A F s := by
  refine h.induct ⟨fun t => ?_, fun _ _ h => ?_, fun _ => h0, ?_, ?_, ?_⟩ fun _ _ _ _ _ hs hp => hp.next hv hs
  · simp [system, PC.inside]
  · simp [system] at h
  all_goals intros; simp_all [system]

theorem Proved.always {s : State Tid μ ι σ l} (hv : Verified A F code) (hp : Proved A F s) : A s.data s.waiting := by
  cases ho : s.owner with
  | none => exact hv.always (hp.free ho)
  | some t =>
    have hin := (hp.owner_iff t).mp ho
    cases ht : s.pc t with
    | body m rest x => exact hv.wp_always (hp.body t m rest x ht)
    | leave m r => exact hv.always (hp.leave t m r ht)
    | idle | enter | blocked => rw [ht] at hin; cases hin

/-- A move appends to the log what a call returns when it releases the lock, or leaves the log alone. -/
theorem next_log {s s' : State Tid μ ι σ l} {a : Action Tid μ ι} (h : next code s a = some s') :
    s'.log = s.log ∨ ∃ t m r, s.pc t = .leave m r ∧ s'.log = s.log ++ [(t, m, r)] := by
  cases next_cases h with
  | leave ht => exact Or.inr ⟨_, _, _, ht, rfl⟩
  | call | wake | enter | finish | wait | pass | ret | skip | notify | throw | act | resume => exact Or.inl rfl

/-- A thread is in a method from its call on. -/
theorem next_method {s s' : State Tid μ ι σ l} {a : Action Tid μ ι} (h : next code s a = some s') {t : Tid} {m : μ}
    (ht : (s'.pc t).method = some m) : (s.pc t).method = some m ∨ a = .call t m := by
  -- a move of the thread `u` inside its method, or out of it
  have key : ∀ {u p}, s'.pc = Function.update s.pc u p → (p.method = some m → (s.pc u).method = some m) →
      (s.pc t).method = some m := by
    intro u p h hp
    rw [h] at ht
    by_cases htu : t = u
    · subst htu; rw [Function.update_self] at ht; exact hp ht
    · rwa [Function.update_of_ne htu] at ht
  cases next_cases h with
  | @call u m' =>
    by_cases htu : t = u
    · subst htu
      simp only [State.goto, Function.update_self, PC.method, Option.some.injEq] at ht
      exact Or.inr (by rw [ht])
    · exact Or.inl (by simpa [State.goto, htu] using ht)
  | wake => exact Or.inl ht
  | leave => exact Or.inl (key rfl nofun)
  | enter hu | finish hu | wait hu | pass hu | ret hu | skip hu | notify hu | throw hu | act hu | resume hu =>
    exact Or.inl (key rfl (by rw [hu]; exact id))

/-- Every call in progress or in the log is one of the calls `P`. -/
structure Calls (P : μ → Prop) (s : State Tid μ ι σ l) : Prop where
  pc : ∀ t m, (s.pc t).method = some m → P m
  log : ∀ c ∈ s.log, P c.2.1

theorem Calls.next {P : μ → Prop} {s s' : State Tid μ ι σ l} {a : Action Tid μ ι} (hi : Calls P s)
    (h : next code s a = some s') (ha : ∀ t m, a = .call t m → P m) : Calls P s' := by
  refine ⟨fun t m ht => ?_, fun c hc => ?_⟩
  · rcases next_method h ht with ht | rfl
    · exact hi.pc t m ht
    · exact ha t m rfl
  · rcases next_log h with hlog | ⟨t, m, r, ht, hlog⟩
    · rw [hlog] at hc
      exact hi.log c hc
    · rw [hlog] at hc
      rcases List.mem_append.mp hc with hc | hc
      · exact hi.log c hc
      · rw [List.mem_singleton.mp hc]
        exact hi.pc t m (by rw [ht]; rfl)

/-- An exception leaves a method only at a step that throws. -/
theorem next_leave_none {s s' : State Tid μ ι σ l} {a : Action Tid μ ι} (h : next code s a = some s') {t : Tid} {m : μ}
    (ht : s'.pc t = .leave m none) : s.pc t = .leave m none ∨ a = .step t true := by
  -- a move of the thread `u` that does not leave it at such a point
  have key : ∀ {u p}, s'.pc = Function.update s.pc u p → p ≠ .leave m none → s.pc t = .leave m none := by
    intro u p h hp
    rw [h] at ht
    by_cases htu : t = u
    · subst htu; rw [Function.update_self] at ht; exact absurd ht hp
    · rwa [Function.update_of_ne htu] at ht
  cases next_cases h with
  | @throw u =>
    by_cases htu : t = u
    · exact Or.inr (by rw [htu])
    · exact Or.inl (by simpa [State.goto, htu] using ht)
  | wake => exact Or.inl ht
  | call | enter | finish | wait | pass | ret | skip | notify | act | resume | leave => exact Or.inl (key rfl nofun)

/-- Every call that has returned relates to those that had returned before it. -/
def Log.Each (P : Log Tid μ l → Tid × μ × Option l → Prop) (lg : Log Tid μ l) : Prop :=
  ∀ p c q, lg = p ++ c :: q → P p c

omit [DecidableEq Tid] in
theorem Log.Each.nil {P : Log Tid μ l → Tid × μ × Option l → Prop} : Log.Each P [] := by
  intro p c q h
  simp at h

omit [DecidableEq Tid] in
theorem Log.Each.mono {P Q : Log Tid μ l → Tid × μ × Option l → Prop} {lg : Log Tid μ l} (h : Log.Each P lg)
    (hPQ : ∀ p c, P p c → Q p c) : Log.Each Q lg := fun p c q he => hPQ p c (h p c q he)

omit [DecidableEq Tid] in
theorem Log.Each.append {P : Log Tid μ l → Tid × μ × Option l → Prop} {lg : Log Tid μ l} {c : Tid × μ × Option l}
    (h : Log.Each P lg) (hc : P lg c) : Log.Each P (lg ++ [c]) := by
  intro p b q he
  rcases List.eq_nil_or_concat q with rfl | ⟨q', c', rfl⟩
  · obtain ⟨rfl, hb⟩ := List.append_inj' he rfl
    obtain rfl := List.singleton_inj.mp hb
    exact hc
  · rw [List.concat_eq_append, ← List.cons_append, ← List.append_assoc] at he
    exact h p b q' (List.append_inj' he rfl).1

/-- What the resource invariant says of the log alone holds in every reachable state. -/
theorem Verified.logged (hv : Verified A F code) {P : Log Tid μ l → Prop} (hP : ∀ {d w lg}, F d w lg → P lg) {d : σ}
    (h0 : F d (fun _ => ∅) []) {s : State Tid μ ι σ l} (h : (system code d).Reachable Anything s) : P s.log := by
  refine h.induct (I := fun s => P s.log) (hP h0) fun s a s' hr _ hs hI => ?_
  rcases next_log hs with hl | ⟨t, m, r, ht, hl⟩
  · rwa [hl]
  · rw [hl]
    exact hP ((hv.sound h0 hr).leave t m r ht)

/-- The statements a call still has to execute. -/
def PC.stmts : PC μ ι σ l → Option (μ × List (Stmt ι σ l))
  | .body m rest _ => some (m, rest)
  | .blocked m c f rest _ => some (m, .waitWhile c f :: rest)
  | _ => none

/-- **What a call still has to execute is the end of its method's body.** -/
theorem suffix_body {d : σ} {s : State Tid μ ι σ l} (h : (system code d).Reachable Anything s) :
    ∀ t m stmts, (s.pc t).stmts = some (m, stmts) → stmts <:+ code.body m := by
  refine h.induct (I := fun s => ∀ t m stmts, (s.pc t).stmts = some (m, stmts) → stmts <:+ code.body m)
    (by simp [system, PC.stmts]) fun s a s' _ _ hs hI => ?_
  -- a move of the thread `t` to `p`, which keeps to its body
  have key : ∀ {t p}, s'.pc = Function.update s.pc t p →
      (∀ m stmts, p.stmts = some (m, stmts) → stmts <:+ code.body m) →
      ∀ u m stmts, (s'.pc u).stmts = some (m, stmts) → stmts <:+ code.body m := by
    intro t p hpc hp u m stmts hu
    rw [hpc] at hu
    by_cases h : u = t
    · subst h; rw [Function.update_self] at hu; exact hp m stmts hu
    · rw [Function.update_of_ne h] at hu; exact hI u m stmts hu
  -- its statements are behind the one that it has executed
  have behind : ∀ {t m st rest x}, s.pc t = .body m (st :: rest) x → rest <:+ code.body m :=
    fun ht => (List.suffix_cons _ _).trans (hI _ _ _ (by rw [ht]; rfl))
  cases next_cases hs with
  | wake => exact hI
  | call | finish | ret | throw | leave => exact key rfl (by simp [PC.stmts])
  | enter ht => exact key rfl (by simp [PC.stmts])
  | wait ht | resume ht =>
    refine key rfl ?_
    rintro _ _ ⟨⟩
    exact hI _ _ _ (by rw [ht]; rfl)
  | pass ht | skip ht | notify ht | act ht =>
    refine key rfl ?_
    rintro _ _ ⟨⟩
    exact behind ht

/-- A call that cannot take its next step, whether or not that step may throw. -/
def Stuck (code : Code μ ι σ l) (s : State Tid μ ι σ l) (t : Tid) : Prop :=
  ∀ throws, next code s (.step t throws) = none

/-- Whoever holds the lock can take its next step. -/
theorem Proved.holder_moves {s : State Tid μ ι σ l} (hp : Proved A F s) {t : Tid} (hin : (s.pc t).inside = true) :
    ∃ s', Monitor.next code s (.step t false) = some s' := by
  cases ht : s.pc t with
  | leave m r => exact ⟨_, by simp only [Monitor.next, ht]; rfl⟩
  | body m stmts x =>
    have hwp := hp.body t m stmts x ht
    cases stmts with
    | nil => exact ⟨_, by simp only [Monitor.next, ht]; rfl⟩
    | cons st rest =>
      cases st with
      | waitWhile c f => simp only [Monitor.next, ht, Monitor.exec]; split <;> exact ⟨_, rfl⟩
      | returnIf f r => exact ⟨_, by simp only [Monitor.next, ht, Monitor.exec]; rfl⟩
      | notifyAllIf c f => exact ⟨_, by simp only [Monitor.next, ht, Monitor.exec]; rfl⟩
      | act mayThrow g =>
        obtain ⟨_, _, d', x', hg, _⟩ := hwp
        exact ⟨_, by simp [Monitor.next, ht, Monitor.exec, hg]; rfl⟩
  | idle | enter | blocked => rw [ht] at hin; cases hin

/-- In a state in which no call can move, the lock is free and every call is blocked and not notified. -/
theorem Proved.stuck_waits {s : State Tid μ ι σ l} (hp : Proved A F s)
    (hstuck : ∀ t, s.pc t ≠ .idle → Stuck code s t) : s.owner = none ∧
    ∀ t, s.pc t ≠ .idle → ∃ m c f rest x, s.pc t = .blocked m c f rest x ∧ t ∈ s.waiting c := by
  have hfree : s.owner = none := by
    cases ho : s.owner with
    | none => rfl
    | some t =>
      have hin := (hp.owner_iff t).mp ho
      obtain ⟨s', hs⟩ : ∃ s', Monitor.next code s (.step t false) = some s' := hp.holder_moves hin
      have hst := hstuck t (by intro e; rw [e] at hin; cases hin) false
      rw [hs] at hst
      cases hst
  refine ⟨hfree, fun t ht => ?_⟩
  have hst := hstuck t ht false
  have hout := hp.not_inside hfree t
  cases hpc : s.pc t with
  | idle => exact absurd hpc ht
  | enter m => simp [Monitor.next, hpc, hfree] at hst
  | body | leave => rw [hpc] at hout; cases hout
  | blocked m c f rest x =>
    refine ⟨m, c, f, rest, x, rfl, ?_⟩
    simpa [Monitor.next, hpc, hfree] using hst

end Logic

end Concurrency.Monitor
