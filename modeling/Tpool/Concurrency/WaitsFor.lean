import Mathlib.Data.Fintype.Card
import Mathlib.Data.Set.Finite.Basic
import Mathlib.Data.Set.Insert
import Mathlib.Logic.Relation
import Tpool.Concurrency.Locks

/-!
# Operations that take several locks

- `Prog.Nested R h p`: a thread that holds the mutexes `h` and goes on with `p` unlocks only what it holds, ends with
  none, and locks `x` only under locks `y` with `R y x`.
- `Waits s t u`: the thread `t` waits for a mutex of `u`. `progress`: threads that never come to wait for themselves,
  through any number of others, do not deadlock. `cycle_stays`: those that do are stuck.
- `Nested.acyclic`: where locks are taken in a descending order, nobody waits for itself.
-/

namespace Concurrency.Locks

open Relation

variable {Tid V T o ρ : Type*}

/-- What is left of an operation of a thread that holds the mutexes `held`. A mutex that it holds already it never
gets. -/
def Prog.Nested (R : V → V → Prop) : Set V → Prog V T ρ → Prop
  | held, .ret _ => held = ∅
  | held, .lock x p => (∀ y ∈ held, R y x) ∧ (x ∉ held → p.Nested R (insert x held))
  | held, .unlock x p => x ∈ held ∧ p.Nested R (held \ {x})
  | held, .load _ p | held, .reload _ p => ∀ v, (p v).Nested R held
  | held, .store _ _ p => p.Nested R held

/-- A thread that holds the mutexes `held`. -/
def Thread.Nested (R : V → V → Prop) (held : Set V) : Thread V T o ρ → Prop
  | .between _ => held = ∅
  | .inside p _ => p.Nested R held

/-- The mutexes of a thread. -/
def State.held (s : State Tid V T o ρ) (t : Tid) : Set V := {x | s.owner x = some t}

/-- Every thread holds what its operation expects. -/
def Nested (R : V → V → Prop) (s : State Tid V T o ρ) : Prop := ∀ t, (s.thread t).Nested R (s.held t)

/-- The next step of the thread is to lock `x`. -/
def Thread.Wants (th : Thread V T o ρ) (x : V) : Prop := ∃ p k, th = .inside (.lock x p) k

/-- The program of the thread is over. -/
def Thread.isDone : Thread V T o ρ → Bool
  | .between .done => true
  | _ => false

theorem Thread.ne_done {th : Thread V T o ρ} (h : th.isDone = false) : th ≠ .between .done := by
  rintro rfl
  cases h

/-- The thread `t` waits for a mutex of `u`. -/
def Waits (s : State Tid V T o ρ) (t u : Tid) : Prop := ∃ x, (s.thread t).Wants x ∧ s.owner x = some u

section Nested

variable [DecidableEq Tid] {R : V → V → Prop} {body : o → Prog V T ρ} {s s' : State Tid V T o ρ} {t u : Tid}
  {init : V → T} {clients : Tid → Client o ρ}

/-- A move of the thread `t` that leaves the mutexes of the others alone. -/
theorem Nested.move (hi : Nested R s) {th : Thread V T o ρ} (hthread : s'.thread = Function.update s.thread t th)
    (hown : ∀ u, u ≠ t → s'.held u = s.held u) (ht : th.Nested R (s'.held t)) : Nested R s' := by
  intro u
  by_cases hut : u = t
  · subst hut
    rwa [hthread, Function.update_self]
  · rw [hthread, Function.update_of_ne hut, hown u hut]
    exact hi u

variable [DecidableEq V]

/-- A thread holds what it held when a mutex that was not its own gets another owner. -/
theorem held_update_of_ne {x : V} {w : Option Tid} {th : Thread V T o ρ} (hx : s.owner x ≠ some u) (hw : w ≠ some u) :
    ({ s.goto t th with owner := Function.update s.owner x w } : State Tid V T o ρ).held u = s.held u := by
  ext y
  by_cases hy : y = x
  · subst hy
    simp [State.held, hx, hw]
  · simp [State.held, hy]

theorem held_update_some {x : V} {th : Thread V T o ρ} :
    ({ s.goto t th with owner := Function.update s.owner x (some t) } : State Tid V T o ρ).held t =
      insert x (s.held t) := by
  ext y
  by_cases hy : y = x <;> simp [State.held, hy]

theorem held_update_none {x : V} {th : Thread V T o ρ} :
    ({ s.goto t th with owner := Function.update s.owner x none } : State Tid V T o ρ).held t = s.held t \ {x} := by
  ext y
  by_cases hy : y = x <;> simp [State.held, hy]

/-- What a step does to the mutexes: it locks a free one, unlocks one, or leaves them. -/
theorem next_owner (h : next body s t = some s') :
    s'.owner = s.owner ∨
    (∃ x p k, s.thread t = .inside (.lock x p) k ∧ s.owner x = none ∧ s'.owner = Function.update s.owner x (some t)) ∨
    ∃ x p k, s.thread t = .inside (.unlock x p) k ∧ s'.owner = Function.update s.owner x none := by
  cases next_cases h with
  | call op k hs | ret r k hs | load x p k hs | reload x p k hs | store x i p k hs => exact Or.inl rfl
  | lock x p k hs hfree => exact Or.inr (Or.inl ⟨x, p, k, hs, hfree, rfl⟩)
  | unlock x p k hs => exact Or.inr (Or.inr ⟨x, p, k, hs, rfl⟩)

/-- A step moves only its thread. -/
theorem next_thread (h : next body s t = some s') (hu : u ≠ t) : s'.thread u = s.thread u := by
  cases next_cases h <;> exact Function.update_of_ne hu _ _

theorem Nested.next (hbody : ∀ op, (body op).Nested R ∅) (hi : Nested R s) (h : next body s t = some s') :
    Nested R s' := by
  have hth := hi t
  cases next_cases h with
  | call op k hs =>
    rw [hs] at hth
    have hth : s.held t = ∅ := hth
    refine hi.move rfl (fun _ _ => rfl) ?_
    show (body op).Nested R (s.held t)
    rw [hth]
    exact hbody op
  | ret r k hs => rw [hs] at hth; exact hi.move rfl (fun _ _ => rfl) hth
  | load x p k hs | reload x p k hs => rw [hs] at hth; exact hi.move rfl (fun _ _ => rfl) (hth (s.data x))
  | store x i p k hs => rw [hs] at hth; exact hi.move rfl (fun _ _ => rfl) hth
  | lock x p k hs hfree =>
    rw [hs] at hth
    refine hi.move rfl (fun u hu => held_update_of_ne (by simp [hfree]) (by simpa using Ne.symm hu)) ?_
    rw [held_update_some]
    exact hth.2 (by simp [State.held, hfree])
  | unlock x p k hs =>
    rw [hs] at hth
    obtain ⟨hx, hp⟩ := hth
    have hx : s.owner x = some t := hx
    refine hi.move rfl (fun u hu => held_update_of_ne (by simpa [hx] using Ne.symm hu) nofun) ?_
    rw [held_update_none]
    exact hp

theorem Reachable.nested {ok : State Tid V T o ρ → Tid → Prop} (hbody : ∀ op, (body op).Nested R ∅)
    (h : (system body init clients).Reachable ok s) : Nested R s :=
  h.induct (fun t => by simp [system, Thread.Nested, State.held]) fun _ _ _ _ _ hs hi => hi.next hbody hs

end Nested

/-! ## Who waits for whom -/

section Waits

variable [DecidableEq Tid] [DecidableEq V] {R : V → V → Prop} {body : o → Prog V T ρ} {s s' : State Tid V T o ρ}
  {t u w : Tid} {init : V → T} {clients : Tid → Client o ρ}

omit [DecidableEq Tid] [DecidableEq V] in
theorem Thread.Wants.unique {th : Thread V T o ρ} {x y : V} (hx : th.Wants x) (hy : th.Wants y) : x = y := by
  obtain ⟨p, k, rfl⟩ := hx
  obtain ⟨p', k', h⟩ := hy
  cases h
  rfl

/-- Who waits cannot step. -/
theorem Waits.stops (h : Waits s t u) : next body s t = none := by
  obtain ⟨x, ⟨p, k, hp⟩, hx⟩ := h
  simp [Locks.next, hp, hx]

/-- Who is not done and cannot step waits. -/
theorem waits_of_stops (ht : s.thread t ≠ .between .done) (h : next body s t = none) : ∃ u, Waits s t u := by
  cases hs : s.thread t with
  | between c =>
    cases c with
    | done => exact absurd hs ht
    | call op k => simp [Locks.next, hs] at h
  | inside p k =>
    cases p with
    | ret r | load x p | reload x p | store x i p | unlock x p => simp [Locks.next, hs] at h
    | lock x p =>
      cases hx : s.owner x with
      | none => simp [Locks.next, hs, hx] at h
      | some u => exact ⟨u, x, ⟨p, k, hs⟩, hx⟩

omit [DecidableEq Tid] [DecidableEq V] in
/-- A thread locks a mutex only under those it may hold then. -/
theorem Nested.under (hi : Nested R s) {x y : V} (hx : (s.thread t).Wants x) (hy : s.owner y = some t) : R y x := by
  obtain ⟨p, k, hp⟩ := hx
  have ht := hi t
  rw [hp] at ht
  exact ht.1 y hy

omit [DecidableEq Tid] [DecidableEq V] in
/-- Whoever is waited for is not done. -/
theorem Nested.not_done (hi : Nested R s) (h : Waits s t u) : s.thread u ≠ .between .done := by
  obtain ⟨x, -, hx⟩ := h
  intro hdone
  have hu := hi u
  rw [hdone] at hu
  have hempty : s.held u = ∅ := hu
  have hmem : x ∈ s.held u := hx
  rw [hempty] at hmem
  exact hmem

/-- The thread comes to wait for itself, through any number of others. -/
def ClosesCycle (body : o → Prog V T ρ) (s : State Tid V T o ρ) (t : Tid) : Prop :=
  ∃ s', next body s t = some s' ∧ TransGen (Waits s') t t

/-- After a step of `t`, who waits for another one than `t` did so before, or waits through `t`. -/
theorem waits_before (h : next body s t = some s') (hv : TransGen (Waits s') u w) (hw : w ≠ t) :
    TransGen (Waits s) u w ∨ ReflTransGen (Waits s') u t ∧ TransGen (Waits s') t w := by
  have hedge : ∀ {a b}, Waits s' a b → a ≠ t → b ≠ t → Waits s a b := by
    rintro a b ⟨x, ⟨p, k, hp⟩, hx⟩ ha hb
    rw [next_thread h ha] at hp
    refine ⟨x, ⟨p, k, hp⟩, ?_⟩
    rcases next_owner h with ho | ⟨y, -, -, -, -, ho⟩ | ⟨y, -, -, -, ho⟩
    · rwa [ho] at hx
    · rw [ho] at hx
      by_cases hxy : x = y
      · subst hxy
        simp only [Function.update_self, Option.some.injEq] at hx
        exact absurd hx.symm hb
      · rwa [Function.update_of_ne hxy] at hx
    · rw [ho] at hx
      by_cases hxy : x = y
      · subst hxy
        simp at hx
      · rwa [Function.update_of_ne hxy] at hx
  induction hv with
  | @single b hab =>
    by_cases ha : u = t
    · subst ha
      exact Or.inr ⟨.refl, .single hab⟩
    · exact Or.inl (.single (hedge hab ha hw))
  | @tail b c hab hbc ih =>
    by_cases hb : b = t
    · subst hb
      exact Or.inr ⟨hab.to_reflTransGen, .single hbc⟩
    · rcases ih hb with hold | ⟨hut, htb⟩
      · exact Or.inl (hold.tail (hedge hbc hb hw))
      · exact Or.inr ⟨hut, htb.tail hbc⟩

/-- Nobody waits for itself as long as no step closes a cycle. -/
theorem Reachable.acyclic (h : (system body init clients).Reachable (fun s t => ¬ ClosesCycle body s t) s) :
    ∀ u, ¬ TransGen (Waits s) u u := by
  refine h.induct (I := fun s => ∀ u, ¬ TransGen (Waits s) u u) ?_ ?_
  · intro u hu
    obtain ⟨w, ⟨x, -, hx⟩, -⟩ := TransGen.head'_iff.mp hu
    cases hx
  · intro s t s' _ hok hs hi u hu
    by_cases hut : u = t
    · subst hut
      exact hok ⟨s', hs, hu⟩
    · rcases waits_before hs hu hut with hold | ⟨hto, hfrom⟩
      · exact hi u hold
      · exact hok ⟨s', hs, hfrom.trans_left hto⟩

/-- Finitely many mutexes are held. -/
theorem Reachable.finite {ok : State Tid V T o ρ → Tid → Prop} (h : (system body init clients).Reachable ok s) :
    {x | ∃ t, s.owner x = some t}.Finite := by
  refine h.induct (I := fun s => {x | ∃ t, s.owner x = some t}.Finite) (by simp [system]) fun s t s' _ _ hs hi => ?_
  rcases next_owner hs with ho | ⟨x, -, -, -, -, ho⟩ | ⟨x, -, -, -, ho⟩
  · rwa [ho]
  · refine (hi.insert x).subset fun y hy => ?_
    obtain ⟨u, hu⟩ := hy
    by_cases hyx : y = x
    · exact Or.inl hyx
    · rw [ho, Function.update_of_ne hyx] at hu
      exact Or.inr ⟨u, hu⟩
  · refine hi.subset fun y hy => ?_
    obtain ⟨u, hu⟩ := hy
    by_cases hyx : y = x
    · rw [ho, hyx, Function.update_self] at hu
      cases hu
    · rw [ho, Function.update_of_ne hyx] at hu
      exact ⟨u, hu⟩

/-- Where finitely many mutexes are held and everybody who is not done waits, somebody waits for itself. -/
theorem Nested.exists_cycle (hi : Nested R s) (hfin : {x | ∃ t, s.owner x = some t}.Finite)
    (ht : s.thread t ≠ .between .done)
    (hstop : ∀ u, s.thread u ≠ .between .done → Locks.next body s u = none) : ∃ u, TransGen (Waits s) u u := by
  by_contra hno
  let owners : Set Tid := {u | ∃ x, s.owner x = some u}
  have howners : owners.Finite := by
    refine ((hfin.image s.owner).preimage (Option.some_injective Tid).injOn).subset ?_
    rintro u ⟨x, hx⟩
    exact ⟨x, ⟨u, hx⟩, hx⟩
  have hfinite : Finite owners := howners.to_subtype
  -- who is waited for waits for another owner
  have hnext : ∀ {a b}, Waits s a b → ∃ c, Waits s b c := fun hab =>
    waits_of_stops (hi.not_done hab) (hstop _ (hi.not_done hab))
  let after : owners → owners → Prop := fun a b => TransGen (Waits s) b.1 a.1
  have htrans : IsTrans owners after := ⟨fun a b c hab hbc => hbc.trans hab⟩
  have hirrefl : Std.Irrefl after := ⟨fun a ha => hno ⟨a.1, ha⟩⟩
  have hwf : WellFounded after := Finite.wellFounded_of_trans_of_irrefl after
  have hlast : ∀ a : owners, (∃ b, Waits s b a.1) → False := by
    intro a
    induction a using hwf.induction with
    | h a ih =>
      rintro ⟨b, hb⟩
      obtain ⟨c, hc⟩ := hnext hb
      obtain ⟨x, -, hx⟩ := id hc
      exact ih ⟨c, x, hx⟩ (.single hc) ⟨a.1, hc⟩
  obtain ⟨u, hu⟩ := waits_of_stops ht (hstop t ht)
  obtain ⟨x, -, hx⟩ := id hu
  exact hlast ⟨u, x, hx⟩ ⟨t, hu⟩

/-- **No deadlock without a cycle**: where nobody waits for itself, some thread that is not done can step. -/
theorem progress {ok : State Tid V T o ρ → Tid → Prop} (hbody : ∀ op, (body op).Nested R ∅)
    (h : (system body init clients).Reachable ok s) (hacyclic : ∀ u, ¬ TransGen (Waits s) u u)
    (ht : s.thread t ≠ .between .done) : ∃ u, s.thread u ≠ .between .done ∧ ∃ s', next body s u = some s' := by
  by_contra hno
  have hnested : Nested R s := Reachable.nested hbody h
  obtain ⟨u, hu⟩ := Nested.exists_cycle hnested (Reachable.finite h) ht fun u hu => by
    by_contra hs
    obtain ⟨s', hs⟩ := Option.ne_none_iff_exists'.mp hs
    exact hno ⟨u, hu, s', hs⟩
  exact hacyclic u hu

/-! ## A cycle stays -/

/-- Each of these threads waits for another one of them. -/
def Stuck (s : State Tid V T o ρ) (c : Set Tid) : Prop := ∀ u ∈ c, ∃ w ∈ c, Waits s u w

theorem Stuck.next {c : Set Tid} (hc : Stuck s c) (hi : Nested R s) (h : next body s t = some s') : Stuck s' c := by
  intro u hu
  obtain ⟨w, hw, hwaits⟩ := hc u hu
  have hut : u ≠ t := by
    rintro rfl
    rw [hwaits.stops] at h
    cases h
  have hwt : w ≠ t := by
    rintro rfl
    obtain ⟨v, -, hv⟩ := hc w hw
    rw [hv.stops] at h
    cases h
  obtain ⟨x, hwant, hx⟩ := hwaits
  refine ⟨w, hw, x, ?_, ?_⟩
  · rwa [next_thread h hut]
  · rcases next_owner h with ho | ⟨y, -, -, -, hfree, ho⟩ | ⟨y, p, k, hunlock, ho⟩
    · rw [ho, hx]
    · rw [ho, Function.update_of_ne ?_, hx]
      rintro rfl
      rw [hx] at hfree
      cases hfree
    · have hown : s.owner y = some t := by
        have ht := hi t
        rw [hunlock] at ht
        exact ht.1
      rw [ho, Function.update_of_ne ?_, hx]
      rintro rfl
      rw [hx] at hown
      exact hwt (Option.some.inj hown)

/-- **Who waits for itself never steps again.** -/
theorem cycle_stays (hbody : ∀ op, (body op).Nested R ∅) (hi : Nested R s) (ht : TransGen (Waits s) t t)
    (h : (system body init clients).Reaches Anything s s') : next body s' t = none ∧ s'.thread t ≠ .between .done := by
  let cycle : Set Tid := {u | TransGen (Waits s) t u ∧ ReflTransGen (Waits s) u t}
  have hstuck : Stuck s cycle := by
    rintro u ⟨htu, hut⟩
    obtain ⟨w, huw, hwt⟩ := TransGen.head'_iff.mp (TransGen.trans_right hut ht)
    exact ⟨w, ⟨htu.tail huw, hwt⟩, huw⟩
  have hkeep : Nested R s' ∧ Stuck s' cycle :=
    h.keeps (I := fun s => Nested R s ∧ Stuck s cycle) (fun s a s' _ hs hi => ⟨hi.1.next hbody hs, hi.2.next hi.1 hs⟩)
      ⟨hi, hstuck⟩
  obtain ⟨w, -, hw⟩ := hkeep.2 t ⟨ht, .refl⟩
  refine ⟨hw.stops, fun hdone => ?_⟩
  obtain ⟨x, ⟨p, k, hp⟩, -⟩ := hw
  rw [hdone] at hp
  cases hp

/-! ## Locks in descending order -/

omit [DecidableEq Tid] [DecidableEq V] in
/-- Where locks are taken in a descending order, nobody waits for itself. -/
theorem Nested.acyclic {r : V → ℕ} (hr : ∀ y x, R y x → r x < r y) (hi : Nested R s) : ¬ TransGen (Waits s) t t := by
  have hless : ∀ {a b : Tid}, TransGen (Waits s) a b → ∀ {x y}, (s.thread a).Wants x → (s.thread b).Wants y →
      r y < r x := by
    intro a b hab
    have hedge : ∀ {a b : Tid} {x y}, Waits s a b → (s.thread a).Wants x → (s.thread b).Wants y → r y < r x := by
      rintro a b x y ⟨x', hx', hb⟩ hx hy
      obtain rfl := hx.unique hx'
      exact hr x y (hi.under hy hb)
    induction hab with
    | single h => exact fun hx hy => hedge h hx hy
    | tail hac hcb ih =>
      intro x y hx hy
      obtain ⟨z, hz, -⟩ := id hcb
      exact (hedge hcb hz hy).trans (ih hx hz)
  intro ht
  obtain ⟨u, ⟨x, hx, -⟩, -⟩ := TransGen.head'_iff.mp ht
  exact absurd (hless ht hx hx) (lt_irrefl _)

end Waits

end Concurrency.Locks
