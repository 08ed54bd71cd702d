import Mathlib.SetTheory.Ordinal.Family
import Tpool.Concurrency.Fair
import Tpool.Concurrency.WaitsFor

/-!
# Operations that take one lock at a time come to their end

In a fair run every thread that can make a step again and again makes one again and again.

- `Prog.depth`: how deep the code of an operation is. Every step of a thread in an operation lowers it (`next_depth`).
- `Bracketed.often_free`: every mutex is free again and again.
- `operation_ends`, `program_ends`: so every operation ends, and every program.
- `exists_run_done`: a finite run at whose end every program has ended is a fair infinite one.
-/

universe u

namespace Concurrency.Locks

variable {Tid V o ρ : Type*} {T : Type u}

/-- The depth of the code, over whatever is read. -/
noncomputable def Prog.depth : Prog V T ρ → Ordinal.{u}
  | .ret _ => 0
  | .lock _ p | .unlock _ p | .store _ _ p => p.depth + 1
  | .load _ p | .reload _ p => ⨆ v, (p v).depth + 1

/-- Between two operations there is none. -/
noncomputable def Thread.depth : Thread V T o ρ → Ordinal.{u}
  | .between _ => 0
  | .inside p _ => p.depth

/-- Its program has ended. -/
def Thread.over : Thread V T o ρ → Bool
  | .between .done => true
  | .between (.call _ _) | .inside _ _ => false

theorem Thread.eq_of_over {th : Thread V T o ρ} (h : th.over = true) : th = .between .done := by
  unfold Thread.over at h
  split at h
  · rfl
  · cases h
  · cases h

section Step

variable [DecidableEq Tid] [DecidableEq V] {body : o → Prog V T ρ} {s s' : State Tid V T o ρ} {t u : Tid}

/-- A step in an operation lowers its depth, or is the last one. -/
theorem next_depth (h : next body s t = some s') {p : Prog V T ρ} {k : ρ → Client o ρ} (ht : s.thread t = .inside p k) :
    (∃ p', s'.thread t = .inside p' k ∧ p'.depth < p.depth) ∨ ∃ r, s'.thread t = .between (k r) := by
  cases next_cases h with
  | call op k' hs => rw [hs] at ht; cases ht
  | ret r k' hs =>
    rw [hs] at ht
    cases ht
    exact Or.inr ⟨r, Function.update_self ..⟩
  | lock x p' k' hs | unlock x p' k' hs | store x i p' k' hs =>
    rw [hs] at ht
    cases ht
    exact Or.inl ⟨p', Function.update_self .., by simp [Prog.depth]⟩
  | load x p' k' hs | reload x p' k' hs =>
    rw [hs] at ht
    cases ht
    exact Or.inl ⟨p' (s.data x), Function.update_self .., Ordinal.lt_iSup_add_one _ _⟩

/-- A thread that stays in operations comes closer to the end with every step of its own. -/
theorem next_lowers {a : Tid} (h : next body s a = some s') (hs : ∃ p k, s.thread t = .inside p k)
    (hs' : ∃ p k, s'.thread t = .inside p k) :
    (s'.thread t).depth ≤ (s.thread t).depth ∧ (some a = some t → (s'.thread t).depth < (s.thread t).depth) := by
  by_cases hat : a = t
  · subst hat
    obtain ⟨p, k, hp⟩ := hs
    obtain ⟨p', k', hp'⟩ := hs'
    rcases next_depth h hp with ⟨q, hq, hlt⟩ | ⟨_, hq⟩
    · have hless : (s'.thread a).depth < (s.thread a).depth := by
        rw [hp, hq]
        exact hlt
      exact ⟨hless.le, fun _ => hless⟩
    · rw [hq] at hp'
      cases hp'
  · exact ⟨by rw [next_thread h (Ne.symm hat)], fun heq => absurd (Option.some.inj heq) hat⟩

/-- A call begins the operation. -/
theorem next_call {op : o} {k : ρ → Client o ρ} (h : next body s t = some s')
    (ht : s.thread t = .between (.call op k)) :
    s'.thread t = .inside (body op) k := by
  simp only [next, ht, Option.some.injEq] at h
  subst h
  exact Function.update_self ..

/-- A mutex is given back before another takes it. -/
theorem next_holder (h : next body s t = some s') {x : V} (hx : s.owner x = some u) :
    s'.owner x = some u ∨ s'.owner x = none := by
  rcases next_owner h with ho | ⟨y, p, k, -, hfree, ho⟩ | ⟨y, p, k, -, ho⟩
  · exact Or.inl (by rw [ho, hx])
  · have hne : x ≠ y := by
      rintro rfl
      rw [hx] at hfree
      cases hfree
    exact Or.inl (by rw [ho, Function.update_of_ne hne, hx])
  · by_cases hxy : x = y
    · subst hxy
      exact Or.inr (by rw [ho, Function.update_self])
    · exact Or.inl (by rw [ho, Function.update_of_ne hxy, hx])

end Step

section Runs

variable [DecidableEq Tid] [DecidableEq V] {body : o → Prog V T ρ} {init : V → T} {clients : Tid → Client o ρ}
  {r : (system body init clients).Run Anything} {t : Tid} {k : ℕ}

omit [DecidableEq Tid] [DecidableEq V] in
/-- Who holds a mutex is in an operation. -/
theorem Bracketed.inside {s : State Tid V T o ρ} (hi : Bracketed s) {x : V} (hx : s.owner x = some t) :
    ∃ p next, s.thread t = .inside p next := by
  obtain ⟨held, howner, hth⟩ := hi t
  obtain rfl := (howner x).mp hx
  cases hs : s.thread t with
  | between c => rw [hs] at hth; cases hth
  | inside p next => exact ⟨p, next, rfl⟩

/-- **Every mutex is free again and again.** -/
theorem often_free (hbody : ∀ op, (body op).OneLock none) (hf : r.Fair some) (x : V) : r.Often fun s =>
    s.owner x = none := by
  have howned : ¬ r.Finally fun s => ∃ u, s.owner x = some u := fun howned => by
    obtain ⟨u, hu⟩ := howned.choose fun u s a s' _ _ hs h hsome => by
      obtain ⟨w, hw⟩ := hsome
      exact (next_holder hs h).resolve_right fun hfree => by rw [hw] at hfree; cases hfree
    -- the owner comes to its end, since nothing stops it
    have hdone := hf.settles u (fun s => (s.thread u).depth) hu fun s a s' hr _ hs h h' =>
      next_lowers hs ((Reachable.bracketed hbody hr).inside h)
        ((Reachable.bracketed hbody (hr.step trivial hs)).inside h')
    obtain ⟨j, -, ho, hstuck⟩ := (hu.and hdone).exists 0
    obtain ⟨s', hs⟩ : ∃ s', Locks.next body (r.state j) u = some s' :=
      ((Reachable.bracketed hbody (r.reachable j)).holder_steps ho).2
    exact hstuck ⟨u, s', rfl, trivial, hs⟩
  refine Filter.Frequently.mono (System.Run.often_not howned) fun j hj => ?_
  by_contra hne
  exact hj (Option.ne_none_iff_exists'.mp hne)

/-- **Every operation ends.** -/
theorem operation_ends (hbody : ∀ op, (body op).OneLock none) (hf : r.Fair some) {p : Prog V T ρ}
    {next : ρ → Client o ρ}
    (hp : (r.state k).thread t = .inside p next) : ∃ j ≥ k, ∃ x, (r.state j).thread t = .between (next x) := by
  by_contra hno
  have hin : r.Finally fun s => ∃ q, s.thread t = .inside q next := by
    refine Filter.eventually_atTop.mpr ⟨k, fun j hj => ?_⟩
    refine System.Run.stays (J := fun s : State Tid V T o ρ => ∃ q, s.thread t = .inside q next)
      (I := fun s : State Tid V T o ρ => ∀ x, s.thread t ≠ .between (next x)) ⟨p, hp⟩
      (fun i hi x hx => hno ⟨i, hi, x, hx⟩) ?_ hj
    rintro s a s' - - hs ⟨q, hq⟩ hne
    by_cases hat : a = t
    · subst hat
      rcases next_depth hs hq with ⟨q', hq', -⟩ | ⟨x, hx⟩
      · exact ⟨q', hq'⟩
      · exact absurd hx (hne x)
    · exact ⟨q, (next_thread hs (Ne.symm hat)).trans hq⟩
  have hdone := hf.settles t (fun s => (s.thread t).depth) hin fun s a s' _ _ hs h h' =>
    next_lowers hs (h.imp fun _ hq => ⟨next, hq⟩) (h'.imp fun _ hq => ⟨next, hq⟩)
  obtain ⟨K, hK⟩ := Filter.eventually_atTop.mp (hin.and hdone)
  obtain ⟨⟨q, hq⟩, hstuck⟩ := hK K le_rfl
  -- from here on it is where it is, before a mutex
  have hsame : r.Finally fun s => s.thread t = .inside q next := by
    refine Filter.eventually_atTop.mpr ⟨K, fun j hj => (System.Run.stays
      (J := fun s : State Tid V T o ρ => s.thread t = .inside q next ∧
        ¬ (system body init clients).Enabled Anything some t s)
      (I := fun s => ¬ (system body init clients).Enabled Anything some t s) ⟨hq, hstuck⟩ (fun i hi => (hK i hi).2) ?_
      hj).1⟩
    rintro s a s' - - hs ⟨hat, hstill⟩ hstill'
    have hne : t ≠ a := by
      rintro rfl
      exact hstill ⟨t, s', rfl, trivial, hs⟩
    exact ⟨(next_thread hs hne).trans hat, hstill'⟩
  have goes : ∀ {s : State Tid V T o ρ}, (∃ s', Locks.next body s t = some s') →
      (system body init clients).Enabled Anything some t s := fun ⟨s', hs⟩ => ⟨t, s', rfl, trivial, hs⟩
  cases q with
  | ret x | unlock x q | load x q | reload x q | store x i q => exact hstuck (goes (by simp [Locks.next, hq]))
  | lock x q =>
    obtain ⟨j, hfree, hat, hstill⟩ := (often_free hbody hf x).with (hsame.and hdone)
    exact hstill (goes (by simp [Locks.next, hat, hfree]))

/-- **Every program ends.** -/
theorem program_ends (hbody : ∀ op, (body op).OneLock none) (hf : r.Fair some) (t : Tid) :
    r.Finally fun s => s.thread t = .between .done := by
  have ends : ∀ (c : Client o ρ) (k : ℕ), (r.state k).thread t = .between c → ∃ j, (r.state j).thread t = .between
      .done := by
    intro c
    induction c with
    | done => exact fun k hk => ⟨k, hk⟩
    | call op next ih =>
      intro k hk
      -- it begins the operation, which ends
      obtain ⟨j, hj⟩ : ∃ j, (r.state j).thread t = .inside (body op) next := by
        by_contra hno
        have hwaits : r.Finally fun s => s.thread t = .between (.call op next) :=
          Filter.eventually_atTop.mpr ⟨k, fun j hj => System.Run.stays
            (J := fun s : State Tid V T o ρ => s.thread t = .between (.call op next))
            (I := fun s : State Tid V T o ρ => s.thread t ≠ .inside (body op) next) hk (fun i _ h => hno ⟨i, h⟩)
            (fun s a s' _ _ hs hat hne => by
              by_cases hta : t = a
              · subst hta
                exact absurd (next_call hs hat) hne
              · exact (next_thread hs hta).trans hat) hj⟩
        have hdone := hf.settles t (fun _ => (0 : ℕ)) hwaits fun s a s' _ _ hs h h' =>
          ⟨le_rfl, fun hat => by
            cases hat
            rw [next_call hs h] at h'
            cases h'⟩
        obtain ⟨j, -, hat, hstuck⟩ := (hwaits.and hdone).exists 0
        exact hstuck ⟨t, _, rfl, trivial, by simp [system, Locks.next, hat]; rfl⟩
      obtain ⟨i, -, x, hx⟩ := operation_ends hbody hf hj
      exact ih x i hx
  obtain ⟨j, hj⟩ := ends (clients t) 0 (by rw [r.init]; rfl)
  refine System.Run.finally_of (k := j) (fun s a s' _ _ hs hdone => ?_) hj
  have hne : t ≠ a := by
    rintro rfl
    simp [system, Locks.next, hdone] at hs
  exact (next_thread hs hne).trans hdone

/-- A finite run in which every program ends is a fair infinite one. -/
theorem exists_run_done [Fintype Tid] (body : o → Prog V T ρ) (init : V → T) (clients : Tid → Client o ρ)
    (as : List Tid)
    (h : ((system body init clients).exec Anything (system body init clients).init as).any
      (fun s => decide (∀ t, (s.thread t).over = true)) = true) :
    ∃ r : (system body init clients).Run Anything, r.Fair some ∧
      ∀ k, (system body init clients).exec Anything (system body init clients).init (as.take k) = some (r.state k) := by
  obtain ⟨s, hs, hover⟩ := (Option.any_eq_true ..).mp h
  refine System.exists_run hs fun t => ?_
  rintro ⟨a, s', hat, -, hs'⟩
  obtain rfl := Option.some.inj hat
  have hdone : s.thread a = .between .done := Thread.eq_of_over (of_decide_eq_true hover a)
  simp [system, Locks.next, hdone] at hs'

end Runs

end Concurrency.Locks
