import Tpool.Concurrency.Locks

/-!
# Operations as atomic accesses

- `Act`: an operation that accesses one variable after the other; an access reads the value and leaves one, and what it
  has read decides how the operation goes on. `nextAct`: one step of a thread, in which an access is one step.
- `Prog.Does p none a`: the code `p` does what `a` says, each access between a lock and its unlock, where it reads and
  writes nothing but the variable that is locked.
- `Shows`: the steps of the code show an access when it unlocks; as long as a variable is locked, what it is to hold is
  seen by the owner alone.
- `shown`: a run of the code is one of the accesses.
-/

namespace Concurrency.Locks

variable {Tid V T o ρ : Type*}

/-! ## Accesses -/

/-- An operation: an access of `x` that finds `v` leaves `write v`, and the operation goes on with `next v`. -/
inductive Act (V T ρ : Type*)
  | ret (r : ρ)
  | access (x : V) (write : T → T) (next : T → Act V T ρ)

/-- Where a thread is: between two operations of its program, or in one of them. -/
inductive Caller (V T o ρ : Type*)
  | between (c : Client o ρ)
  | inside (a : Act V T ρ) (next : ρ → Client o ρ)

/-- The variables and the threads. -/
structure Memory (Tid V T o ρ : Type*) where
  data : V → T
  thread : Tid → Caller V T o ρ
  called : List o

section Step

variable [DecidableEq Tid] [DecidableEq V]

def Memory.goto (m : Memory Tid V T o ρ) (t : Tid) (th : Caller V T o ρ) : Memory Tid V T o ρ :=
  { m with thread := Function.update m.thread t th }

/-- One step of the thread `t`. -/
def nextAct (spec : o → Act V T ρ) (m : Memory Tid V T o ρ) (t : Tid) : Option (Memory Tid V T o ρ) :=
  match m.thread t with
  | .between .done => none
  | .between (.call op k) => some { m.goto t (.inside (spec op) k) with called := m.called ++ [op] }
  | .inside (.ret r) k => some (m.goto t (.between (k r)))
  | .inside (.access x write next) k =>
    some { m.goto t (.inside (next (m.data x)) k) with data := Function.update m.data x (write (m.data x)) }

/-- The threads run `clients` on variables with the values `init`. -/
def accesses (spec : o → Act V T ρ) (init : V → T) (clients : Tid → Client o ρ) : System (Memory Tid V T o ρ) Tid :=
  ⟨⟨init, fun t => .between (clients t), []⟩, nextAct spec⟩

end Step

/-! ## What code does -/

/-- An access that has begun: the variable, its value now, and the one to be left. -/
structure Access (V T : Type*) where
  var : V
  now : T
  after : T

/-- What is left of the code, in an access or outside, does what is left of the operation. -/
def Prog.Does : Option (Access V T) → Prog V T ρ → Act V T ρ → Prop
  | none, .ret r, a => a = .ret r
  | none, .lock x p, a => ∃ write next, a = .access x write next ∧ ∀ v, p.Does (some ⟨x, v, write v⟩) (next v)
  | some h, .unlock x p, a => h.var = x ∧ h.after = h.now ∧ p.Does none a
  | some h, .load x p, a => h.var = x ∧ (p h.now).Does (some h) a
  | some h, .store x i p, a => h.var = x ∧ p.Does (some { h with now := i }) a
  | _, _, _ => False

/-! ## The code shows the accesses -/

/-- What a thread shows: it is between the same operations, or outside of an access with the same to do, or in an access
that is shown when it ends. -/
inductive ShowsThread (s : State Tid V T o ρ) (m : Memory Tid V T o ρ) (t : Tid) : Prop
  | between {c : Client o ρ} (hs : s.thread t = .between c) (hm : m.thread t = .between c)
    (hout : ∀ x, s.owner x ≠ some t)
  | outside {p : Prog V T ρ} {a : Act V T ρ} {k : ρ → Client o ρ} (hs : s.thread t = .inside p k)
    (hm : m.thread t = .inside a k) (hdoes : p.Does none a) (hout : ∀ x, s.owner x ≠ some t)
  | within {x : V} {p : Prog V T ρ} {write : T → T} {next : T → Act V T ρ} {k : ρ → Client o ρ}
    (hs : s.thread t = .inside p k) (hm : m.thread t = .inside (.access x write next) k)
    (hdoes : p.Does (some ⟨x, s.data x, write (m.data x)⟩) (next (m.data x))) (hown : ∀ y, s.owner y = some t ↔ y = x)

/-- What a state of the code shows. -/
structure Shows (s : State Tid V T o ρ) (m : Memory Tid V T o ρ) : Prop where
  called : m.called = s.called
  data : ∀ x, s.owner x = none → m.data x = s.data x
  thread : ∀ t, ShowsThread s m t

section Shows

variable {s s' : State Tid V T o ρ} {m m' : Memory Tid V T o ρ} {t u : Tid} {body : o → Prog V T ρ}
  {spec : o → Act V T ρ}

/-- What another thread shows does not change. -/
theorem ShowsThread.frame (h : ShowsThread s m u) (hs : s'.thread u = s.thread u) (hm : m'.thread u = m.thread u)
    (hown : ∀ x, s'.owner x = some u ↔ s.owner x = some u)
    (hdata : ∀ x, s.owner x = some u → s'.data x = s.data x ∧ m'.data x = m.data x) : ShowsThread s' m' u := by
  have out : (∀ x, s.owner x ≠ some u) → ∀ x, s'.owner x ≠ some u := fun h x hx => h x ((hown x).mp hx)
  cases h with
  | between h1 h2 hout => exact .between (hs.trans h1) (hm.trans h2) (out hout)
  | outside h1 h2 hdoes hout => exact .outside (hs.trans h1) (hm.trans h2) hdoes (out hout)
  | @within x p write next k h1 h2 hdoes hx =>
    obtain ⟨hd, hd'⟩ := hdata x ((hx x).mpr rfl)
    exact .within (hs.trans h1) (hm.trans h2) (by rw [hd, hd']; exact hdoes) fun y => (hown y).trans (hx y)

theorem ShowsThread.of_between (h : ShowsThread s m t) {c : Client o ρ} (hs : s.thread t = .between c) :
    m.thread t = .between c ∧ ∀ x, s.owner x ≠ some t := by
  cases h with
  | between hs' hm hout =>
    cases hs'.symm.trans hs
    exact ⟨hm, hout⟩
  | outside hs' | within hs' => cases hs'.symm.trans hs

/-- What comes next is not in an access. -/
theorem ShowsThread.of_outside (h : ShowsThread s m t) {p : Prog V T ρ} {k : ρ → Client o ρ}
    (hs : s.thread t = .inside p k) (hp : ∀ acc a, ¬ p.Does (some acc) a) :
    ∃ a, m.thread t = .inside a k ∧ p.Does none a ∧ ∀ x, s.owner x ≠ some t := by
  cases h with
  | between hs' => cases hs'.symm.trans hs
  | outside hs' hm hdoes hout =>
    cases hs'.symm.trans hs
    exact ⟨_, hm, hdoes, hout⟩
  | within hs' hm hdoes =>
    cases hs'.symm.trans hs
    exact absurd hdoes (hp _ _)

/-- What comes next is in an access. -/
theorem ShowsThread.of_within (h : ShowsThread s m t) {p : Prog V T ρ} {k : ρ → Client o ρ}
    (hs : s.thread t = .inside p k) (hp : ∀ a, ¬ p.Does none a) :
    ∃ x write next, m.thread t = .inside (.access x write next) k ∧
      p.Does (some ⟨x, s.data x, write (m.data x)⟩) (next (m.data x)) ∧ ∀ y, s.owner y = some t ↔ y = x := by
  cases h with
  | between hs' => cases hs'.symm.trans hs
  | outside hs' hm hdoes =>
    cases hs'.symm.trans hs
    exact absurd hdoes (hp _)
  | within hs' hm hdoes hown =>
    cases hs'.symm.trans hs
    exact ⟨_, _, _, hm, hdoes, hown⟩

theorem ne_of_owner {x y : V} (hx : s.owner x = some t) (hy : s.owner y = some u) (hu : u ≠ t) : y ≠ x := by
  rintro rfl
  exact hu (Option.some.inj (hy.symm.trans hx))

/-- A move of the thread `t`, which leaves alone what the others have locked. -/
theorem Shows.move [DecidableEq Tid] (hi : Shows s m) {th : Thread V T o ρ} {th' : Caller V T o ρ}
    (hs : s'.thread = Function.update s.thread t th) (hm : m'.thread = Function.update m.thread t th')
    (hown : ∀ u, u ≠ t → ∀ x, s'.owner x = some u ↔ s.owner x = some u)
    (hdata : ∀ u, u ≠ t → ∀ x, s.owner x = some u → s'.data x = s.data x ∧ m'.data x = m.data x)
    (hcalled : m'.called = s'.called) (hfree : ∀ x, s'.owner x = none → m'.data x = s'.data x)
    (ht : ShowsThread s' m' t) : Shows s' m' := by
  refine ⟨hcalled, hfree, fun u => ?_⟩
  by_cases hut : u = t
  · exact hut ▸ ht
  · exact (hi.thread u).frame (by rw [hs, Function.update_of_ne hut]) (by rw [hm, Function.update_of_ne hut])
      (hown u hut)
      (hdata u hut)

variable [DecidableEq Tid] [DecidableEq V]

theorem nextAct_call {op : o} {k : ρ → Client o ρ} (h : m.thread t = .between (.call op k)) : nextAct spec m t =
    some { m.goto t (.inside (spec op) k) with called := m.called ++ [op] } := by simp only [nextAct, h]

theorem nextAct_ret {r : ρ} {k : ρ → Client o ρ} (h : m.thread t = .inside (.ret r) k) :
    nextAct spec m t = some (m.goto t (.between (k r))) := by simp only [nextAct, h]

theorem nextAct_access {x : V} {write : T → T} {next : T → Act V T ρ} {k : ρ → Client o ρ}
    (h : m.thread t = .inside (.access x write next) k) : nextAct spec m t =
    some { m.goto t (.inside (next (m.data x)) k) with data := Function.update m.data x (write (m.data x)) } := by
  simp only [nextAct, h]

/-- **A step of the code is one of the accesses, or is not to be seen.** -/
theorem Shows.next (hspec : ∀ op, (body op).Does none (spec op)) (hi : Shows s m) (h : next body s t = some s') :
    Shows s' m ∨ ∃ m', nextAct spec m t = some m' ∧ Shows s' m' := by
  have same : m.thread = Function.update m.thread t (m.thread t) := (Function.update_eq_self ..).symm
  have hth := hi.thread t
  cases next_cases h with
  | call op k hs =>
    obtain ⟨hm, hout⟩ := hth.of_between hs
    refine Or.inr ⟨_, nextAct_call hm, hi.move rfl rfl (fun _ _ _ => Iff.rfl) (fun _ _ _ _ => ⟨rfl, rfl⟩)
      (congrArg (· ++ [op]) hi.called) hi.data ?_⟩
    exact .outside (Function.update_self ..) (Function.update_self ..) (hspec op) hout
  | ret r k hs =>
    obtain ⟨_, hm, rfl, hout⟩ := hth.of_outside hs fun _ _ h => h
    refine Or.inr ⟨_, nextAct_ret hm, hi.move rfl rfl (fun _ _ _ => Iff.rfl) (fun _ _ _ _ => ⟨rfl, rfl⟩) hi.called
        hi.data ?_⟩
    exact .between (Function.update_self ..) (Function.update_self ..) hout
  | lock x p k hs hfree =>
    -- the access begins, of which nothing is seen yet
    obtain ⟨_, hm, ⟨write, next, rfl, hdoes⟩, hout⟩ := hth.of_outside hs fun _ _ h => h
    refine Or.inl (hi.move rfl same (fun u hu y => ?_) (fun _ _ _ _ => ⟨rfl, rfl⟩) hi.called (fun y hy => ?_) ?_)
    · by_cases hyx : y = x
      · subst hyx
        simp [hfree, Ne.symm hu]
      · simp [hyx]
    · have hyx : y ≠ x := by
        rintro rfl
        simp at hy
      exact hi.data y (by simpa [hyx] using hy)
    · refine .within (Function.update_self ..) hm ?_ fun y => ?_
      · rw [hi.data x hfree]
        exact hdoes (s.data x)
      · by_cases hyx : y = x
        · simp [hyx]
        · simpa [hyx] using hout y
  | unlock x p k hs =>
    -- the access ends, and is seen
    obtain ⟨x', write, next, hm, ⟨rfl, hafter, hdoes⟩, hown⟩ := hth.of_within hs fun _ h => h
    have hx := (hown x').mpr rfl
    refine Or.inr ⟨_, nextAct_access hm, hi.move rfl rfl (fun u hu y => ?_) (fun u hu y hy => ⟨rfl, ?_⟩) hi.called
      (fun y hy => ?_) (.outside (Function.update_self ..) (Function.update_self ..) hdoes fun y => ?_)⟩
    · by_cases hyx : y = x'
      · subst hyx
        simp [hx, Ne.symm hu]
      · simp [hyx]
    · exact Function.update_of_ne (ne_of_owner hx hy hu) _ _
    · by_cases hyx : y = x'
      · subst hyx
        exact (Function.update_self ..).trans hafter
      · exact (Function.update_of_ne hyx _ _).trans (hi.data y (by simpa [hyx] using hy))
    · by_cases hyx : y = x'
      · simp [hyx]
      · simpa [hyx] using (hown y).not.mpr hyx
  | load x p k hs =>
    obtain ⟨x', write, next, hm, ⟨rfl, hdoes⟩, hown⟩ := hth.of_within hs fun _ h => h
    exact Or.inl (hi.move rfl same (fun _ _ _ => Iff.rfl) (fun _ _ _ _ => ⟨rfl, rfl⟩) hi.called hi.data
      (.within (Function.update_self ..) hm hdoes hown))
  | reload x p k hs =>
    obtain ⟨_, -, hdoes, -⟩ := hth.of_outside hs fun _ _ h => h
    exact hdoes.elim
  | store x i p k hs =>
    obtain ⟨x', write, next, hm, ⟨rfl, hdoes⟩, hown⟩ := hth.of_within hs fun _ h => h
    have hx := (hown x').mpr rfl
    refine Or.inl (hi.move rfl same (fun _ _ _ => Iff.rfl) (fun u hu y hy => ⟨?_, rfl⟩) hi.called (fun y hy => ?_) ?_)
    · exact Function.update_of_ne (ne_of_owner hx hy hu) _ _
    · have hyx : y ≠ x' := by
        rintro rfl
        rw [show s.owner y = none from hy] at hx
        cases hx
      exact (hi.data y hy).trans (Function.update_of_ne hyx _ _).symm
    · refine .within (Function.update_self ..) hm ?_ hown
      show p.Does (some ⟨x', Function.update s.data x' i x', write (m.data x')⟩) (next (m.data x'))
      rw [Function.update_self]
      exact hdoes

variable {init : V → T} {clients : Tid → Client o ρ}

/-- **A run of the code shows a run of the accesses.** -/
theorem shown (hspec : ∀ op, (body op).Does none (spec op)) (h : (system body init clients).Reachable Anything s) :
    ∃ m, (accesses spec init clients).Reachable Anything m ∧ Shows s m := by
  refine h.induct (I := fun s => ∃ m, (accesses spec init clients).Reachable Anything m ∧ Shows s m) ?_ ?_
  · exact ⟨_, .init, rfl, fun _ _ => rfl, fun t => .between rfl rfl nofun⟩
  · rintro s t s' - - hs ⟨m, hm, hi⟩
    rcases hi.next hspec hs with hi' | ⟨m', hm', hi'⟩
    · exact ⟨m, hm, hi'⟩
    · exact ⟨m', hm.step trivial hm', hi'⟩

end Shows

end Concurrency.Locks
