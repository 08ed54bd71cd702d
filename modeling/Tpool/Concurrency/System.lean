import Mathlib.Logic.Relation
import Mathlib.Data.Finset.Basic

/-!
# Transition systems with partial steps

- `System`: an initial state and a partial step function. An action names who moves and settles every choice of that
  move, so a step is a function and runs can be evaluated (`exec`, `reachable_of_exec`,
  `reaches_of_exec_exec`).
- `Reachable ok`: the states of the runs all of whose steps meet the side condition `ok`; `Anything` is no condition.
- `Reachable.induct`: the invariant rule, with reachability of the state before the step as a hypothesis.
-/

namespace Concurrency

/-- A transition system; `step s a = none` when the action `a` is not enabled in `s`. -/
structure System (σ α : Type*) where
  init : σ
  step : σ → α → Option σ

/-- No side condition. -/
abbrev Anything {σ α : Type*} : σ → α → Prop := fun _ _ => True

namespace System

variable {σ α : Type*} (M : System σ α) (ok : σ → α → Prop)

/-- One step that meets the side condition. -/
def Step (s s' : σ) : Prop := ∃ a, ok s a ∧ M.step s a = some s'

/-- Finitely many steps that meet the side condition. -/
def Reaches : σ → σ → Prop := Relation.ReflTransGen (M.Step ok)

/-- The states of the runs whose steps meet the side condition. -/
def Reachable (s : σ) : Prop := M.Reaches ok M.init s

variable {M ok}

theorem Reachable.init : M.Reachable ok M.init := Relation.ReflTransGen.refl

theorem Reachable.step {s s' : σ} {a : α} (h : M.Reachable ok s) (ha : ok s a) (hs : M.step s a = some s') :
    M.Reachable ok s' :=
  Relation.ReflTransGen.tail h ⟨a, ha, hs⟩

theorem Reachable.reaches {s s' : σ} (h : M.Reachable ok s) (hs : M.Reaches ok s s') : M.Reachable ok s' :=
  Relation.ReflTransGen.trans h hs

/-- **The invariant rule.** -/
theorem Reachable.induct {I : σ → Prop} (h0 : I M.init)
    (hs : ∀ s a s', M.Reachable ok s → ok s a → M.step s a = some s' → I s → I s') {s : σ}
    (h : M.Reachable ok s) : I s := by
  induction h with
  | refl => exact h0
  | tail hr hst ih =>
    obtain ⟨a, ha, hst⟩ := hst
    exact hs _ a _ hr ha hst ih

/-- What every step keeps, a run keeps. -/
theorem Reaches.keeps {I : σ → Prop} (hs : ∀ s a s', ok s a → M.step s a = some s' → I s → I s') {s s' : σ}
    (h : M.Reaches ok s s') (hI : I s) : I s' := by
  induction h with
  | refl => exact hI
  | tail _ hst ih =>
    obtain ⟨a, ha, hst⟩ := hst
    exact hs _ a _ ha hst ih

/-- A weaker side condition allows more runs. -/
theorem Reachable.mono {ok' : σ → α → Prop} (hok : ∀ s a, ok s a → ok' s a) {s : σ} (h : M.Reachable ok s) :
    M.Reachable ok' s :=
  Relation.ReflTransGen.mono (fun _ _ ⟨a, ha, hs⟩ => ⟨a, hok _ a ha, hs⟩) _ _ h

theorem Reachable.any {s : σ} (h : M.Reachable ok s) : M.Reachable Anything s := h.mono fun _ _ _ => trivial

/-! ## Evaluating runs -/

variable (M ok) [∀ s a, Decidable (ok s a)]

/-- The run that takes the listed actions, when each is enabled and meets the side condition. -/
def exec : σ → List α → Option σ
  | s, [] => some s
  | s, a :: as => if ok s a then (M.step s a).bind fun s' => exec s' as else none

variable {M ok}

theorem reaches_of_exec : ∀ {as : List α} {s s' : σ}, M.exec ok s as = some s' → M.Reaches ok s s'
  | [], s, s', h => by
    simp only [exec, Option.some.injEq] at h
    subst h
    exact Relation.ReflTransGen.refl
  | a :: as, s, s', h => by
    simp only [exec] at h
    split at h
    · rename_i ha
      obtain ⟨s1, h1, h2⟩ := Option.bind_eq_some_iff.mp h
      exact Relation.ReflTransGen.head ⟨a, ha, h1⟩ (reaches_of_exec h2)
    · cases h

/-- A run that was evaluated ends in a reachable state with the tested property. -/
theorem reachable_of_exec (M : System σ α) (ok : σ → α → Prop) [∀ s a, Decidable (ok s a)] (as : List α) (p : σ → Bool)
    (h : (M.exec ok M.init as).any p = true) : ∃ s, M.Reachable ok s ∧ p s = true := by
  cases hs : M.exec ok M.init as with
  | none => simp [hs] at h
  | some s => exact ⟨s, reaches_of_exec hs, by simpa [hs] using h⟩

/-- A run that was evaluated in two parts, with a property tested after each. -/
theorem reaches_of_exec_exec (M : System σ α) (ok : σ → α → Prop) [∀ s a, Decidable (ok s a)] (as bs : List α)
    (p q : σ → Bool) (h : ((M.exec ok M.init as).any fun s => p s && (M.exec ok s bs).any q) = true) :
    ∃ s s', M.Reachable ok s ∧ p s = true ∧ M.Reaches ok s s' ∧ q s' = true := by
  obtain ⟨s, hs, hp⟩ := reachable_of_exec M ok as _ h
  obtain ⟨hp, s', hs', hq⟩ := by simpa only [Bool.and_eq_true, Option.any_eq_true] using hp
  exact ⟨s, s', hs, hp, reaches_of_exec hs', hq⟩

end System

end Concurrency
