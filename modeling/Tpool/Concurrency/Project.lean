import Tpool.Concurrency.Fair

/-!
# Fair runs of a part

- `Projects`: what a system does to a part of its state, another system does or nothing happens there; and a party that
  is `busy` in the part moves nothing else.
- `run`: a fair run of the whole shows a fair run of the part.
-/

namespace Concurrency.System

open Filter

variable {σ α τ β P : Type*} {M : System σ α} {N : System τ β}

/-- `f` shows the part `N` of the system `M`. -/
structure Projects (M : System σ α) (N : System τ β) (okM : σ → α → Prop) (okN : τ → β → Prop) (partyM : α → Option P)
    (partyN : β → Option P) (busy : P → τ → Prop) (f : σ → τ) : Prop where
  init : f M.init = N.init
  step : ∀ s a s', M.Reachable okM s → okM s a → M.step s a = some s' →
    (f s' = f s ∧ ∀ p, partyM a = some p → ¬ busy p (f s)) ∨
    ∃ b, okN (f s) b ∧ N.step (f s) b = some (f s') ∧ ∀ p, partyM a = some p → busy p (f s) → partyN b = some p
  stays : ∀ p x b x', N.step x b = some x' → partyN b ≠ some p → busy p x → busy p x'
  enabled : ∀ p s, M.Reachable okM s → N.Enabled okN partyN p (f s) → busy p (f s) ∧ M.Enabled okM partyM p s

variable {okM : σ → α → Prop} {okN : τ → β → Prop} {partyM : α → Option P} {partyN : β → Option P}
  {busy : P → τ → Prop} {f : σ → τ}

/-- What is seen of one step of a run. -/
theorem Projects.next (h : Projects M N okM okN partyM partyN busy f) (r : M.Run okM) (k : ℕ) :
    ∃ b, N.Next okN (f (r.state k)) b (f (r.state (k + 1))) ∧
      ∀ p, r.Moves partyM p k → busy p (f (r.state k)) → ∃ b', b = some b' ∧ partyN b' = some p := by
  have hr := r.reachable k
  have hnext := r.next k
  unfold Run.Moves
  generalize r.action k = a at hnext
  generalize r.state (k + 1) = s' at hnext
  cases hnext with
  | pause => exact ⟨none, .pause, by rintro p ⟨_, h, -⟩; cases h⟩
  | @act a _ hok hs =>
    rcases h.step _ _ _ hr hok hs with ⟨heq, hidle⟩ | ⟨b, hokb, hb, hmoves⟩
    · rw [heq]
      refine ⟨none, .pause, ?_⟩
      rintro p ⟨_, ⟨⟩, hp⟩ hbusy
      exact absurd hbusy (hidle p hp)
    · refine ⟨some b, .act hokb hb, ?_⟩
      rintro p ⟨_, ⟨⟩, hp⟩ hbusy
      exact ⟨b, rfl, hmoves p hp hbusy⟩

/-- **A fair run of the whole shows a fair run of the part.** -/
theorem Projects.run (h : Projects M N okM okN partyM partyN busy f) {r : M.Run okM} (hf : r.Fair partyM) :
    ∃ r' : N.Run okN, r'.Fair partyN ∧ ∀ k, r'.state k = f (r.state k) := by
  choose act hact hmoves using h.next r
  refine ⟨⟨fun k => f (r.state k), act, by rw [r.init, h.init], hact⟩, fun p hoften => ?_, fun _ => rfl⟩
  by_contra hno
  obtain ⟨K, hK⟩ := eventually_atTop.mp (not_frequently.mp hno)
  obtain ⟨j, hj, hen⟩ := frequently_atTop.mp hoften K
  -- the party is busy from `j` on, since it does not move in the part
  have hbusy : ∀ i ≥ j, busy p (f (r.state i)) := by
    intro i hi
    induction i, hi using Nat.le_induction with
    | base => exact (h.enabled p _ (r.reachable j) hen).1
    | succ i hi ih =>
      have hnot := hK i (hj.trans hi)
      have hnext := hact i
      unfold Run.Moves at hnot
      generalize f (r.state (i + 1)) = x' at hnext
      cases hb : act i with
      | none =>
        rw [hb] at hnext
        cases hnext
        exact ih
      | some b =>
        rw [hb] at hnext
        cases hnext with
        | act _ hs => exact h.stays p _ b _ hs (fun hp => hnot ⟨b, hb, hp⟩) ih
  have hoften : r.Often (M.Enabled okM partyM p) :=
    Frequently.mono hoften fun k hk => (h.enabled p _ (r.reachable k) hk).2
  obtain ⟨i, hi, hmove⟩ := frequently_atTop.mp (hf p hoften) j
  obtain ⟨b, hb, hp⟩ := hmoves i p hmove (hbusy i hi)
  exact hK i (hj.trans hi) ⟨b, hb, hp⟩

end Concurrency.System
