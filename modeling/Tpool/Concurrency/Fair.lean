import Mathlib.Order.Filter.AtTopBot.Basic
import Mathlib.Order.Filter.Finite
import Mathlib.Order.OrderIsoNat
import Tpool.Concurrency.System

/-!
# Infinite runs and fairness

- `Run`: an infinite run of a system, which may pause; all its states are reachable.
- `Stable`: what no step ends. A run has it from some point on, or never (`finally_of`, `never`).
- `Fair`: who can make a step again and again makes one again and again. Every action has at most one party that takes
  it; what belongs to no party need not happen.
- `Fair.settles`: a party each of whose steps lowers a rank that nobody raises comes to a point from where it cannot go
  on. This is the rule by which liveness is proved here: at such a point it is stuck, and the others free it.
- `exists_run`: a finite run that ends where nobody can go on is a fair infinite one.
-/

namespace Concurrency

open Filter

namespace System

variable {σ α P : Type*} (M : System σ α) (ok : σ → α → Prop)

/-! ## Infinite runs -/

/-- An action is taken, or there is a pause. -/
inductive Next (s : σ) : Option α → σ → Prop
  | pause : Next s none s
  | act {a s'} : ok s a → M.step s a = some s' → Next s (some a) s'

/-- An infinite run whose steps meet the side condition. -/
structure Run where
  state : ℕ → σ
  action : ℕ → Option α
  init : state 0 = M.init
  next : ∀ k, M.Next ok (state k) (action k) (state (k + 1))

/-- No step ends it. -/
def Stable (I : σ → Prop) : Prop := ∀ s a s', M.Reachable ok s → ok s a → M.step s a = some s' → I s → I s'

/-- The party `p` can make a step. -/
def Enabled (party : α → Option P) (p : P) (s : σ) : Prop := ∃ a s', party a = some p ∧ ok s a ∧ M.step s a = some s'

variable {M ok}

namespace Run

variable (r : M.Run ok) {I J : σ → Prop} {k : ℕ}

theorem reachable (k : ℕ) : M.Reachable ok (r.state k) := by
  induction k with
  | zero => rw [r.init]; exact .init
  | succ k ih =>
    have hnext := r.next k
    generalize r.action k = a at hnext
    generalize r.state (k + 1) = s' at hnext
    cases hnext with
    | pause => exact ih
    | act hok hs => exact ih.step hok hs

/-- From some point on it holds. -/
def Finally (I : σ → Prop) : Prop := ∀ᶠ k in atTop, I (r.state k)

/-- Again and again it holds. -/
def Often (I : σ → Prop) : Prop := ∃ᶠ k in atTop, I (r.state k)

variable {r}

theorem Finally.mono (h : r.Finally I) (hI : ∀ s, M.Reachable ok s → I s → J s) : r.Finally J :=
  Eventually.mono h fun k hk => hI _ (r.reachable k) hk

theorem Finally.and (hI : r.Finally I) (hJ : r.Finally J) : r.Finally fun s => I s ∧ J s :=
  Eventually.and hI hJ

theorem Finally.exists (h : r.Finally I) (k : ℕ) : ∃ j ≥ k, I (r.state j) := by
  obtain ⟨K, hK⟩ := eventually_atTop.mp h
  exact ⟨max k K, le_max_left .., hK _ (le_max_right ..)⟩

/-- It holds of all states. -/
theorem finally_always (h : ∀ k, I (r.state k)) : r.Finally I := Eventually.of_forall h

theorem finally_all {ι : Type*} [Finite ι] {I : ι → σ → Prop} (h : ∀ i, r.Finally (I i)) : r.Finally fun s =>
    ∀ i, I i s :=
  eventually_all.mpr h

theorem finally_lt {j : ℕ} {I : ℕ → σ → Prop} (h : ∀ m < j, r.Finally (I m)) : r.Finally fun s => ∀ m < j, I m s :=
  (eventually_all_finite (Set.finite_lt_nat j)).mpr h

theorem often_not (h : ¬ r.Finally I) : r.Often fun s => ¬ I s := Filter.not_eventually.mp h

theorem finally_imp {p : Prop} (h : p → ¬ r.Often fun s => ¬ I s) : r.Finally fun s => p → I s := by
  by_cases hp : p
  · exact Eventually.mono (by_contra fun hno => h hp (often_not hno)) fun _ hk _ => hk
  · exact finally_always fun _ hk => absurd hk hp

/-- What a run has again and again, it has at a later point than any. -/
theorem Often.exists (h : r.Often I) (k : ℕ) : ∃ j ≥ k, I (r.state j) := frequently_atTop.mp h k

/-- What a run has again and again, it has together with what it has from some point on. -/
theorem Often.with (h : r.Often I) (hJ : r.Finally J) : ∃ k, I (r.state k) ∧ J (r.state k) :=
  (Frequently.and_eventually h hJ).exists

/-- What every step keeps that leads to where `I` holds, a run keeps while `I` holds. -/
theorem stays (hJ : J (r.state k)) (hI : ∀ j ≥ k, I (r.state j))
    (hkeep : ∀ s a s', M.Reachable ok s → ok s a → M.step s a = some s' → J s → I s' → J s') {j : ℕ} (hj : k ≤ j) :
    J (r.state j) := by
  induction j, hj using Nat.le_induction with
  | base => exact hJ
  | succ j hj ih =>
    have hnext := r.next j
    have hr := r.reachable j
    have hnew := hI (j + 1) (Nat.le_succ_of_le hj)
    generalize r.action j = a at hnext
    generalize r.state (j + 1) = s' at hnext hnew
    cases hnext with
    | pause => exact ih
    | act hok hs => exact hkeep _ _ _ hr hok hs ih hnew

/-- What no step lowers, a run does not lower. -/
theorem mono {β : Type*} [Preorder β] (f : σ → β)
    (hf : ∀ s a s', M.Reachable ok s → ok s a → M.step s a = some s' → f s ≤ f s') {j : ℕ} (hj : k ≤ j) :
    f (r.state k) ≤ f (r.state j) :=
  stays (J := fun s => f (r.state k) ≤ f s) (I := fun _ => True) le_rfl (fun _ _ => trivial)
    (fun s a s' hr ha hs h _ => h.trans (hf s a s' hr ha hs)) hj

theorem finally_of (hI : M.Stable ok I) (h : I (r.state k)) : r.Finally I :=
  eventually_atTop.mpr ⟨k, fun _ hj => stays h (I := fun _ => True) (fun _ _ => trivial)
    (fun s a s' hr ha hs h _ => hI s a s' hr ha hs h) hj⟩

/-- Where from some point on something has it, and what has it keeps it as long as something has it, one thing has it
from some point on. -/
theorem Finally.choose {ι : Type*} {J : ι → σ → Prop} (h : r.Finally fun s => ∃ x, J x s)
    (hkeep : ∀ x s a s', M.Reachable ok s → ok s a → M.step s a = some s' → J x s → (∃ y, J y s') → J x s') :
    ∃ x, r.Finally (J x) := by
  obtain ⟨K, hK⟩ := eventually_atTop.mp h
  obtain ⟨x, hx⟩ := hK K le_rfl
  exact ⟨x, eventually_atTop.mpr ⟨K, fun _ hj => stays hx hK (hkeep x) hj⟩⟩

/-- A run never has what it does not keep. -/
theorem never (hI : M.Stable ok I) (h : ¬ r.Finally I) (k : ℕ) : ¬ I (r.state k) := fun hk => h (finally_of hI hk)

end Run

/-! ## Fairness -/

variable {party : α → Option P} {p : P} {I : σ → Prop}

/-- At `k` the party `p` makes a step. -/
def Run.Moves (r : M.Run ok) (party : α → Option P) (p : P) (k : ℕ) : Prop :=
  ∃ a, r.action k = some a ∧ party a = some p

/-- Whoever can make a step again and again makes one again and again. -/
def Run.Fair (r : M.Run ok) (party : α → Option P) : Prop :=
  ∀ p, r.Often (M.Enabled ok party p) → ∃ᶠ k in atTop, r.Moves party p k

variable {r : M.Run ok}

/-- **A party runs out of steps**, when from some point on each of them lowers a rank that nobody raises. -/
theorem Run.Fair.settles {β : Type*} [PartialOrder β] [WellFoundedLT β] (hf : r.Fair party) (p : P) (rank : σ → β)
    (hI : r.Finally I)
    (hrank : ∀ s a s', M.Reachable ok s → ok s a → M.step s a = some s' → I s → I s' →
      rank s' ≤ rank s ∧ (party a = some p → rank s' < rank s)) :
    r.Finally fun s => ¬ M.Enabled ok party p s := by
  by_contra hno
  obtain ⟨K, hK⟩ := eventually_atTop.mp hI
  have hstep : ∀ k ≥ K, rank (r.state (k + 1)) ≤ rank (r.state k) ∧
      (r.Moves party p k → rank (r.state (k + 1)) < rank (r.state k)) := by
    intro k hk
    have hnext := r.next k
    have hr := r.reachable k
    have h1 := hK k hk
    have h2 := hK (k + 1) (Nat.le_succ_of_le hk)
    unfold Run.Moves
    generalize r.action k = a at hnext
    generalize r.state (k + 1) = s' at hnext h2
    cases hnext with
    | pause => exact ⟨le_rfl, fun ⟨_, h, _⟩ => by cases h⟩
    | @act a s' hok hs =>
      obtain ⟨hle, hlt⟩ := hrank _ _ _ hr hok hs h1 h2
      refine ⟨hle, fun ⟨b, hb, hp⟩ => hlt ?_⟩
      cases hb
      exact hp
  have hanti : Antitone fun k => rank (r.state (K + k)) :=
    antitone_nat_of_succ_le fun k => (hstep (K + k) (Nat.le_add_right ..)).1
  obtain ⟨N, hN⟩ := WellFoundedLT.antitone_chain_condition hanti
  obtain ⟨k, hk, hmoves⟩ := frequently_atTop.mp (hf p hno) (K + N)
  obtain ⟨m, rfl⟩ := Nat.exists_eq_add_of_le (Nat.le_of_add_right_le hk)
  have hm : N ≤ m := by omega
  have hlt := (hstep (K + m) (Nat.le_add_right ..)).2 hmoves
  have hsame : rank (r.state (K + m)) = rank (r.state (K + m + 1)) := (hN m hm).symm.trans (hN (m + 1) (by omega))
  exact absurd hlt (hsame ▸ lt_irrefl _)

/-! ## Finite runs -/

section Exec

variable [∀ s a, Decidable (ok s a)]

theorem exec_append (as bs : List α) (s : σ) :
    M.exec ok s (as ++ bs) = (M.exec ok s as).bind fun s' => M.exec ok s' bs := by
  induction as generalizing s with
  | nil => rfl
  | cons a as ih =>
    simp only [List.cons_append, exec]
    split
    · cases M.step s a with
      | none => rfl
      | some s' => exact ih s'
    · rfl

/-- **A run that ends where nobody can go on**, continued by a pause, is fair. -/
theorem exists_run {as : List α} {s : σ} (h : M.exec ok M.init as = some s) (hend : ∀ p, ¬ M.Enabled ok party p s) :
    ∃ r : M.Run ok, r.Fair party ∧ ∀ k, M.exec ok M.init (as.take k) = some (r.state k) := by
  have hpre : ∀ k, (M.exec ok M.init (as.take k)).isSome = true := by
    intro k
    rw [← List.take_append_drop k as, exec_append] at h
    obtain ⟨s', hs', -⟩ := Option.bind_eq_some_iff.mp h
    rw [hs']
    rfl
  have hnext : ∀ k, M.Next ok ((M.exec ok M.init (as.take k)).get (hpre k)) as[k]?
      ((M.exec ok M.init (as.take (k + 1))).get (hpre (k + 1))) := by
    intro k
    cases ha : as[k]? with
    | none =>
      have hlen := List.getElem?_eq_none_iff.mp ha
      have hsame : as.take (k + 1) = as.take k := by
        rw [List.take_of_length_le hlen, List.take_of_length_le (Nat.le_succ_of_le hlen)]
      simp only [hsame]
      exact .pause
    | some a =>
      have hsucc : as.take (k + 1) = as.take k ++ [a] := by rw [List.take_add_one, ha]; rfl
      have hsome := hpre (k + 1)
      simp only [hsucc, exec_append] at hsome ⊢
      obtain ⟨s', hs'⟩ := Option.isSome_iff_exists.mp (hpre k)
      simp only [hs', Option.bind_some, exec] at hsome ⊢
      split at hsome
      · rename_i hok
        obtain ⟨s'', hs''⟩ : ∃ s'', M.step s' a = some s'' := by
          cases hst : M.step s' a with
          | none => rw [hst] at hsome; cases hsome
          | some s'' => exact ⟨s'', rfl⟩
        simp only [hok, hs'', if_true, Option.bind_some, Option.get_some]
        exact .act hok hs''
      · cases hsome
  refine ⟨⟨_, _, rfl, hnext⟩, fun p hoften => ?_, fun k => (Option.some_get (hpre k)).symm⟩
  obtain ⟨k, hk, hen⟩ := frequently_atTop.mp hoften as.length
  refine absurd hen ?_
  simp only [List.take_of_length_le hk, h, Option.get_some]
  exact hend p

/-- What was evaluated of its states. -/
theorem check_run {as : List α} {k : ℕ} {p : σ → Bool} (hr : ∀ k, M.exec ok M.init (as.take k) = some (r.state k))
    (h : (M.exec ok M.init (as.take k)).any p = true) : p (r.state k) = true := by
  rwa [hr, Option.any_some] at h

/-- What no step lowers is in every state at most what it is in the last one. -/
theorem le_last {as : List α} (hr : ∀ k, M.exec ok M.init (as.take k) = some (r.state k)) {β : Type*} [Preorder β]
    (f : σ → β) (hf : ∀ s a s', M.Reachable ok s → ok s a → M.step s a = some s' → f s ≤ f s') (k : ℕ) :
    f (r.state k) ≤ f (r.state as.length) := by
  rcases Nat.le_total k as.length with hk | hk
  · exact Run.mono f hf hk
  · have hlast := hr as.length
    have hsame : some (r.state k) = some (r.state as.length) := by
      rw [← hr k, ← hlast, List.take_length, List.take_of_length_le hk]
    exact le_of_eq (congrArg f (Option.some.inj hsame))

end Exec

end System

end Concurrency
