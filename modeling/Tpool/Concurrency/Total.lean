import Mathlib.Algebra.BigOperators.Group.Finset.Piecewise
import Mathlib.Tactic.Abel
import Tpool.Concurrency.Sections

/-!
# What the accesses add to a variable

- `Act.Adds`: an operation that does nothing to a variable but add to it.
- `total`: where all operations that begin are of this kind, the variable has what they add, but for what those that are
  in progress still are to add.
-/

namespace Concurrency.Locks

variable {Tid V T o ρ : Type*}

section Adds

variable [AddCommGroup T] {x : V} {d : T}

/-- What is left of the operation adds `d` to `x`, and does nothing else to it. -/
def Act.Adds (x : V) : T → Act V T ρ → Prop
  | d, .ret _ => d = 0
  | d, .access y write next => ∃ e, (y = x → ∀ v, write v = v + e) ∧ (y ≠ x → e = 0) ∧ ∀ v, (next v).Adds x (d - e)

/-- What is left of a thread's operation adds `d` to `x`. -/
def Caller.Adds (x : V) (d : T) : Caller V T o ρ → Prop
  | .between _ => d = 0
  | .inside a _ => a.Adds x d

theorem sum_update [Fintype Tid] [DecidableEq Tid] (f : Tid → T) (t : Tid) (e : T) :
    ∑ u, Function.update f t e u = ∑ u, f u - f t + e := by
  have hsame := Finset.sum_update_of_mem (Finset.mem_univ t) f (f t)
  rw [Function.update_eq_self] at hsame
  rw [Finset.sum_update_of_mem (Finset.mem_univ t), hsame]
  abel

variable [Fintype Tid] [DecidableEq Tid] [DecidableEq V] {spec : o → Act V T ρ} {delta : o → T} {init : V → T}
  {clients : Tid → Client o ρ} {m m' : Memory Tid V T o ρ} {t : Tid}

/-- What has been added to `x`, and what the threads still are to add, is what the operations that have begun add. -/
def Total (delta : o → T) (init : V → T) (x : V) (m : Memory Tid V T o ρ) : Prop :=
  ∃ f : Tid → T, (∀ t, (m.thread t).Adds x (f t)) ∧ m.data x + ∑ t, f t = init x + (m.called.map delta).sum

omit [DecidableEq V] in
/-- A move of the thread `t`. -/
theorem Total.move {f : Tid → T} (hf : ∀ t, (m.thread t).Adds x (f t)) {th : Caller V T o ρ} {e : T}
    (hthread : m'.thread = Function.update m.thread t th) (ht : th.Adds x e)
    (htotal : m'.data x + (∑ u, f u - f t + e) = init x + (m'.called.map delta).sum) : Total delta init x m' := by
  refine ⟨Function.update f t e, fun u => ?_, by rw [sum_update, htotal]⟩
  by_cases hut : u = t
  · subst hut
    rw [hthread, Function.update_self, Function.update_self]
    exact ht
  · rw [hthread, Function.update_of_ne hut, Function.update_of_ne hut]
    exact hf u

theorem Total.next (hspec : ∀ op ∈ m'.called, (spec op).Adds x (delta op)) (hi : Total delta init x m)
    (h : nextAct spec m t = some m') : Total delta init x m' := by
  obtain ⟨f, hf, htotal⟩ := hi
  have ht := hf t
  unfold nextAct at h
  split at h
  · cases h
  · rename_i op k hm
    obtain rfl := Option.some.inj h
    rw [hm] at ht
    have hzero : f t = 0 := ht
    refine Total.move hf rfl (hspec op (by simp)) ?_
    show m.data x + (∑ u, f u - f t + delta op) = init x + ((m.called ++ [op]).map delta).sum
    rw [hzero, List.map_append, List.sum_append, ← add_assoc (init x), ← htotal]
    simp [add_assoc]
  · rename_i r k hm
    obtain rfl := Option.some.inj h
    rw [hm] at ht
    have hzero : f t = 0 := ht
    refine Total.move hf rfl (e := 0) rfl ?_
    simpa [Memory.goto, hzero] using htotal
  · rename_i y write next k hm
    obtain rfl := Option.some.inj h
    rw [hm] at ht
    obtain ⟨e, hwrite, hother, hnext⟩ := ht
    refine Total.move hf rfl (hnext _) ?_
    have hdata : Function.update m.data y (write (m.data y)) x = m.data x + e := by
      by_cases hyx : y = x
      · subst hyx
        rw [Function.update_self, hwrite rfl]
      · rw [Function.update_of_ne (Ne.symm hyx), hother hyx, add_zero]
    show Function.update m.data y (write (m.data y)) x + _ = init x + (m.called.map delta).sum
    rw [hdata, ← htotal]
    abel

omit [Fintype Tid] [AddCommGroup T] in
theorem called_grows (h : nextAct spec m t = some m') : m.called <+: m'.called := by
  unfold nextAct at h
  split at h
  · cases h
  · obtain rfl := Option.some.inj h
    exact List.prefix_append _ _
  · obtain rfl := Option.some.inj h
    exact List.prefix_rfl
  · obtain rfl := Option.some.inj h
    exact List.prefix_rfl

/-- **Nothing that is added gets lost.** -/
theorem total (h : (accesses spec init clients).Reachable Anything m)
    (hspec : ∀ op ∈ m.called, (spec op).Adds x (delta op)) : Total delta init x m := by
  refine h.induct (I := fun m => (∀ op ∈ m.called, (spec op).Adds x (delta op)) → Total delta init x m) ?_ ?_ hspec
  · exact fun _ => ⟨fun _ => 0, fun _ => rfl, by simp [accesses]⟩
  · rintro m t m' - - hs hi hspec
    exact (hi fun op hop => hspec op (called_grows hs |>.subset hop)).next hspec hs

end Adds

end Concurrency.Locks
