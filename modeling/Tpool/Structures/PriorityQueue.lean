import Mathlib.Data.List.Perm.Basic
import Mathlib.Order.Lattice

/-!
# Priority queues on a vector in heap order

- `Child`: the edges of the binary tree that a vector is when it is read level by level.
- `IsHeap`: the keys do not decrease along the edges. `SubHeaps`: nor along those that do not start at the root.
- `PriorityQueue`: a way to push an element and to pop the root. Both keep what is there, whatever the keys are; a push
  keeps a heap, and a pop needs the heaps below the root only.
- `IsHeap.head_le`: the root is a smallest element. `IsHeap.subHeaps`: when the key of the root changes, the heaps below
  it are left.
-/

namespace Structures

variable {T K : Type*} [LinearOrder K]

/-- `c` is a child of `p`. -/
def Child (p c : Nat) : Prop := c = 2 * p + 1 ∨ c = 2 * p + 2

/-- The keys do not decrease along the edges. -/
def IsHeap (key : T → K) (q : List T) : Prop :=
  ∀ p c x y, Child p c → q[p]? = some x → q[c]? = some y → key x ≤ key y

/-- The keys do not decrease along the edges that do not start at the root. -/
def SubHeaps (key : T → K) (q : List T) : Prop :=
  ∀ p c x y, Child p c → p ≠ 0 → q[p]? = some x → q[c]? = some y → key x ≤ key y

/-- A priority queue that keeps its elements in a vector, with the top at the root. -/
structure PriorityQueue (T K : Type*) [LinearOrder K] where
  push : (T → K) → List T → T → List T
  pop : (T → K) → List T → List T
  push_perm : ∀ key q x, (push key q x).Perm (x :: q)
  pop_perm : ∀ key q, (pop key q).Perm q.tail
  push_heap : ∀ {key q} x, IsHeap key q → IsHeap key (push key q x)
  pop_heap : ∀ {key q}, SubHeaps key q → IsHeap key (pop key q)

section Heap

variable {key key' : T → K} {q : List T} {x : T}

theorem IsHeap.nil : IsHeap key [] := fun p c x y _ hx => by simp at hx

/-- Every element but the root has a parent. -/
theorem exists_parent {m : Nat} (hm : m ≠ 0) (h : m < q.length) : ∃ p y, Child p m ∧ p < m ∧ q[p]? = some y := by
  have hp : (m - 1) / 2 < q.length := by omega
  refine ⟨(m - 1) / 2, q[(m - 1) / 2], ?_, by omega, List.getElem?_eq_getElem hp⟩
  unfold Child
  omega

/-- **The root is a smallest element.** -/
theorem IsHeap.head_le (h : IsHeap key q) (hx : q.head? = some x) {y : T} (hy : y ∈ q) : key x ≤ key y := by
  have hall : ∀ (m : Nat) (y : T), q[m]? = some y → key x ≤ key y := by
    intro m
    induction m using Nat.strongRecOn with
    | _ m ih =>
      intro y hy
      by_cases hm : m = 0
      · subst hm
        rw [← List.head?_eq_getElem?, hx] at hy
        cases hy
        exact le_rfl
      · obtain ⟨hlt, -⟩ := List.getElem?_eq_some_iff.mp hy
        obtain ⟨p, z, hc, hp, hz⟩ := exists_parent hm hlt
        exact (ih p hp z hz).trans (h p m z y hc hz hy)
  obtain ⟨m, hm⟩ := List.getElem?_of_mem hy
  exact hall m y hm

/-- The heaps below the root do not depend on the key of the root. -/
theorem IsHeap.subHeaps (h : IsHeap key (x :: q)) (hk : ∀ y ∈ q, key' y = key y) : SubHeaps key' (x :: q) := by
  intro p c u v hc hp hu hv
  have hc0 : c ≠ 0 := by
    unfold Child at hc
    omega
  obtain ⟨p, rfl⟩ := Nat.exists_eq_succ_of_ne_zero hp
  obtain ⟨c, rfl⟩ := Nat.exists_eq_succ_of_ne_zero hc0
  have hu' : u ∈ q := List.mem_of_getElem? (by simpa using hu)
  have hv' : v ∈ q := List.mem_of_getElem? (by simpa using hv)
  rw [hk u hu', hk v hv']
  exact h _ _ u v hc hu hv

/-- A heap stays one when the keys of its elements do. -/
theorem IsHeap.congr (h : IsHeap key q) (hk : ∀ y ∈ q, key' y = key y) : IsHeap key' q := by
  intro p c u v hc hu hv
  rw [hk u (List.mem_of_getElem? hu), hk v (List.mem_of_getElem? hv)]
  exact h p c u v hc hu hv

/-- And so do the heaps below the root. -/
theorem SubHeaps.congr (h : SubHeaps key q) (hk : ∀ y ∈ q, key' y = key y) : SubHeaps key' q := by
  intro p c u v hc hp hu hv
  rw [hk u (List.mem_of_getElem? hu), hk v (List.mem_of_getElem? hv)]
  exact h p c u v hc hp hu hv

/-- Of a heap the heaps below the root are left. -/
theorem IsHeap.sub (h : IsHeap key q) : SubHeaps key q := fun p c u v hc _ hu hv => h p c u v hc hu hv

end Heap

end Structures
