import Mathlib.Data.Nat.Basic
import Tpool.Structures.PriorityQueue

/-!
# The binary heap

- `siftUp`, `siftDown`: an element is swapped with its parent, or with the smaller of its children, until the order
  along its edges is right. `UpReady`, `DownReady`: what that needs of the rest of the tree.
- `push`: the element is appended and sifted up. `pop`: the last element takes the place of the root and is sifted down.
- `binaryHeap`: these are a priority queue.
-/

namespace Structures.BinaryHeap

variable {T K : Type*} [LinearOrder K] (key : T → K)

/-- The elements at `i` and `j` change places. -/
def swap (q : List T) (i j : Nat) : List T := match q[i]?, q[j]? with
  | some x, some y => (q.set i y).set j x
  | _, _ => q

/-- The element at `i` moves up; `fuel` is at least `i`. -/
def siftUp : Nat → List T → Nat → List T
  | 0, q, _ => q
  | fuel + 1, q, i => match q[(i - 1) / 2]?, q[i]? with
    | some x, some y => if key y < key x then siftUp fuel (swap q i ((i - 1) / 2)) ((i - 1) / 2) else q
    | _, _ => q

/-- Where the smaller child of `i` is, if there is a child. -/
def smallerChild (q : List T) (i : Nat) : Nat := match q[2 * i + 1]?, q[2 * i + 2]? with
  | some x, some y => if key y < key x then 2 * i + 2 else 2 * i + 1
  | _, _ => 2 * i + 1

/-- The element at `i` moves down; `i + fuel` is at least the length. -/
def siftDown : Nat → List T → Nat → List T
  | 0, q, _ => q
  | fuel + 1, q, i => match q[i]?, q[smallerChild key q i]? with
    | some x, some y =>
      if key y < key x then siftDown fuel (swap q i (smallerChild key q i)) (smallerChild key q i) else q
    | _, _ => q

def push (q : List T) (x : T) : List T := siftUp key q.length (q ++ [x]) q.length

def pop : List T → List T
  | [] => []
  | _ :: rest => match rest.getLast? with
    | none => []
    | some last => siftDown key rest.length (last :: rest.dropLast) 0

section Swap

variable {q : List T} {i j : Nat} {x y : T}

theorem swap_eq (hx : q[i]? = some x) (hy : q[j]? = some y) : swap q i j = (q.set i y).set j x := by
  simp [swap, hx, hy]

theorem getElem?_swap (hx : q[i]? = some x) (hy : q[j]? = some y) (m : Nat) :
    (swap q i j)[m]? = if m = j then some x else if m = i then some y else q[m]? := by
  obtain ⟨hi, -⟩ := List.getElem?_eq_some_iff.mp hx
  obtain ⟨hj, -⟩ := List.getElem?_eq_some_iff.mp hy
  rw [swap_eq hx hy]
  by_cases hmj : m = j
  · subst hmj
    simp [hj]
  · by_cases hmi : m = i
    · subst hmi
      rw [List.getElem?_set_ne (Ne.symm hmj), List.getElem?_set_self hi]
      simp [hmj]
    · rw [List.getElem?_set_ne (Ne.symm hmj), List.getElem?_set_ne (Ne.symm hmi)]
      simp [hmj, hmi]

theorem swap_perm (q : List T) (i j : Nat) : (swap q i j).Perm q := by
  unfold swap
  split
  · rename_i x y hx hy
    obtain ⟨hi, rfl⟩ := List.getElem?_eq_some_iff.mp hx
    obtain ⟨hj, rfl⟩ := List.getElem?_eq_some_iff.mp hy
    exact List.set_set_perm hi hj
  · exact List.Perm.refl q

end Swap

/-! ## Sifting up -/

section Up

variable {key} {q : List T} {i : Nat}

/-- In order but for the edge to `i`, which the parent of `i` may skip. -/
structure UpReady (key : T → K) (q : List T) (i : Nat) : Prop where
  others : ∀ p c x y, Child p c → c ≠ i → q[p]? = some x → q[c]? = some y → key x ≤ key y
  across : ∀ p c x y, Child p i → Child i c → q[p]? = some x → q[c]? = some y → key x ≤ key y

theorem UpReady.swap {p : Nat} {x y : T} (h : UpReady key q i) (hp : Child p i) (hx : q[p]? = some x)
    (hy : q[i]? = some y) (hlt : key y < key x) : UpReady key (swap q i p) p := by
  have hpi : p < i := by
    unfold Child at hp
    omega
  constructor
  · intro a b u v hab hb hu hv
    rw [getElem?_swap hy hx] at hu hv
    rw [if_neg hb] at hv
    by_cases hap : a = p
    · subst hap
      rw [if_pos rfl] at hu
      cases hu
      by_cases hbi : b = i
      · rw [if_pos hbi] at hv
        cases hv
        exact hlt.le
      · rw [if_neg hbi] at hv
        exact hlt.le.trans (h.others a b x v hab hbi hx hv)
    · rw [if_neg hap] at hu
      by_cases hai : a = i
      · subst hai
        rw [if_pos rfl] at hu
        cases hu
        have hba : b ≠ a := by
          unfold Child at hab
          omega
        rw [if_neg hba] at hv
        exact h.across p b x v hp hab hx hv
      · rw [if_neg hai] at hu
        have hbi : b ≠ i := by
          unfold Child at hab hp
          omega
        rw [if_neg hbi] at hv
        exact h.others a b u v hab hbi hu hv
  · intro a c u v hap hpc hu hv
    have hap' : a ≠ p ∧ a ≠ i ∧ c ≠ p := by
      unfold Child at hap hpc
      omega
    rw [getElem?_swap hy hx] at hu hv
    rw [if_neg hap'.1, if_neg hap'.2.1] at hu
    rw [if_neg hap'.2.2] at hv
    have hux : key u ≤ key x := h.others a p u x hap (Nat.ne_of_lt hpi) hu hx
    by_cases hci : c = i
    · rw [if_pos hci] at hv
      cases hv
      exact hux
    · rw [if_neg hci] at hv
      exact hux.trans (h.others p c x v hpc hci hx hv)

/-- Nothing is left to do when the edge to `i` is in order. -/
theorem UpReady.isHeap (h : UpReady key q i)
    (hi : ∀ p x y, Child p i → q[p]? = some x → q[i]? = some y → key x ≤ key y) : IsHeap key q := by
  intro p c x y hc hx hy
  by_cases hci : c = i
  · subst hci
    exact hi p x y hc hx hy
  · exact h.others p c x y hc hci hx hy

theorem child_parent {p i : Nat} (h : Child p i) : (i - 1) / 2 = p := by
  unfold Child at h
  omega

theorem siftUp_isHeap : ∀ (fuel : Nat) {q : List T} {i : Nat}, i ≤ fuel → UpReady key q i →
    IsHeap key (siftUp key fuel q i)
  | 0, q, i, hi, h => by
    refine h.isHeap ?_
    intro p x y hp
    unfold Child at hp
    omega
  | fuel + 1, q, i, hi, h => by
    unfold siftUp
    split
    · rename_i x y hx hy
      split
      · rename_i hlt
        have hi0 : i ≠ 0 := by
          rintro rfl
          rw [show (0 - 1) / 2 = 0 from rfl, hy] at hx
          cases hx
          exact absurd hlt (lt_irrefl _)
        have hp : Child ((i - 1) / 2) i := by
          unfold Child
          omega
        exact siftUp_isHeap fuel (by omega) (h.swap hp hx hy hlt)
      · rename_i hle
        refine h.isHeap ?_
        intro p u v hp hu hv
        rw [← child_parent hp, hx] at hu
        rw [hy] at hv
        cases hu; cases hv
        exact not_lt.mp hle
    · rename_i hnone
      refine h.isHeap ?_
      intro p u v hp hu hv
      rw [← child_parent hp] at hu
      exact absurd hv (hnone u v hu)

theorem siftUp_perm : ∀ (fuel : Nat) (q : List T) (i : Nat), (siftUp key fuel q i).Perm q
  | 0, q, _ => List.Perm.refl q
  | fuel + 1, q, i => by
    unfold siftUp
    split
    · split
      · exact (siftUp_perm fuel _ _).trans (swap_perm q _ _)
      · exact List.Perm.refl q
    · exact List.Perm.refl q

theorem push_isHeap (x : T) (h : IsHeap key q) : IsHeap key (push key q x) := by
  refine siftUp_isHeap q.length (Nat.le_refl _) ⟨?_, ?_⟩
  · intro p c u v hc hcl hu hv
    have hlen : c < (q ++ [x]).length := (List.getElem?_eq_some_iff.mp hv).1
    have hlt : p < q.length ∧ c < q.length := by
      unfold Child at hc
      simp only [List.length_append, List.length_singleton] at hlen
      omega
    rw [List.getElem?_append_left hlt.1] at hu
    rw [List.getElem?_append_left hlt.2] at hv
    exact h p c u v hc hu hv
  · intro p c u v _ hc _ hv
    have hlen : c < (q ++ [x]).length := (List.getElem?_eq_some_iff.mp hv).1
    unfold Child at hc
    simp only [List.length_append, List.length_singleton] at hlen
    omega

theorem push_perm (q : List T) (x : T) : (push key q x).Perm (x :: q) :=
  (siftUp_perm _ _ _).trans (List.perm_append_singleton x q)

end Up

/-! ## Sifting down -/

section Down

variable {key} {q : List T} {i : Nat}

/-- In order but for the edges from `i`, which the parent of `i` may skip. -/
structure DownReady (key : T → K) (q : List T) (i : Nat) : Prop where
  others : ∀ p c x y, Child p c → p ≠ i → q[p]? = some x → q[c]? = some y → key x ≤ key y
  across : ∀ p c x y, Child p i → Child i c → q[p]? = some x → q[c]? = some y → key x ≤ key y

theorem smallerChild_child (key : T → K) (q : List T) (i : Nat) : Child i (smallerChild key q i) := by
  unfold smallerChild Child
  split
  · split <;> omega
  · omega

/-- With a child there is a smaller child. -/
theorem smallerChild_lt (key : T → K) {c : Nat} (hc : Child i c) (h : c < q.length) :
    smallerChild key q i < q.length := by
  unfold smallerChild
  unfold Child at hc
  split
  · rename_i x y _ hy
    have hlen := (List.getElem?_eq_some_iff.mp hy).1
    split <;> omega
  · omega

/-- The smaller child is no larger than any child. -/
theorem smallerChild_le {c : Nat} {x y : T} (hc : Child i c) (hx : q[smallerChild key q i]? = some x)
    (hy : q[c]? = some y) : key x ≤ key y := by
  unfold smallerChild at hx
  split at hx
  · rename_i a b ha hb
    split at hx
    · rename_i hlt
      rw [hb] at hx
      cases hx
      rcases hc with rfl | rfl
      · rw [ha] at hy; cases hy; exact hlt.le
      · rw [hb] at hy; cases hy; exact le_rfl
    · rename_i hle
      rw [ha] at hx
      cases hx
      rcases hc with rfl | rfl
      · rw [ha] at hy; cases hy; exact le_rfl
      · rw [hb] at hy; cases hy; exact not_lt.mp hle
  · rename_i hnone
    rcases hc with rfl | rfl
    · rw [hx] at hy; cases hy; exact le_rfl
    · exact absurd hy (hnone x y hx)

theorem DownReady.swap {x y : T} (h : DownReady key q i) (hx : q[i]? = some x) (hy : q[smallerChild key q i]? = some y)
    (hlt : key y < key x) : DownReady key (swap q i (smallerChild key q i)) (smallerChild key q i) := by
  have hc := smallerChild_child key q i
  generalize hcdef : smallerChild key q i = c at hc hy
  have hmin : ∀ {b v}, Child i b → q[b]? = some v → key y ≤ key v := fun hb hv =>
    smallerChild_le hb (hcdef ▸ hy) hv
  have hic : i < c := by
    unfold Child at hc
    omega
  constructor
  · intro a b u v hab hac hu hv
    rw [getElem?_swap hx hy] at hu hv
    rw [if_neg hac] at hu
    by_cases hai : a = i
    · subst hai
      rw [if_pos rfl] at hu
      cases hu
      by_cases hbc : b = c
      · rw [if_pos hbc] at hv
        cases hv
        exact hlt.le
      · have hba : b ≠ a := by
          unfold Child at hab
          omega
        rw [if_neg hbc, if_neg hba] at hv
        exact hmin hab hv
    · rw [if_neg hai] at hu
      have hbc : b ≠ c := by
        unfold Child at hab hc
        omega
      rw [if_neg hbc] at hv
      by_cases hbi : b = i
      · subst hbi
        rw [if_pos rfl] at hv
        cases hv
        exact h.across a c u y hab hc hu hy
      · rw [if_neg hbi] at hv
        exact h.others a b u v hab hai hu hv
  · intro a b u v hac hcb hu hv
    have hai : a = i := by
      unfold Child at hac hc
      omega
    have hb : b ≠ c ∧ b ≠ i ∧ a ≠ c := by
      unfold Child at hac hcb
      omega
    rw [getElem?_swap hx hy] at hu hv
    rw [if_neg hb.2.2, if_pos hai] at hu
    rw [if_neg hb.1, if_neg hb.2.1] at hv
    cases hu
    exact h.others c b y v hcb (Nat.ne_of_gt hic) hy hv

theorem DownReady.isHeap (h : DownReady key q i)
    (hi : ∀ c x y, Child i c → q[i]? = some x → q[c]? = some y → key x ≤ key y) : IsHeap key q := by
  intro p c x y hc hx hy
  by_cases hpi : p = i
  · subst hpi
    exact hi c x y hc hx hy
  · exact h.others p c x y hc hpi hx hy

theorem siftDown_isHeap : ∀ (fuel : Nat) {q : List T} {i : Nat}, q.length ≤ i + fuel + 1 → DownReady key q i →
    IsHeap key (siftDown key fuel q i)
  | 0, q, i, hi, h => by
    refine h.isHeap ?_
    intro c x y hc _ hy
    have hlen := (List.getElem?_eq_some_iff.mp hy).1
    unfold Child at hc
    omega
  | fuel + 1, q, i, hi, h => by
    unfold siftDown
    split
    · rename_i x y hx hy
      split
      · rename_i hlt
        have hlen : (swap q i (smallerChild key q i)).length = q.length := (swap_perm q _ _).length_eq
        have hc := smallerChild_child key q i
        refine siftDown_isHeap fuel ?_ (h.swap hx hy hlt)
        unfold Child at hc
        omega
      · rename_i hle
        refine h.isHeap ?_
        intro c u v hc hu hv
        rw [hx] at hu
        cases hu
        exact (not_lt.mp hle).trans (smallerChild_le hc hy hv)
    · rename_i hnone
      refine h.isHeap ?_
      intro c u v hc hu hv
      have hlt := smallerChild_lt key hc (List.getElem?_eq_some_iff.mp hv).1
      exact absurd (List.getElem?_eq_getElem hlt) (hnone u _ hu)

theorem siftDown_perm : ∀ (fuel : Nat) (q : List T) (i : Nat), (siftDown key fuel q i).Perm q
  | 0, q, _ => List.Perm.refl q
  | fuel + 1, q, i => by
    unfold siftDown
    split
    · split
      · exact (siftDown_perm fuel _ _).trans (swap_perm q _ _)
      · exact List.Perm.refl q
    · exact List.Perm.refl q

/-- What is in the new vector below the root was there in the old one. -/
theorem getElem?_replaceRoot {rest : List T} {x last u : T} {m : Nat} (hm : m ≠ 0)
    (hu : (last :: rest.dropLast)[m]? = some u) : (x :: rest)[m]? = some u := by
  obtain ⟨k, rfl⟩ := Nat.exists_eq_succ_of_ne_zero hm
  simp only [List.getElem?_cons_succ, List.getElem?_dropLast] at hu ⊢
  split at hu
  · exact hu
  · cases hu

/-- **A pop needs the heaps below the root only.** -/
theorem pop_isHeap (h : SubHeaps key q) : IsHeap key (pop key q) := by
  cases q with
  | nil => exact IsHeap.nil
  | cons x rest =>
    simp only [pop]
    split
    · exact IsHeap.nil
    · rename_i last hlast
      refine siftDown_isHeap _ ?_ ⟨?_, ?_⟩
      · simp only [List.length_cons, List.length_dropLast]
        omega
      · intro p c u v hc hp hu hv
        have hc0 : c ≠ 0 := by
          unfold Child at hc
          omega
        exact h p c u v hc hp (getElem?_replaceRoot hp hu) (getElem?_replaceRoot hc0 hv)
      · intro p c u v hp
        unfold Child at hp
        omega

theorem pop_perm (q : List T) : (pop key q).Perm q.tail := by
  cases q with
  | nil => exact List.Perm.refl _
  | cons x rest =>
    simp only [pop]
    split
    · rename_i hnone
      rw [List.getLast?_eq_none_iff] at hnone
      subst hnone
      exact List.Perm.refl _
    · rename_i last hlast
      have hrest : rest.dropLast ++ [last] = rest := List.dropLast_append_getLast? last hlast
      have hsift : (siftDown key rest.length (last :: rest.dropLast) 0).Perm (last :: rest.dropLast) :=
        siftDown_perm _ _ _
      have hback : (last :: rest.dropLast).Perm (rest.dropLast ++ [last]) := (List.perm_append_singleton _ _).symm
      rw [hrest] at hback
      exact hsift.trans hback

end Down

end Structures.BinaryHeap

namespace Structures

/-- The binary heap is a priority queue. -/
def binaryHeap (T K : Type*) [LinearOrder K] : PriorityQueue T K where
  push := BinaryHeap.push
  pop := BinaryHeap.pop
  push_perm _ q x := BinaryHeap.push_perm q x
  pop_perm _ q := BinaryHeap.pop_perm q
  push_heap x h := BinaryHeap.push_isHeap x h
  pop_heap h := BinaryHeap.pop_isHeap h

/-- A root whose key has grown is popped and pushed again. -/
example : let q := (binaryHeap Nat Nat).push id ((binaryHeap Nat Nat).push id [2] 5) 3
    (binaryHeap Nat Nat).pop (fun x => if x = 2 then 9 else x) q = [3, 5] := by decide

end Structures
