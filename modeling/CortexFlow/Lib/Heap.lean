import Mathlib

namespace CortexFlow.Lib

-- Binary heaps kept in a vector, least key at the front. The algorithms are the
-- ones libstdc++ uses for `push_heap` and `pop_heap`, so that elements with
-- equal keys end up where they do there.
namespace Heap

variable {α κ : Type*} [LinearOrder κ] (key : α → κ) {n : Nat}

def parent (i : Fin n) : Fin n := ⟨(i.val - 1) / 2, by omega⟩

def Ordered (v : Vector α n) : Prop :=
  ∀ i : Fin n, key (v.get (parent i)) ≤ key (v.get i)

-- Let the element at `i` rise while it sorts before its parent.
def siftUp : Nat → Vector α n → Fin n → Vector α n
  | 0, v, _ => v
  | fuel + 1, v, i =>
      if key (v.get i) < key (v.get (parent i)) then
        siftUp fuel (v.swap i (parent i)) (parent i)
      else v

-- Of two children with equal keys this is the right one.
def leastChild (v : Vector α n) (i : Fin n) : Option (Fin n) :=
  if hr : 2 * i.val + 2 < n then
    if key (v.get ⟨2 * i.val + 1, by omega⟩) < key (v.get ⟨2 * i.val + 2, hr⟩) then
      some ⟨2 * i.val + 1, by omega⟩
    else some ⟨2 * i.val + 2, hr⟩
  else if hl : 2 * i.val + 1 < n then some ⟨2 * i.val + 1, hl⟩
  else none

-- Move the element at `i` down to a leaf, along the least children.
def sink : Nat → Vector α n → Fin n → Vector α n × Fin n
  | 0, v, i => (v, i)
  | fuel + 1, v, i =>
      match leastChild key v i with
      | none => (v, i)
      | some child => sink fuel (v.swap i child) child

-- Put the element at the root where it belongs.
def adjust (v : Vector α n) : Vector α n :=
  if hn : 0 < n then siftUp key n (sink key n v ⟨0, hn⟩).1 (sink key n v ⟨0, hn⟩).2 else v

@[simp] theorem parent_val (i : Fin n) : (parent i).val = (i.val - 1) / 2 := rfl

theorem parent_eq_iff {i j : Fin n} (hj : j ≠ i) :
    parent j = i ↔ j.val = 2 * i.val + 1 ∨ j.val = 2 * i.val + 2 := by
  rw [Fin.ext_iff, parent_val]
  have : j.val ≠ i.val := fun h => hj (Fin.ext h)
  omega

theorem parent_root {i : Fin n} (hi : i.val = 0) : parent i = i :=
  Fin.ext (by simp only [parent_val]; omega)

theorem get_eq_getElem (v : Vector α n) (i : Fin n) : v.get i = v[i.val] := rfl

theorem get_swap (v : Vector α n) (i j k : Fin n) :
    (v.swap i j).get k = if k = i then v.get j else if k = j then v.get i else v.get k := by
  simp only [get_eq_getElem, Vector.getElem_swap, Fin.ext_iff]

-- The pairs above and below `i` are in order, whatever stands at `i` itself.
structure OrderedAround (v : Vector α n) (i : Fin n) : Prop where
  away : ∀ j, j ≠ i → parent j ≠ i → key (v.get (parent j)) ≤ key (v.get j)
  across : parent i ≠ i → ∀ j, j ≠ i → parent j = i → key (v.get (parent i)) ≤ key (v.get j)

-- Only the pair of `i` and its parent may be out of order.
structure OrderedBelow (v : Vector α n) (i : Fin n) : Prop extends OrderedAround key v i where
  below : ∀ j, j ≠ i → parent j = i → key (v.get i) ≤ key (v.get j)

variable {key}

theorem OrderedBelow.other {v : Vector α n} {i : Fin n} (h : OrderedBelow key v i) (j : Fin n)
    (hj : j ≠ i) : key (v.get (parent j)) ≤ key (v.get j) := by
  by_cases hp : parent j = i
  · rw [hp]
    exact h.below j hj hp
  · exact h.away j hj hp

theorem OrderedBelow.ordered {v : Vector α n} {i : Fin n} (h : OrderedBelow key v i)
    (hi : key (v.get (parent i)) ≤ key (v.get i)) : Ordered key v := by
  intro j
  by_cases hj : j = i
  · exact hj ▸ hi
  · exact h.other j hj

theorem OrderedBelow.rise {v : Vector α n} {i : Fin n} (h : OrderedBelow key v i)
    (hlt : key (v.get i) < key (v.get (parent i))) :
    OrderedBelow key (v.swap i (parent i)) (parent i) := by
  have hi : parent i ≠ i := fun he => absurd hlt (by rw [he]; exact lt_irrefl _)
  refine ⟨⟨fun j hj hp => ?_, fun hroot j hj hp => ?_⟩, fun j hj hp => ?_⟩
  · have hji : j ≠ i := fun he => hp (congrArg parent he)
    simp only [get_swap, hp, hji, hj, ite_false]
    by_cases hpj : parent j = i
    · simp only [hpj, ite_true]
      exact h.across hi j hji hpj
    · simp only [hpj, ite_false]
      exact h.away j hji hpj
  · have htop : key ((v.swap i (parent i)).get (parent (parent i))) ≤ key (v.get (parent i)) := by
      simp only [get_swap, hroot, ite_false]
      split_ifs
      · exact le_rfl
      · exact h.other (parent i) hi
    apply htop.trans
    by_cases hji : j = i
    · simp only [get_swap, hji, ite_true, le_refl]
    · simp only [get_swap, hji, hj, ite_false]
      exact hp ▸ h.other j hji
  · simp only [get_swap, hi, ite_true, ite_false]
    by_cases hji : j = i
    · simp only [hji, ite_true, hlt.le]
    · simp only [hji, hj, ite_false]
      exact hlt.le.trans (hp ▸ h.other j hji)

theorem siftUp_ordered (fuel : Nat) (v : Vector α n) (i : Fin n) (h : OrderedBelow key v i)
    (hf : i.val ≤ fuel) : Ordered key (siftUp key fuel v i) := by
  induction fuel generalizing v i with
  | zero => exact h.ordered (by rw [parent_root (by omega)])
  | succ fuel ih =>
      unfold siftUp
      split_ifs with hlt
      · have hi : i.val ≠ 0 := fun h0 => absurd hlt (by rw [parent_root h0]; exact lt_irrefl _)
        exact ih _ _ (h.rise hlt) (by simp only [parent_val]; omega)
      · exact h.ordered (le_of_not_gt hlt)

theorem leastChild_none {v : Vector α n} {i : Fin n} (h : leastChild key v i = none) :
    n ≤ 2 * i.val + 1 := by
  unfold leastChild at h
  split_ifs at h
  omega

theorem leastChild_some {v : Vector α n} {i child : Fin n} (h : leastChild key v i = some child) :
    child ≠ i ∧ parent child = i ∧
      ∀ j, j ≠ i → parent j = i → key (v.get child) ≤ key (v.get j) := by
  have hchild : child.val = 2 * i.val + 1 ∨ child.val = 2 * i.val + 2 := by
    unfold leastChild at h
    split_ifs at h <;> cases h <;> simp
  have hne : child ≠ i := by
    rintro rfl
    omega
  refine ⟨hne, (parent_eq_iff hne).mpr hchild, fun j hj hp => ?_⟩
  have hv := (parent_eq_iff hj).mp hp
  have hjn := j.isLt
  unfold leastChild at h
  split_ifs at h with hr hlt hl <;> cases h
  · rcases hv with hv | hv
    · rw [show j = ⟨2 * i.val + 1, by omega⟩ from Fin.ext hv]
    · rw [show j = ⟨2 * i.val + 2, hr⟩ from Fin.ext hv]
      exact hlt.le
  · rcases hv with hv | hv
    · rw [show j = ⟨2 * i.val + 1, by omega⟩ from Fin.ext hv]
      exact le_of_not_gt hlt
    · rw [show j = ⟨2 * i.val + 2, hr⟩ from Fin.ext hv]
  · rw [show j = ⟨2 * i.val + 1, hl⟩ from Fin.ext (by simp only; omega)]

theorem OrderedAround.sink {v : Vector α n} {i child : Fin n} (h : OrderedAround key v i)
    (hc : leastChild key v i = some child) : OrderedAround key (v.swap i child) child := by
  obtain ⟨hne, hpc, hleast⟩ := leastChild_some hc
  refine ⟨fun j hj hp => ?_, fun _ j hj hp => ?_⟩
  · by_cases hji : j = i
    · subst hji
      by_cases hpj : parent j = j
      · rw [hpj]
      · simp only [get_swap, hp, hpj, ite_true, ite_false]
        exact h.across hpj child hne hpc
    · simp only [get_swap, hp, hji, hj, ite_false]
      by_cases hpj : parent j = i
      · simp only [hpj, ite_true]
        exact hleast j hji hpj
      · simp only [hpj, ite_false]
        exact h.away j hji hpj
  · have hji : j ≠ i := by
      rintro rfl
      have := (parent_eq_iff hne).mp hpc
      have := congrArg Fin.val hp
      simp only [parent_val] at this
      omega
    simp only [get_swap, hpc, hji, hj, ite_true, ite_false]
    exact hp ▸ h.away j hji (by rw [hp]; exact hne)

theorem sink_orderedBelow (fuel : Nat) (v : Vector α n) (i : Fin n) (h : OrderedAround key v i)
    (hf : n ≤ i.val + fuel) :
    OrderedBelow key (sink key fuel v i).1 (sink key fuel v i).2 := by
  induction fuel generalizing v i with
  | zero => have := i.isLt; omega
  | succ fuel ih =>
      simp only [sink]
      cases hc : leastChild key v i with
      | none =>
          refine ⟨h, fun j hj hp => ?_⟩
          have hleaf := leastChild_none hc
          have hv := (parent_eq_iff hj).mp hp
          simp only at hv
          omega
      | some child =>
          obtain ⟨hne, hpc, _⟩ := leastChild_some hc
          have := (parent_eq_iff hne).mp hpc
          exact ih _ _ (h.sink hc) (by omega)

theorem adjust_ordered (v : Vector α n) (h : ∀ hn, OrderedAround key v ⟨0, hn⟩) :
    Ordered key (adjust key v) := by
  unfold adjust
  split_ifs with hn
  · apply siftUp_ordered
    · exact sink_orderedBelow n v ⟨0, hn⟩ (h hn) (by omega)
    · have := (sink key n v ⟨0, hn⟩).2.isLt
      omega
  · intro i
    exact absurd i.pos hn

theorem siftUp_perm (fuel : Nat) (v : Vector α n) (i : Fin n) :
    (siftUp key fuel v i).Perm v := by
  induction fuel generalizing v i with
  | zero => exact .rfl
  | succ fuel ih =>
      unfold siftUp
      split_ifs
      · exact (ih _ _).trans (Vector.swap_perm _ _)
      · exact .rfl

theorem sink_perm (fuel : Nat) (v : Vector α n) (i : Fin n) :
    (sink key fuel v i).1.Perm v := by
  induction fuel generalizing v i with
  | zero => exact .rfl
  | succ fuel ih =>
      simp only [sink]
      cases leastChild key v i with
      | none => exact .rfl
      | some child => exact (ih _ _).trans (Vector.swap_perm _ _)

theorem adjust_perm (v : Vector α n) : (adjust key v).Perm v := by
  unfold adjust
  split_ifs
  · exact (siftUp_perm _ _ _).trans (sink_perm _ _ _)
  · exact .rfl

theorem Ordered.root_le {v : Vector α n} (h : Ordered key v) (i : Fin n) :
    key (v.get ⟨0, i.pos⟩) ≤ key (v.get i) := by
  obtain ⟨k, hk⟩ := i
  induction k using Nat.strongRecOn with
  | _ k ih =>
      by_cases h0 : k = 0
      · subst h0
        exact le_rfl
      · exact (ih ((k - 1) / 2) (by omega) (by omega)).trans (h ⟨k, hk⟩)

theorem push_orderedBelow {v : Vector α n} (h : Ordered key v) (x : α) :
    OrderedBelow key (v.push x) (Fin.last n) := by
  have hpar (j : Fin (n + 1)) : parent j = Fin.last n → j = Fin.last n := by
    intro hp
    have hv := congrArg Fin.val hp
    simp only [parent_val, Fin.val_last] at hv
    exact Fin.ext (by simp only [Fin.val_last]; omega)
  have hget (j : Fin (n + 1)) (hj : j ≠ Fin.last n) :
      (v.push x).get j = v.get (j.castLT (Fin.val_lt_last hj)) := by
    simp only [get_eq_getElem]
    exact Vector.getElem_push_lt (Fin.val_lt_last hj)
  refine ⟨⟨fun j hj hp => ?_, fun _ j hj hp => absurd (hpar j hp) hj⟩,
    fun j hj hp => absurd (hpar j hp) hj⟩
  rw [hget j hj, hget (parent j) hp]
  exact h (j.castLT (Fin.val_lt_last hj))

theorem swap_pop_orderedAround {v : Vector α (n + 1)} (h : Ordered key v) (hn : 0 < n) :
    OrderedAround key (v.swap 0 n).pop ⟨0, hn⟩ := by
  have hget (j : Fin n) (hj : j ≠ ⟨0, hn⟩) : (v.swap 0 n).pop.get j = v.get j.castSucc := by
    have : j.val ≠ 0 := fun he => hj (Fin.ext he)
    simp only [get_eq_getElem]
    rw [Vector.getElem_pop, Vector.getElem_swap_of_ne (by omega) (by omega)]
    rfl
  refine ⟨fun j hj hp => ?_, fun hroot => absurd (parent_root rfl) hroot⟩
  rw [hget j hj, hget _ hp]
  exact h j.castSucc

end Heap

-- A vector that is a heap for `key`.
structure Heap {α κ : Type*} [LinearOrder κ] (key : α → κ) where
  size : Nat
  vec : Vector α size
  ordered : Heap.Ordered key vec

namespace Heap

variable {α κ : Type*} [LinearOrder κ] {key : α → κ}

def empty : Heap key := ⟨0, #v[], fun i => i.elim0⟩

def toList (heap : Heap key) : List α := heap.vec.toList

def front? (heap : Heap key) : Option α := heap.vec[0]?

-- `push_back`, then `push_heap`.
def push (heap : Heap key) (x : α) : Heap key where
  size := heap.size + 1
  vec := siftUp key heap.size (heap.vec.push x) (Fin.last heap.size)
  ordered := siftUp_ordered _ _ _ (push_orderedBelow heap.ordered x) (Nat.le_refl _)

-- `pop_heap`, then `pop_back`.
def pop (heap : Heap key) : Heap key :=
  match heap with
  | ⟨0, vec, ordered⟩ => ⟨0, vec, ordered⟩
  | ⟨n + 1, vec, ordered⟩ =>
      ⟨n, adjust key (vec.swap 0 n).pop,
        adjust_ordered _ fun hn => swap_pop_orderedAround ordered hn⟩

theorem toList_push (heap : Heap key) (x : α) : (heap.push x).toList.Perm (x :: heap.toList) := by
  have h : (heap.push x).toList.Perm (heap.vec.push x).toList := (siftUp_perm _ _ _).toList
  rw [Vector.toList_push] at h
  exact h.trans (List.perm_append_singleton x heap.vec.toList)

theorem front?_eq_none_iff (heap : Heap key) : heap.front? = none ↔ heap.toList = [] := by
  unfold front? toList
  rw [← List.length_eq_zero_iff, Vector.length_toList, Vector.getElem?_eq_none_iff]
  omega

theorem toList_swap_last {n : Nat} (v : Vector α (n + 1)) :
    v.toList.Perm (v[0] :: (v.swap 0 n).pop.toList) := by
  have hback : (v.swap 0 n).back = v[0] := by
    rw [Vector.back_eq_getElem]
    exact Vector.getElem_swap_right _ _
  have hlast : (v.swap 0 n).toList = (v.swap 0 n).pop.toList ++ [v[0]] := by
    rw [← hback, ← Vector.toList_push, Vector.push_pop_back]
  have hperm : (v.swap 0 n).toList.Perm v.toList := (Vector.swap_perm _ _).toList
  rw [hlast] at hperm
  exact hperm.symm.trans (List.perm_append_singleton _ _)

theorem toList_pop {heap : Heap key} {x : α} (h : heap.front? = some x) :
    heap.toList.Perm (x :: heap.pop.toList) := by
  obtain ⟨n, vec, ordered⟩ := heap
  obtain ⟨hn, rfl⟩ := Vector.getElem?_eq_some_iff.mp h
  match n with
  | n + 1 =>
      have hadjust : (adjust key (vec.swap 0 n).pop).toList.Perm (vec.swap 0 n).pop.toList :=
        (adjust_perm _).toList
      exact (toList_swap_last vec).trans (hadjust.symm.cons _)

theorem front_le {heap : Heap key} {x y : α} (h : heap.front? = some x) (hy : y ∈ heap.toList) :
    key x ≤ key y := by
  obtain ⟨hn, rfl⟩ := Vector.getElem?_eq_some_iff.mp h
  obtain ⟨i, hi, rfl⟩ := Vector.mem_iff_getElem.mp (Vector.mem_toList_iff.mp hy)
  exact heap.ordered.root_le ⟨i, hi⟩

theorem length_pop {heap : Heap key} {x : α} (h : heap.front? = some x) :
    heap.toList.length = heap.pop.toList.length + 1 :=
  (toList_pop h).length_eq

end Heap

end CortexFlow.Lib
