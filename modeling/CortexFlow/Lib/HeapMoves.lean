import CortexFlow.Lib.Heap

namespace CortexFlow.Lib

-- Elements that own something. An element that was moved from stays where it is
-- and owns nothing; assigning over an element releases what it owned.
structure Movable (α β : Type*) where
  husk : α → α
  held : α → List β
  held_husk : ∀ x, held (husk x) = []

namespace Heap

-- The cells of a vector, and what was released so far.
structure Cells (α β : Type*) (n : Nat) where
  vec : Vector α n
  released : List β

variable {α β κ : Type*} [LinearOrder κ] (key : α → κ) (m : Movable α β) {n : Nat}

-- `*dst = std::move(value)`
def Cells.assign (cells : Cells α β n) (dst : Fin n) (value : α) : Cells α β n :=
  ⟨cells.vec.set dst value dst.isLt, cells.released ++ m.held (cells.vec.get dst)⟩

-- `*dst = std::move(*src)`
def Cells.move (cells : Cells α β n) (dst src : Fin n) : Cells α β n :=
  let next := cells.assign m dst (cells.vec.get src)
  ⟨next.vec.set src (m.husk (cells.vec.get src)) src.isLt, next.released⟩

-- `__push_heap`: the hole rises to where `value` belongs.
def raise : Nat → Cells α β n → Fin n → α → Cells α β n
  | 0, cells, hole, value => cells.assign m hole value
  | fuel + 1, cells, hole, value =>
      if 0 < hole.val ∧ key value < key (cells.vec.get (parent hole)) then
        raise fuel (cells.move m hole (parent hole)) (parent hole) value
      else cells.assign m hole value

-- The loop of `__adjust_heap`: the hole sinks to a leaf.
def lower : Nat → Cells α β n → Fin n → Cells α β n × Fin n
  | 0, cells, hole => (cells, hole)
  | fuel + 1, cells, hole =>
      match leastChild key cells.vec hole with
      | none => (cells, hole)
      | some child => lower fuel (cells.move m hole child) child

-- `push_heap`, with the new element at the back.
def push_heap (v : Vector α (n + 1)) : Cells α β (n + 1) :=
  raise key m n ⟨v.set n (m.husk v.back) n.lt_succ_self, []⟩ (Fin.last n) v.back

-- `pop_heap`: the cells in front of the last one, and what that one has then.
def pop_heap (v : Vector α (n + 1)) : Cells α β n × α :=
  if hn : 0 < n then
    let cells : Cells α β (n + 1) := ⟨v.set n (m.husk v.back) n.lt_succ_self, []⟩
    let cells := cells.move m (Fin.last n) 0
    let hole := lower key m n ⟨cells.vec.pop, cells.released⟩ ⟨0, hn⟩
    (raise key m n hole.1 hole.2 v.back, cells.vec.back)
  else (⟨v.pop, []⟩, v.back)

variable {key} {m}

theorem get_set (v : Vector α n) (i j : Fin n) (x : α) :
    (v.set i x i.isLt).get j = if j = i then x else v.get j := by
  simp only [get_eq_getElem, Vector.getElem_set, Fin.ext_iff, eq_comm]

theorem set_swap (v : Vector α n) {i j : Fin n} (hne : j ≠ i) (x y : α) :
    ((v.set i (v.get j) i.isLt).set j y j.isLt).set j x j.isLt =
      (v.set i x i.isLt).swap i j i.isLt j.isLt := by
  apply Vector.ext
  intro k hk
  have hval : j.val ≠ i.val := fun h => hne (Fin.ext h)
  simp only [Vector.getElem_set, Vector.getElem_swap, get_eq_getElem]
  by_cases hki : k = i.val
  · subst hki
    simp [hval, hval.symm]
  · by_cases hkj : k = j.val
    · subst hkj
      simp [hki]
    · simp [hki, hkj, Ne.symm hki, Ne.symm hkj]

theorem Cells.move_released {cells : Cells α β n} {dst src : Fin n}
    (h : m.held (cells.vec.get dst) = []) : (cells.move m dst src).released = cells.released := by
  simp only [move, assign, h, List.append_nil]

theorem Cells.held_move (cells : Cells α β n) (dst src : Fin n) :
    m.held ((cells.move m dst src).vec.get src) = [] := by
  simp only [move, get_set, ite_true, m.held_husk]

theorem Cells.set_move (cells : Cells α β n) {dst src : Fin n} (hne : src ≠ dst) (value : α) :
    (cells.move m dst src).vec.set src value src.isLt =
      (cells.vec.set dst value dst.isLt).swap dst src dst.isLt src.isLt :=
  set_swap _ hne _ _

-- A rising hole that is filled in the end leaves what swapping would, and the
-- hole has nothing to release.
theorem raise_eq (fuel : Nat) (cells : Cells α β n) (hole : Fin n) (value : α)
    (h : m.held (cells.vec.get hole) = []) :
    raise key m fuel cells hole value =
      ⟨siftUp key fuel (cells.vec.set hole value hole.isLt) hole, cells.released⟩ := by
  have hstop : cells.assign m hole value =
      ⟨cells.vec.set hole value hole.isLt, cells.released⟩ := by
    simp only [Cells.assign, h, List.append_nil]
  induction fuel generalizing cells hole with
  | zero => exact hstop
  | succ fuel ih =>
      unfold raise siftUp
      simp only [get_set, ite_true]
      by_cases hroot : parent hole = hole
      · have hzero : ¬0 < hole.val := by
          have := congrArg Fin.val hroot
          simp only [parent_val] at this
          omega
        simp only [hroot, ite_true, lt_irrefl, ite_false, hzero, false_and, hstop]
      · have hpos : 0 < hole.val := by
          by_contra hn
          exact hroot (parent_root (by omega))
        simp only [hroot, ite_false, hpos, true_and]
        by_cases hlt : key value < key (cells.vec.get (parent hole))
        · have hnext := Cells.held_move (m := m) cells hole (parent hole)
          simp only [hlt, ite_true]
          rw [ih _ _ hnext (by simp only [Cells.assign, hnext, List.append_nil]),
            Cells.set_move cells hroot, Cells.move_released h]
        · simp only [hlt, ite_false, hstop]

theorem leastChild_set (v : Vector α n) (hole : Fin n) (value : α) :
    leastChild key (v.set hole value hole.isLt) hole = leastChild key v hole := by
  unfold leastChild
  simp only [get_set, Fin.ext_iff]
  have hl : ¬2 * hole.val + 1 = hole.val := by omega
  have hr : ¬2 * hole.val + 2 = hole.val := by omega
  simp only [hl, hr, ite_false]

variable (key) in
theorem lower_eq (fuel : Nat) (cells : Cells α β n) (hole : Fin n) (value : α)
    (h : m.held (cells.vec.get hole) = []) :
    ∃ v last, lower key m fuel cells hole = (⟨v, cells.released⟩, last) ∧
      m.held (v.get last) = [] ∧
      sink key fuel (cells.vec.set hole value hole.isLt) hole =
        (v.set last value last.isLt, last) := by
  induction fuel generalizing cells hole with
  | zero => exact ⟨cells.vec, hole, rfl, h, rfl⟩
  | succ fuel ih =>
      cases hc : leastChild key cells.vec hole with
      | none =>
          refine ⟨cells.vec, hole, ?_, h, ?_⟩
          · simp only [lower, hc]
          · simp only [sink, leastChild_set, hc]
      | some child =>
          have hne := (leastChild_some hc).1
          obtain ⟨v, last, hlower, hheld, hsink⟩ :=
            ih (cells.move m hole child) child (Cells.held_move cells hole child)
          refine ⟨v, last, ?_, hheld, ?_⟩
          · simp only [lower, hc, hlower, Cells.move_released h]
          · simp only [sink, leastChild_set, hc]
            rw [← hsink, Cells.set_move cells hne]

-- The back of the vector is a hole once its element was moved out.
theorem held_back (v : Vector α (n + 1)) :
    m.held ((v.set n (m.husk v.back) n.lt_succ_self).get (Fin.last n)) = [] := by
  rw [show v.set n (m.husk v.back) n.lt_succ_self =
    v.set (Fin.last n) (m.husk v.back) (Fin.last n).isLt from rfl, get_set]
  simp only [ite_true, m.held_husk]

theorem set_back (v : Vector α (n + 1)) (x : α) :
    (v.set n x n.lt_succ_self).set (Fin.last n) v.back (Fin.last n).isLt = v := by
  apply Vector.ext
  intro k hk
  simp only [Fin.val_last, Vector.getElem_set, Vector.back_eq_getElem]
  split_ifs with hkn
  · subst hkn
    rfl
  · rfl

-- Moving the elements around in `push_heap` and `pop_heap` releases nothing, and
-- puts each where the swaps do.
theorem push_heap_eq (v : Vector α (n + 1)) :
    push_heap key m v = ⟨siftUp key n v (Fin.last n), []⟩ := by
  unfold push_heap
  rw [raise_eq _ _ _ _ (held_back v)]
  simp only [set_back]

theorem pop_heap_eq (v : Vector α (n + 1)) :
    pop_heap key m v = (⟨adjust key (v.swap 0 n n.succ_pos n.lt_succ_self).pop, []⟩,
      getElem v 0 n.succ_pos) := by
  unfold pop_heap adjust
  split_ifs with hn
  · -- The front was moved to the back, so the hole is at the root.
    obtain ⟨cells, hcells⟩ : ∃ cells : Cells α β (n + 1),
      cells = Cells.move m ⟨v.set n (m.husk v.back), []⟩ (Fin.last n) 0 := ⟨_, rfl⟩
    have hreleased : cells.released = [] := hcells ▸ Cells.move_released (held_back v)
    have hroot : m.held (cells.vec.pop.get ⟨0, hn⟩) = [] := by
      have := Cells.held_move (m := m) ⟨v.set n (m.husk v.back), []⟩ (Fin.last n) 0
      rw [← hcells] at this
      simpa only [get_eq_getElem, Vector.getElem_pop, Fin.val_zero] using this
    have hback : cells.vec.back = v[0] := by
      have hn0 : n ≠ 0 := Nat.pos_iff_ne_zero.mp hn
      rw [Vector.back_eq_getElem, hcells]
      simp [Cells.move, Cells.assign, get_eq_getElem, hn0, hn0.symm]
    have hfill : cells.vec.pop.set (⟨0, hn⟩ : Fin n) v.back = (v.swap 0 n).pop := by
      apply Vector.ext
      intro k hk
      simp only [hcells, Cells.move, Cells.assign, Vector.back_eq_getElem, get_eq_getElem,
        Vector.getElem_set, Vector.getElem_pop, Vector.getElem_swap, Fin.val_zero, Fin.val_last]
      have hkn : n ≠ k := by omega
      by_cases hk0 : k = 0
      · simp only [hk0, ite_true, Nat.add_sub_cancel]
      · simp only [hkn, hkn.symm, Ne.symm hk0, hk0, ite_false]
    obtain ⟨w, last, hlower, hheld, hsink⟩ :=
      lower_eq key n (⟨cells.vec.pop, []⟩ : Cells α β n) ⟨0, hn⟩ v.back hroot
    have hraise : raise key m n ⟨w, []⟩ last v.back = ⟨siftUp key n (w.set last v.back) last, []⟩ :=
      raise_eq n ⟨w, []⟩ last v.back hheld
    simp only at hsink hlower
    rw [hfill] at hsink
    simp only [← hcells, hreleased, hlower, hraise, hback, hsink]
  · obtain rfl : n = 0 := by omega
    refine Prod.ext (congrArg (Cells.mk · []) ?_) ?_
    · exact Vector.ext fun k hk => absurd hk (Nat.not_lt_zero k)
    · exact Vector.back_eq_getElem

-- What `push_back` and `push_heap`, and what `pop_heap`, release of a heap.
def pushReleased (m : Movable α β) (heap : Heap key) (x : α) : List β :=
  (push_heap key m (heap.vec.push x)).released

def popReleased (m : Movable α β) (heap : Heap key) : List β :=
  match heap with
  | ⟨0, _, _⟩ => []
  | ⟨_ + 1, vec, _⟩ => (pop_heap key m vec).1.released

@[simp] theorem pushReleased_eq (m : Movable α β) (heap : Heap key) (x : α) :
    pushReleased m heap x = [] := by
  simp only [pushReleased, push_heap_eq]

@[simp] theorem popReleased_eq (m : Movable α β) (heap : Heap key) : popReleased m heap = [] := by
  match heap with
  | ⟨0, _, _⟩ => rfl
  | ⟨_ + 1, vec, _⟩ => simp only [popReleased, pop_heap_eq]

-- What the heap has after the moves is what `push` and `pop` say.
theorem push_vec (m : Movable α β) (heap : Heap key) (x : α) :
    (push_heap key m (heap.vec.push x)).vec = (heap.push x).vec := by
  rw [push_heap_eq]
  rfl

theorem pop_vec (m : Movable α β) (vec : Vector α (n + 1)) (ordered : Ordered key vec) :
    (pop_heap key m vec).1.vec = (pop ⟨n + 1, vec, ordered⟩).vec ∧
      front? ⟨n + 1, vec, ordered⟩ = some (pop_heap key m vec).2 := by
  rw [pop_heap_eq]
  exact ⟨rfl, Vector.getElem?_eq_getElem (Nat.succ_pos n)⟩

end Heap

end CortexFlow.Lib
