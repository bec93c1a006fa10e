import CortexFlow.Core
import Mathlib

namespace CortexFlow

namespace Cache

structure Subscriber where
  key_type_id : type_id_t
  subscriber_id : type_id_t
  active : Bool
deriving DecidableEq

def kPoolCapacity (kMaxSubscriptions : Nat) : Nat :=
  if kMaxSubscriptions = 0 then 1 else kMaxSubscriptions

-- The part of a `Cache` that keeps its subscriptions. `n` is `kMaxSubscriptions`.
structure Pool (n : Nat) where
  subs_ : Vector Subscriber (kPoolCapacity n)
  order_ : Vector Nat (kPoolCapacity n)
  num_active_ : Nat
deriving DecidableEq

namespace Pool

variable {n : Nat}

def empty (n : Nat) : Pool n := ⟨Vector.replicate _ ⟨0, 0, false⟩, Vector.replicate _ 0, 0⟩

def isActive (pool : Pool n) (slot_idx : Nat) : Bool :=
  pool.subs_[slot_idx]?.any Subscriber.active

-- The reason is formatted into a buffer of 192 bytes.
def overflowReason (n : Nat) (key : String) : String :=
  String.ofList (("Cache subscription pool overflow (capacity=" ++ toString n ++ ", key=" ++ key ++
    ")").toList.take 191)

def find_free_slot (pool : Pool n) : Option Nat :=
  (List.range n).find? fun i => !pool.isActive i

def fill (pool : Pool n) (slot_idx : Nat) (subscriber : Subscriber) : Pool n where
  subs_ := pool.subs_.setIfInBounds slot_idx subscriber
  order_ := pool.order_.setIfInBounds pool.num_active_ slot_idx
  num_active_ := pool.num_active_ + 1

def subscribe (pool : Pool n) (key : String) (key_type_id subscriber_id : type_id_t) :
    Outcome (Pool n) Nat :=
  if n ≤ pool.num_active_ then .fault pool (overflowReason n key)
  else
    match pool.find_free_slot with
    | none => .fault pool "Cache: no free subscription slot despite count < capacity"
    | some slot_idx => .ok (pool.fill slot_idx ⟨key_type_id, subscriber_id, true⟩) slot_idx

def deactivate {m : Nat} (subs : Vector Subscriber m) (slot_idx : Nat) : Vector Subscriber m :=
  match subs[slot_idx]? with
  | none => subs
  | some subscriber => subs.setIfInBounds slot_idx { subscriber with active := false }

-- The loop that closes the gap: entries `i, i + 1, ...` move down by one.
def shift {m : Nat} (order : Vector Nat m) : Nat → Nat → Vector Nat m
  | 0, _ => order
  | left + 1, i => shift (order.setIfInBounds (i - 1) (order[i]?.getD 0)) left (i + 1)

def vacate (pool : Pool n) (slot_idx pos : Nat) : Pool n where
  subs_ := deactivate pool.subs_ slot_idx
  order_ := shift pool.order_ (pool.num_active_ - (pos + 1)) (pos + 1)
  num_active_ := pool.num_active_ - 1

-- Where the slot stands in `order_`, or `num_active_` if it does not.
def position (pool : Pool n) (slot_idx : Nat) : Nat :=
  ((List.range pool.num_active_).find? fun i => pool.order_[i]? = some slot_idx).getD
    pool.num_active_

def release_slot (pool : Pool n) (slot_idx : Nat) : Outcome (Pool n) Unit :=
  if n ≤ slot_idx then .fault pool "Cache::release_slot: slot index out of range"
  else if !pool.isActive slot_idx then .fault pool "Cache::release_slot: slot already inactive"
  else if pool.num_active_ ≤ pool.position slot_idx then
    .fault { pool with subs_ := deactivate pool.subs_ slot_idx }
      "Cache::release_slot: slot not present in order list"
  else .ok (pool.vacate slot_idx (pool.position slot_idx)) ()

-- The slots in registration order.
def live (pool : Pool n) : List Nat := pool.order_.toList.take pool.num_active_

structure WellFormed (pool : Pool n) : Prop where
  count : pool.num_active_ ≤ n
  nodup : pool.live.Nodup
  mem_live : ∀ i, i ∈ pool.live ↔ pool.isActive i
  range : ∀ i, pool.isActive i → i < n

theorem le_capacity (n : Nat) : n ≤ kPoolCapacity n := by
  unfold kPoolCapacity
  split_ifs <;> omega

theorem isActive_deactivate (pool : Pool n) (i j : Nat) :
    ((deactivate pool.subs_ i)[j]?.any Subscriber.active = true) ↔ pool.isActive j ∧ j ≠ i := by
  unfold deactivate isActive
  split
  · rename_i hn
    refine ⟨fun h => ⟨h, fun hj => ?_⟩, And.left⟩
    rw [hj, hn] at h
    exact nomatch h
  · rename_i subscriber hs
    have hi := (Vector.getElem?_eq_some_iff.mp hs).1
    by_cases hj : j = i
    · simp [hj, hi]
    · simp [hj, Ne.symm hj]

theorem getElem?_deactivate_of_ne {m : Nat} (subs : Vector Subscriber m) {i j : Nat} (h : j ≠ i) :
    (deactivate subs i)[j]? = subs[j]? := by
  unfold deactivate
  split
  · rfl
  · simp [Ne.symm h]

theorem getElem?_live (pool : Pool n) (k : Nat) :
    pool.live[k]? = if k < pool.num_active_ then pool.order_[k]? else none := by
  simp only [live, List.getElem?_take, Vector.getElem?_toList]

theorem length_live {pool : Pool n} (h : pool.WellFormed) :
    pool.live.length = pool.num_active_ := by
  have := le_capacity n
  have := h.count
  simp only [live, List.length_take, Vector.length_toList]
  omega

theorem getElem?_shift {m : Nat} (order : Vector Nat m) (left i j : Nat) (hi : 1 ≤ i)
    (hm : i + left ≤ m) :
    (shift order left i)[j]? =
      if i ≤ j + 1 ∧ j + 1 < i + left then order[j + 1]? else order[j]? := by
  induction left generalizing order i with
  | zero =>
      have : ¬(i ≤ j + 1 ∧ j + 1 < i + 0) := by omega
      simp only [shift, this, ite_false]
  | succ left ih =>
      simp only [shift]
      rw [ih _ _ (by omega) (by omega)]
      have hget : order[i]? = some (order[i]?.getD 0) := by
        rw [Vector.getElem?_eq_getElem (by omega), Option.getD_some]
      simp only [Vector.getElem?_setIfInBounds]
      by_cases hj : j + 1 = i
      · subst hj
        have hne : ¬(j + 1 + 1 ≤ j + 1 ∧ j + 1 < j + 1 + 1 + left) := by omega
        have hin : j + 1 ≤ j + 1 ∧ j + 1 < j + 1 + (left + 1) := by omega
        have hjm : j < m := by omega
        simp only [hne, hin, ite_false, Nat.add_sub_cancel, ite_true, hjm]
        exact hget.symm
      · have h1 : i - 1 ≠ j := by omega
        simp only [h1, ite_false]
        split_ifs with h2 h3 h4 h5 <;> first | rfl | omega

theorem not_isActive_empty (i : Nat) : ¬(empty n).isActive i := by
  simp only [isActive, empty, Vector.getElem?_replicate]
  split_ifs <;> simp

theorem wellFormed_empty (n : Nat) : (empty n).WellFormed where
  count := Nat.zero_le n
  nodup := List.nodup_nil
  mem_live := fun i => by
    have hlive : (empty n).live = [] := rfl
    simp [hlive, not_isActive_empty i]
  range := fun i h => absurd h (not_isActive_empty i)

-- While fewer slots are taken than there are, one of them is free.
theorem find_free_slot_some {pool : Pool n} (h : pool.WellFormed) (hlt : pool.num_active_ < n) :
    ∃ i, pool.find_free_slot = some i ∧ i < n ∧ ¬pool.isActive i := by
  cases hfind : pool.find_free_slot with
  | some i =>
      have hactive := List.find?_some hfind
      have hmem := List.mem_of_find?_eq_some hfind
      exact ⟨i, rfl, List.mem_range.mp hmem, by simpa using hactive⟩
  | none =>
      have hsub : List.range n ⊆ pool.live := by
        intro i hi
        have := List.find?_eq_none.mp hfind i hi
        rw [h.mem_live]
        simpa using this
      have hlen := (List.subperm_of_subset List.nodup_range hsub).length_le
      rw [List.length_range, length_live h] at hlen
      omega

theorem subscribe_full {pool : Pool n} (h : n ≤ pool.num_active_) (key : String)
    (key_type_id subscriber_id : type_id_t) :
    pool.subscribe key key_type_id subscriber_id = .fault pool (overflowReason n key) :=
  if_pos h

theorem isActive_fill (pool : Pool n) {i : Nat} (hi : i < kPoolCapacity n) (j : Nat)
    (key_type_id subscriber_id : type_id_t) :
    (pool.fill i ⟨key_type_id, subscriber_id, true⟩).isActive j ↔ pool.isActive j ∨ j = i := by
  simp only [isActive, fill, Vector.getElem?_setIfInBounds]
  by_cases hj : i = j
  · subst hj
    simp [hi]
  · simp [hj, Ne.symm hj]

theorem live_fill {pool : Pool n} (h : pool.WellFormed) (hlt : pool.num_active_ < n) (i : Nat)
    (subscriber : Subscriber) : (pool.fill i subscriber).live = pool.live ++ [i] := by
  have hcap := le_capacity n
  apply List.ext_getElem?
  intro k
  rw [List.getElem?_append, length_live h, getElem?_live, getElem?_live]
  simp only [fill, Vector.getElem?_setIfInBounds]
  cases Nat.lt_trichotomy k pool.num_active_ with
  | inl hk =>
      have h1 : k < pool.num_active_ + 1 := by omega
      have h2 : pool.num_active_ ≠ k := by omega
      simp only [h1, h2, hk, ite_true, ite_false]
  | inr hk =>
      cases hk with
      | inl hk =>
          subst hk
          have h1 : pool.num_active_ < kPoolCapacity n := by omega
          simp [h1]
      | inr hk =>
          have h1 : ¬k < pool.num_active_ + 1 := by omega
          have h2 : ¬k < pool.num_active_ := by omega
          have h3 : [i].length ≤ k - pool.num_active_ := by
            simp only [List.length_singleton]
            omega
          simp only [h1, h2, ite_false, List.getElem?_eq_none h3]

theorem wellFormed_fill {pool : Pool n} (h : pool.WellFormed) (hlt : pool.num_active_ < n)
    {i : Nat} (hi : i < n) (hfree : ¬pool.isActive i) (key_type_id subscriber_id : type_id_t) :
    (pool.fill i ⟨key_type_id, subscriber_id, true⟩).WellFormed := by
  have hactive (j : Nat) :=
    isActive_fill pool (Nat.lt_of_lt_of_le hi (le_capacity n)) j key_type_id subscriber_id
  refine ⟨hlt, ?_, fun j => ?_, fun j hj => ?_⟩
  · rw [live_fill h hlt]
    refine List.nodup_append.mpr ⟨h.nodup, List.nodup_singleton i, fun a ha b hb hab => ?_⟩
    rw [List.mem_singleton.mp hb] at hab
    exact hfree ((h.mem_live i).mp (hab ▸ ha))
  · rw [live_fill h hlt, List.mem_append, List.mem_singleton, hactive, h.mem_live]
  · cases (hactive j).mp hj with
    | inl hj => exact h.range j hj
    | inr hj => exact hj ▸ hi

theorem subscribe_ok {pool : Pool n} (h : pool.WellFormed) (hlt : pool.num_active_ < n)
    (key : String) (key_type_id subscriber_id : type_id_t) :
    ∃ i, i < n ∧ ¬pool.isActive i ∧ pool.subscribe key key_type_id subscriber_id =
      .ok (pool.fill i ⟨key_type_id, subscriber_id, true⟩) i := by
  obtain ⟨i, hfind, hi, hfree⟩ := find_free_slot_some h hlt
  refine ⟨i, hi, hfree, ?_⟩
  simp only [subscribe, Nat.not_le.mpr hlt, ite_false, hfind]

-- An active slot stands in the order list, at a position below the count.
theorem position_spec {pool : Pool n} (h : pool.WellFormed) {i : Nat} (hi : pool.isActive i) :
    pool.position i < pool.num_active_ ∧ pool.live[pool.position i]? = some i := by
  unfold position
  obtain ⟨k, hk⟩ := List.mem_iff_getElem?.mp ((h.mem_live i).mpr hi)
  rw [getElem?_live] at hk
  split_ifs at hk with hlt
  cases hfind : (List.range pool.num_active_).find? fun j => pool.order_[j]? = some i with
  | none =>
      have := List.find?_eq_none.mp hfind k (List.mem_range.mpr hlt)
      exact absurd (decide_eq_true hk) this
  | some pos =>
      have hpos := List.mem_range.mp (List.mem_of_find?_eq_some hfind)
      have hget : pool.order_[pos]? = some i := by simpa using List.find?_some hfind
      rw [Option.getD_some]
      exact ⟨hpos, by rw [getElem?_live, if_pos hpos, hget]⟩

theorem live_vacate {pool : Pool n} (h : pool.WellFormed) (i : Nat) {pos : Nat}
    (hpos : pool.live[pos]? = some i) : (pool.vacate i pos).live = pool.live.erase i := by
  have hcap := le_capacity n
  have hcount := h.count
  have hlen := length_live h
  obtain ⟨hlt, rfl⟩ := List.getElem?_eq_some_iff.mp hpos
  rw [h.nodup.erase_getElem]
  apply List.ext_getElem?
  intro k
  rw [List.getElem?_eraseIdx, getElem?_live, getElem?_live, getElem?_live]
  simp only [vacate]
  rw [getElem?_shift _ _ _ _ (by omega) (by omega)]
  by_cases hk : k < pool.num_active_ - 1
  · have h1 : k < pool.num_active_ := by omega
    have h2 : k + 1 < pool.num_active_ := by omega
    by_cases hp : k < pos
    · have h3 : ¬(pos + 1 ≤ k + 1 ∧ k + 1 < pos + 1 + (pool.num_active_ - (pos + 1))) := by omega
      simp only [hk, h1, h3, hp, ite_true, ite_false]
    · have h3 : pos + 1 ≤ k + 1 ∧ k + 1 < pos + 1 + (pool.num_active_ - (pos + 1)) := by omega
      simp only [hk, h2, h3, hp, and_self, ite_true, ite_false]
  · have h1 : ¬k < pos := by omega
    have h2 : ¬k + 1 < pool.num_active_ := by omega
    simp only [hk, h1, h2, ite_false]

theorem isActive_vacate (pool : Pool n) (i pos j : Nat) :
    (pool.vacate i pos).isActive j ↔ pool.isActive j ∧ j ≠ i :=
  isActive_deactivate pool i j

theorem wellFormed_vacate {pool : Pool n} (h : pool.WellFormed) (i : Nat) {pos : Nat}
    (hpos : pool.live[pos]? = some i) : (pool.vacate i pos).WellFormed := by
  refine ⟨Nat.le_trans (Nat.sub_le _ _) h.count, ?_, fun j => ?_, fun j hj => ?_⟩
  · rw [live_vacate h i hpos]
    exact h.nodup.erase i
  · rw [live_vacate h i hpos, h.nodup.mem_erase_iff, isActive_vacate, h.mem_live, and_comm]
  · exact h.range j ((isActive_vacate pool i pos j).mp hj).1

theorem release_slot_ok {pool : Pool n} (h : pool.WellFormed) {i : Nat} (hi : pool.isActive i) :
    pool.release_slot i = .ok (pool.vacate i (pool.position i)) () := by
  have hrange := Nat.not_le.mpr (h.range i hi)
  have hpos := Nat.not_le.mpr (position_spec h hi).1
  simp only [release_slot, hrange, hi, hpos, Bool.not_true, Bool.false_eq_true, ite_false]

theorem release_slot_inactive {pool : Pool n} {i : Nat} (hr : i < n) (hi : ¬pool.isActive i) :
    pool.release_slot i = .fault pool "Cache::release_slot: slot already inactive" := by
  simp only [release_slot, Nat.not_le.mpr hr, hi, Bool.not_false, ite_true, ite_false]

end Pool

end Cache

end CortexFlow
