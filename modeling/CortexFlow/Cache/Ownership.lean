import CortexFlow.Cache.Pool
import CortexFlow.Lib.Handle
import CortexFlow.Lib.Machine
import Mathlib

namespace CortexFlow

namespace Cache

open Lib

-- A pool within the lifetime of one cache, and the `Subscription` objects of
-- the program. `registered_at` notes when each slot was last subscribed.
structure Session (n : Nat) (ι : Type*) where
  pool : Pool n
  handles : Handle.Store ι Nat
  registered_at : Nat → Nat
  clock : Nat

inductive Event (ι : Type*)
  | subscribe (dst : ι) (key : String) (key_type_id subscriber_id : type_id_t)
  | handle (op : Handle.Op ι)
deriving DecidableEq

namespace Session

variable {n : Nat} {ι : Type*} [DecidableEq ι]

def init : Session n ι := ⟨.empty n, fun _ => none, fun _ => 0, 0⟩

-- A `subscribe` that faults leaves no handle. A release runs in a function
-- declared `noexcept`, so that a fault in it is the end.
def step (s : Session n ι) : Event ι → Option (Session n ι)
  | .subscribe dst key key_type_id subscriber_id =>
      match s.pool.subscribe key key_type_id subscriber_id with
      | .fault pool _ => some { s with pool := pool }
      | .ok pool slot_idx =>
          (s.handles.adopt dst slot_idx).map fun handles =>
            { pool := pool
              handles := handles
              registered_at := Function.update s.registered_at slot_idx s.clock
              clock := s.clock + 1 }
  | .handle op =>
      match s.handles.apply op with
      | none => none
      | some (handles, none) => some { s with handles := handles }
      | some (handles, some slot_idx) =>
          match s.pool.release_slot slot_idx with
          | .fault _ _ => none
          | .ok pool _ => some { s with pool := pool, handles := handles }

def machine (n : Nat) (ι : Type*) [DecidableEq ι] : Machine (Session n ι) (Event ι) where
  init := init
  step := step

structure Invariant (s : Session n ι) : Prop where
  wellFormed : s.pool.WellFormed
  unique : Handle.Unique s.handles
  owned : ∀ i, Handle.Owned s.handles i ↔ s.pool.isActive i
  order : s.pool.live.Pairwise fun i j => s.registered_at i < s.registered_at j
  clock : ∀ i ∈ s.pool.live, s.registered_at i < s.clock

omit [DecidableEq ι] in
theorem invariant_init : (init : Session n ι).Invariant where
  wellFormed := Pool.wellFormed_empty n
  unique := by simp [Handle.Unique, Handle.Owns, init]
  owned := fun i => by simp [Handle.Owned, Handle.Owns, init, Pool.not_isActive_empty]
  order := List.Pairwise.nil
  clock := fun i h => absurd h List.not_mem_nil

theorem subscribe_invariant {s s' : Session n ι} (h : s.Invariant) {dst : ι} {key : String}
    {key_type_id subscriber_id : type_id_t}
    (hs : s.step (.subscribe dst key key_type_id subscriber_id) = some s') : s'.Invariant := by
  simp only [step] at hs
  cases Nat.lt_or_ge s.pool.num_active_ n with
  | inr hfull =>
      rw [Pool.subscribe_full hfull] at hs
      exact Option.some.inj hs ▸ h
  | inl hlt =>
      obtain ⟨i, hi, hfree, hok⟩ :=
        Pool.subscribe_ok h.wellFormed hlt key key_type_id subscriber_id
      rw [hok] at hs
      obtain ⟨handles, ha, rfl⟩ := Option.map_eq_some_iff.mp hs
      have hnew : ¬Handle.Owned s.handles i := fun ho => hfree ((h.owned i).mp ho)
      obtain ⟨hunique, howned⟩ := Handle.adopt_owned h.unique hnew ha
      have hlive := Pool.live_fill h.wellFormed hlt i ⟨key_type_id, subscriber_id, true⟩
      have hold : ∀ j ∈ s.pool.live,
          Function.update s.registered_at i s.clock j = s.registered_at j := fun j hj =>
        Function.update_of_ne (fun he : j = i => hfree ((h.wellFormed.mem_live i).mp (he ▸ hj))) _ _
      have hself : Function.update s.registered_at i s.clock i = s.clock := Function.update_self ..
      refine ⟨Pool.wellFormed_fill h.wellFormed hlt hi hfree _ _, hunique, fun j => ?_, ?_, ?_⟩
      · rw [howned, h.owned, Pool.isActive_fill _ (Nat.lt_of_lt_of_le hi (Pool.le_capacity n))]
      · rw [hlive]
        refine List.pairwise_append.mpr ⟨?_, List.pairwise_singleton _ i, fun j hj k hk => ?_⟩
        · refine h.order.imp_of_mem fun hj hk hlt => ?_
          simpa only [hold _ hj, hold _ hk] using hlt
        · simpa only [List.mem_singleton.mp hk, hold j hj, hself] using h.clock j hj
      · intro j hj
        rw [hlive, List.mem_append, List.mem_singleton] at hj
        cases hj with
        | inl hj => simpa only [hold j hj] using (h.clock j hj).trans (Nat.lt_succ_self _)
        | inr hj => simpa only [hj, hself] using Nat.lt_succ_self s.clock

-- What a handle lets go of is an active slot, so the release goes through.
theorem release_ok {s : Session n ι} (h : s.Invariant) {op : Handle.Op ι}
    {handles : Handle.Store ι Nat} {i : Nat} (ha : s.handles.apply op = some (handles, some i)) :
    s.pool.isActive i := by
  obtain ⟨_, _, hreleased⟩ := Handle.apply_owned h.unique ha
  exact (h.owned i).mp (hreleased i rfl)

theorem handle_invariant {s s' : Session n ι} (h : s.Invariant) {op : Handle.Op ι}
    (hs : s.step (.handle op) = some s') : s'.Invariant := by
  simp only [step] at hs
  split at hs
  · exact nomatch hs
  · rename_i handles ha
    obtain rfl := Option.some.inj hs
    obtain ⟨hunique, howned, _⟩ := Handle.apply_owned h.unique ha
    refine ⟨h.wellFormed, hunique, fun i => ?_, h.order, h.clock⟩
    rw [howned, h.owned]
    simp
  · rename_i handles i ha
    have hi := release_ok h ha
    obtain ⟨hunique, howned, _⟩ := Handle.apply_owned h.unique ha
    rw [Pool.release_slot_ok h.wellFormed hi] at hs
    obtain rfl := Option.some.inj hs
    have hpos := (Pool.position_spec h.wellFormed hi).2
    have hlive := Pool.live_vacate h.wellFormed i hpos
    have hsub : (s.pool.live.erase i).Sublist s.pool.live := List.erase_sublist
    refine ⟨Pool.wellFormed_vacate h.wellFormed i hpos, hunique, fun j => ?_, ?_, fun j hj => ?_⟩
    · rw [howned, h.owned, Pool.isActive_vacate]
      simp only [ne_eq, Option.some.injEq, @eq_comm _ i j]
    · rw [hlive]
      exact h.order.sublist hsub
    · rw [hlive] at hj
      exact h.clock j (hsub.mem hj)

theorem reachable_invariant {s : Session n ι} (h : (machine n ι).Reachable s) : s.Invariant := by
  refine h.invariant invariant_init fun s event s' hi hs => ?_
  cases event with
  | subscribe => exact subscribe_invariant hi hs
  | handle => exact handle_invariant hi hs

omit [DecidableEq ι] in
-- There are as many active handles as active slots.
theorem ncard_owners {s : Session n ι} (h : s.Invariant) :
    {a | ∃ i, Handle.Owns s.handles a i}.ncard = s.pool.num_active_ := by
  have hindex {a : ι} {i : Nat} (ho : Handle.Owns s.handles a i) :
      ((s.handles a).bind Handle.held).getD 0 = i := by
    rw [show s.handles a = some ⟨some i⟩ from ho]
    rfl
  have hinj : Set.InjOn (fun a => ((s.handles a).bind Handle.held).getD 0)
      {a | ∃ i, Handle.Owns s.handles a i} := by
    intro a ha b hb hab
    obtain ⟨i, hi⟩ := ha
    obtain ⟨j, hj⟩ := hb
    simp only [hindex hi, hindex hj] at hab
    exact h.unique a b j (hab ▸ hi) hj
  have himage : Set.image (fun a => ((s.handles a).bind Handle.held).getD 0)
      {a | ∃ i, Handle.Owns s.handles a i} = ↑s.pool.live.toFinset := by
    ext i
    rw [Set.mem_image, Finset.mem_coe, List.mem_toFinset, h.wellFormed.mem_live, ← h.owned]
    refine ⟨fun hi => ?_, fun hi => ?_⟩
    · obtain ⟨a, ⟨j, hj⟩, he⟩ := hi
      exact ⟨a, (hindex hj).symm.trans he ▸ hj⟩
    · obtain ⟨a, ha⟩ := hi
      exact ⟨a, ⟨i, ha⟩, hindex ha⟩
  rw [← hinj.ncard_image, himage, Set.ncard_coe_finset,
    List.toFinset_card_of_nodup h.wellFormed.nodup, Pool.length_live h.wellFormed]

-- Slots, handles and the order list agree in every state a session can reach,
-- `subscribe` succeeds exactly while a slot is left, and no assertion about the
-- pool's own accounting can fail.
theorem pool_and_handles_agree {s : Session n ι} (hr : (machine n ι).Reachable s) :
    (∀ i, s.pool.isActive i ↔ ∃ a, Handle.Owns s.handles a i) ∧
    (∀ a b i, Handle.Owns s.handles a i → Handle.Owns s.handles b i → a = b) ∧
    (s.pool.live.length = s.pool.num_active_ ∧ s.pool.live.Nodup ∧
      (∀ i, i ∈ s.pool.live ↔ s.pool.isActive i) ∧
      s.pool.live.Pairwise fun i j => s.registered_at i < s.registered_at j) ∧
    s.pool.num_active_ ≤ n ∧
    (∀ key key_type_id subscriber_id,
      if {a | ∃ i, Handle.Owns s.handles a i}.ncard < n then
        ∃ next i, s.pool.subscribe key key_type_id subscriber_id = .ok next i
      else
        s.pool.subscribe key key_type_id subscriber_id =
          .fault s.pool (Pool.overflowReason n key)) ∧
    (s.pool.num_active_ < n → s.pool.find_free_slot ≠ none) ∧
    ∀ op handles i, s.handles.apply op = some (handles, some i) →
      ∃ next, s.pool.release_slot i = .ok next () := by
  have h := reachable_invariant hr
  refine ⟨fun i => (h.owned i).symm, h.unique, ⟨Pool.length_live h.wellFormed,
    h.wellFormed.nodup, h.wellFormed.mem_live, h.order⟩, h.wellFormed.count,
    fun key key_type_id subscriber_id => ?_, fun hlt => ?_, fun op handles i ha => ?_⟩
  · rw [ncard_owners h]
    split_ifs with hlt
    · obtain ⟨i, _, _, hok⟩ := Pool.subscribe_ok h.wellFormed hlt key key_type_id subscriber_id
      exact ⟨_, i, hok⟩
    · exact Pool.subscribe_full (Nat.le_of_not_lt hlt) key key_type_id subscriber_id
  · obtain ⟨i, hfind, _⟩ := Pool.find_free_slot_some h.wellFormed hlt
    rw [hfind]
    exact Option.some_ne_none i
  · exact ⟨_, Pool.release_slot_ok h.wellFormed (release_ok h ha)⟩

-- A slot in the middle is released and taken again by the last to register.
def recycledRun : List (Event Nat) :=
  [.subscribe 0 "k" 1 10, .subscribe 1 "k" 1 11, .subscribe 2 "k" 1 12, .handle (.reset 1),
    .handle (.move_assign 0 0), .handle (.move_construct 3 0), .subscribe 4 "k" 1 13,
    .subscribe 5 "k" 1 14]

theorem pool_and_handles_agree_recycledRun :
    ∃ s : Session 3 Nat, (machine 3 Nat).Reachable s ∧ s.pool.live = [0, 2, 1] ∧
      s.pool.live.length = s.pool.num_active_ := by
  have hrun : ((machine 3 Nat).run init recycledRun).map (fun s => s.pool.live) =
      some [0, 2, 1] := by
    decide +kernel
  obtain ⟨s, hs, hlive⟩ := Option.map_eq_some_iff.mp hrun
  have hr : (machine 3 Nat).Reachable s := ⟨recycledRun, hs⟩
  exact ⟨s, hr, hlive, (pool_and_handles_agree hr).2.2.1.1⟩

end Session

end Cache

end CortexFlow
