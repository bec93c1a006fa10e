import CortexFlow.Cache.Ownership

namespace CortexFlow

namespace Cache

open Lib

-- A subscription as the program sees it. `serial` tells it from all others.
structure Registration (κ : Type*) where
  serial : Nat
  key : κ
  subscriber_id : type_id_t
deriving DecidableEq

def Registration.map {κ ν : Type*} (f : κ → ν) (registration : Registration κ) : Registration ν :=
  ⟨registration.serial, f registration.key, registration.subscriber_id⟩

-- What a pool is for: the live subscriptions in the order in which they were
-- made, and the handle that each of them belongs to.
structure Registry (κ ι : Type*) where
  live : List (Registration κ)
  handles : Handle.Store ι Nat
  next : Nat

namespace Registry

inductive Event (κ ι : Type*)
  | subscribe (dst : ι) (key : κ) (subscriber_id : type_id_t)
  | handle (op : Handle.Op ι)

variable {κ ν ι : Type*}

def Event.map (f : κ → ν) : Event κ ι → Event ν ι
  | .subscribe dst key subscriber_id => .subscribe dst (f key) subscriber_id
  | .handle op => .handle op

def map (f : κ → ν) (r : Registry κ ι) : Registry ν ι :=
  ⟨r.live.map (Registration.map f), r.handles, r.next⟩

def init : Registry κ ι := ⟨[], fun _ => none, 0⟩

variable [DecidableEq ι]

def step (n : Nat) (r : Registry κ ι) : Event κ ι → Option (Registry κ ι)
  | .subscribe dst key subscriber_id =>
      if n ≤ r.live.length then some r
      else
        (r.handles.adopt dst r.next).map fun handles =>
          ⟨r.live ++ [⟨r.next, key, subscriber_id⟩], handles, r.next + 1⟩
  | .handle op =>
      (r.handles.apply op).map fun result =>
        ⟨r.live.filter fun registration => some registration.serial ≠ result.2, result.1, r.next⟩

def machine (n : Nat) (κ ι : Type*) [DecidableEq ι] : Machine (Registry κ ι) (Event κ ι) where
  init := init
  step := step n

-- The keys are only carried along.
theorem step_map (n : Nat) (f : κ → ν) (r : Registry κ ι) (event : Event κ ι) :
    (r.map f).step n (event.map f) = (r.step n event).map (map f) := by
  cases event with
  | subscribe dst key subscriber_id =>
      simp only [step, Event.map, map, List.length_map]
      split_ifs
      · rfl
      · simp only [Option.map_map]
        congr 1
        funext handles
        simp [map, Registration.map]
  | handle op =>
      simp only [step, Event.map, map, Option.map_map]
      congr 1
      funext result
      simp only [Function.comp_apply, map, List.filter_map]
      rfl

-- A step makes no registration but the next one.
theorem step_live {n : Nat} {r next : Registry κ ι} {event : Event κ ι}
    (h : r.step n event = some next) :
    r.next ≤ next.next ∧
      ∀ registration ∈ next.live, registration ∈ r.live ∨ registration.serial = r.next := by
  cases event with
  | subscribe dst key subscriber_id =>
      simp only [step] at h
      split_ifs at h
      · obtain rfl := Option.some.inj h
        exact ⟨le_rfl, fun _ => Or.inl⟩
      · obtain ⟨handles, _, rfl⟩ := Option.map_eq_some_iff.mp h
        refine ⟨Nat.le_succ _, fun registration hr => ?_⟩
        cases List.mem_append.mp hr with
        | inl hold => exact Or.inl hold
        | inr hnew => exact Or.inr (List.mem_singleton.mp hnew ▸ rfl)
  | handle op =>
      obtain ⟨result, _, rfl⟩ := Option.map_eq_some_iff.mp h
      exact ⟨le_rfl, fun _ hr => Or.inl (List.mem_filter.mp hr).1⟩

end Registry

def Event.registered {ι : Type*} : Event ι → Registry.Event type_id_t ι
  | .subscribe dst _ key_type_id subscriber_id => .subscribe dst key_type_id subscriber_id
  | .handle op => .handle op

namespace Session

variable {n : Nat} {ι : Type*}

def registration (s : Session n ι) (slot_idx : Nat) : Registration type_id_t :=
  let subscriber := s.pool.subs_[slot_idx]?.getD ⟨0, 0, false⟩
  ⟨s.registered_at slot_idx, subscriber.key_type_id, subscriber.subscriber_id⟩

-- The slots read in the order of the order list, and the handles with the slot
-- index replaced by the subscription that the slot stands for.
def registry (s : Session n ι) : Registry type_id_t ι where
  live := s.pool.live.map s.registration
  handles := s.handles.map s.registered_at
  next := s.clock

variable [DecidableEq ι]

theorem registry_subscribe {s s' : Session n ι} (h : s.Invariant) {dst : ι} {key : String}
    {key_type_id subscriber_id : type_id_t}
    (hs : s.step (.subscribe dst key key_type_id subscriber_id) = some s') :
    s.registry.step n (.subscribe dst key_type_id subscriber_id) = some s'.registry := by
  have hlen : s.registry.live.length = s.pool.num_active_ := by
    simp only [registry, List.length_map, Pool.length_live h.wellFormed]
  simp only [step] at hs
  simp only [Registry.step, hlen]
  cases Nat.lt_or_ge s.pool.num_active_ n with
  | inr hfull =>
      rw [Pool.subscribe_full hfull] at hs
      obtain rfl := Option.some.inj hs
      exact if_pos hfull
  | inl hlt =>
      obtain ⟨i, hi, hfree, hok⟩ :=
        Pool.subscribe_ok h.wellFormed hlt key key_type_id subscriber_id
      rw [hok] at hs
      obtain ⟨handles, ha, rfl⟩ := Option.map_eq_some_iff.mp hs
      rw [if_neg (Nat.not_le.mpr hlt)]
      have hold (j : Nat) (hj : s.pool.isActive j) :
          Function.update s.registered_at i s.clock j = s.registered_at j :=
        Function.update_of_ne (fun he : j = i => hfree (he ▸ hj)) ..
      have hself : Function.update s.registered_at i s.clock i = s.clock := Function.update_self ..
      -- No handle has the free slot, so the new number is for the new handle only.
      have hsame : s.handles.map s.registered_at =
          s.handles.map (Function.update s.registered_at i s.clock) :=
        Handle.map_congr fun j hj => (hold j ((h.owned j).mp hj)).symm
      have hadopt := Handle.adopt_map (Function.update s.registered_at i s.clock) s.handles dst i
      rw [hself, ha, ← hsame] at hadopt
      simp only [registry, hadopt, Option.map_some, Option.some.injEq, Registry.mk.injEq, and_true]
      rw [Pool.live_fill h.wellFormed hlt, List.map_append, List.map_singleton]
      have hin := Nat.lt_of_lt_of_le hi (Pool.le_capacity n)
      congr 1
      · refine List.map_congr_left fun j hj => ?_
        have hactive := (h.wellFormed.mem_live j).mp hj
        have hne : i ≠ j := fun he => hfree (he ▸ hactive)
        simp [registration, hold j hactive, Pool.fill, hne]
      · simp [registration, Pool.fill, hin]

theorem registry_handle {s s' : Session n ι} (h : s.Invariant) {op : Handle.Op ι}
    (hs : s.step (.handle op) = some s') :
    s.registry.step n (.handle op) = some s'.registry := by
  simp only [step] at hs
  simp only [Registry.step, registry, Handle.apply_map]
  split at hs
  · cases hs
  · rename_i handles ha
    obtain rfl := Option.some.inj hs
    have hall : ∀ registration ∈ s.pool.live.map s.registration,
        decide (some registration.serial ≠ none) = true := by simp
    simp only [ha, Option.map_some, Option.map_none, List.filter_eq_self.mpr hall]
    rfl
  · rename_i handles i ha
    have hi := release_ok h ha
    rw [Pool.release_slot_ok h.wellFormed hi] at hs
    obtain rfl := Option.some.inj hs
    have hpos := (Pool.position_spec h.wellFormed hi).2
    -- Live slots were registered at different times.
    have hserials : (s.pool.live.map s.registered_at).Nodup :=
      List.pairwise_map.mpr (h.order.imp fun hlt => Nat.ne_of_lt hlt)
    have hserial (j : Nat) (hj : j ∈ s.pool.live) :
        s.registered_at j = s.registered_at i ↔ j = i :=
      ⟨fun he => List.inj_on_of_nodup_map hserials hj ((h.wellFormed.mem_live i).mpr hi) he,
        fun he => he ▸ rfl⟩
    have hkept : s.pool.live.erase i =
        s.pool.live.filter fun j => some (s.registered_at j) ≠ some (s.registered_at i) := by
      rw [h.wellFormed.nodup.erase_eq_filter]
      refine List.filter_congr fun j hj => ?_
      rw [Bool.eq_iff_iff, bne_iff_ne, decide_eq_true_iff, ne_eq, ne_eq, Option.some.injEq,
        hserial j hj]
    simp only [ha, Option.map_some, Option.some.injEq, Registry.mk.injEq, and_true]
    rw [Pool.live_vacate h.wellFormed i hpos, List.filter_map]
    refine (congrArg (List.map s.registration) hkept.symm).trans ?_
    refine List.map_congr_left fun j hj => ?_
    have hne := (h.wellFormed.nodup.mem_erase_iff.mp hj).1
    simp only [registration, Pool.vacate, Pool.getElem?_deactivate_of_ne _ hne]

theorem registry_step {s s' : Session n ι} (h : s.Invariant) {event : Event ι}
    (hs : s.step event = some s') :
    s.registry.step n event.registered = some s'.registry := by
  cases event with
  | subscribe => exact registry_subscribe h hs
  | handle => exact registry_handle h hs

omit [DecidableEq ι] in
theorem serial_lt_clock {s : Session n ι} (h : s.Invariant)
    {registration : Registration type_id_t} (hr : registration ∈ s.registry.live) :
    registration.serial < s.clock := by
  obtain ⟨i, hi, rfl⟩ := List.mem_map.mp hr
  exact h.clock i hi

omit [DecidableEq ι] in
theorem serials_nodup {s : Session n ι} (h : s.Invariant) :
    (s.registry.live.map Registration.serial).Nodup := by
  rw [registry, List.map_map]
  exact List.pairwise_map.mpr (h.order.imp fun hlt => Nat.ne_of_lt hlt)

theorem step_invariant {s s' : Session n ι} (h : s.Invariant) {event : Event ι}
    (hs : s.step event = some s') : s'.Invariant := by
  cases event with
  | subscribe => exact subscribe_invariant h hs
  | handle => exact handle_invariant h hs

end Session

end Cache

end CortexFlow
