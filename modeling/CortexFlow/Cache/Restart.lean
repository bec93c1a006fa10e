import CortexFlow.Cache.Pool
import CortexFlow.Lib.Handle
import CortexFlow.Lib.Machine
import Mathlib

namespace CortexFlow

namespace Cache

open Lib

-- What an active handle holds. The handle itself has only the slot index and
-- the address of the cache, which is the same in every lifecycle; `lifecycle`
-- and `serial` note which subscription it was handed out for.
structure Ticket where
  lifecycle : Nat
  serial : Nat
  slot_idx : Nat
deriving DecidableEq

-- The cache of a runtime over its lifecycles, and the handles of the program.
structure Restarts (n : Nat) (ι : Type*) where
  cache_ : Option (Pool n)
  lifecycle : Nat
  subscribed : Nat
  handles : Handle.Store ι Ticket

inductive LifecycleEvent (ι : Type*)
  | start
  | shutdown
  | subscribe (dst : ι) (key : String) (key_type_id subscriber_id : type_id_t)
  | handle (op : Handle.Op ι)
deriving DecidableEq

namespace Restarts

variable {n : Nat} {ι : Type*} [DecidableEq ι]

def init : Restarts n ι := ⟨none, 0, 0, fun _ => none⟩

-- `start` emplaces the cache and `shutdown` resets it. Letting go of a slot
-- while there is no cache is a call on a dead object, and no step.
def step (s : Restarts n ι) : LifecycleEvent ι → Option (Restarts n ι)
  | .start =>
      match s.cache_ with
      | some _ => none
      | none => some { s with cache_ := some (.empty n), lifecycle := s.lifecycle + 1 }
  | .shutdown => s.cache_.map fun _ => { s with cache_ := none }
  | .subscribe dst key key_type_id subscriber_id =>
      match s.cache_ with
      | none => none
      | some pool =>
          match pool.subscribe key key_type_id subscriber_id with
          | .fault pool _ => some { s with cache_ := some pool }
          | .ok pool slot_idx =>
              (s.handles.adopt dst ⟨s.lifecycle, s.subscribed, slot_idx⟩).map fun handles =>
                { s with
                  cache_ := some pool
                  subscribed := s.subscribed + 1
                  handles := handles }
  | .handle op =>
      match s.handles.apply op with
      | none => none
      | some (handles, none) => some { s with handles := handles }
      | some (handles, some ticket) =>
          match s.cache_ with
          | none => none
          | some pool =>
              match pool.release_slot ticket.slot_idx with
              | .fault _ _ => none
              | .ok pool _ => some { s with cache_ := some pool, handles := handles }

def machine (n : Nat) (ι : Type*) [DecidableEq ι] : Machine (Restarts n ι) (LifecycleEvent ι) where
  init := init
  step := step

-- Releasing the slot neither fails nor changes which slots are active or how
-- they are ordered.
def Inert (pool : Pool n) (slot_idx : Nat) : Prop :=
  ∃ next, pool.release_slot slot_idx = .ok next () ∧
    (∀ i, next.isActive i ↔ pool.isActive i) ∧ next.live = pool.live

-- Whatever makes a handle from an earlier lifecycle let go while there is a
-- cache, the pool does not notice.
def PastHandlesInert (n : Nat) (ι : Type*) [DecidableEq ι] : Prop :=
  ∀ (s : Restarts n ι) (pool : Pool n) (op : Handle.Op ι) (handles : Handle.Store ι Ticket)
    (ticket : Ticket), (machine n ι).Reachable s → s.cache_ = some pool →
    s.handles.apply op = some (handles, some ticket) → ticket.lifecycle < s.lifecycle →
    Inert pool ticket.slot_idx

-- Every active slot was subscribed in the present lifecycle, by a subscription
-- whose handle is still held, and all handles name slots of the pool.
structure Invariant (s : Restarts n ι) : Prop where
  wellFormed : ∀ pool, s.cache_ = some pool → pool.WellFormed
  current : ∀ pool, s.cache_ = some pool → ∀ i, pool.isActive i →
    ∃ serial, Handle.Owned s.handles ⟨s.lifecycle, serial, i⟩
  unique : Handle.Unique s.handles
  issued : ∀ ticket, Handle.Owned s.handles ticket →
    ticket.serial < s.subscribed ∧ ticket.slot_idx < n

omit [DecidableEq ι] in
theorem invariant_init : (init : Restarts n ι).Invariant where
  wellFormed := nofun
  current := nofun
  unique := by simp [Handle.Unique, Handle.Owns, init]
  issued := by simp [Handle.Owned, Handle.Owns, init]

theorem subscribe_invariant {s s' : Restarts n ι} (h : s.Invariant) {dst : ι} {key : String}
    {key_type_id subscriber_id : type_id_t}
    (hs : s.step (.subscribe dst key key_type_id subscriber_id) = some s') : s'.Invariant := by
  simp only [step] at hs
  cases hc : s.cache_ with
  | none => simp [hc] at hs
  | some pool =>
      have hwf := h.wellFormed pool hc
      simp only [hc] at hs
      cases Nat.lt_or_ge pool.num_active_ n with
      | inr hfull =>
          rw [Pool.subscribe_full hfull] at hs
          obtain rfl := Option.some.inj hs
          exact ⟨fun p hp => h.wellFormed p (hc.trans hp), fun p hp => h.current p (hc.trans hp),
            h.unique, h.issued⟩
      | inl hlt =>
          obtain ⟨i, hi, hfree, hok⟩ := Pool.subscribe_ok hwf hlt key key_type_id subscriber_id
          rw [hok] at hs
          obtain ⟨handles, ha, rfl⟩ := Option.map_eq_some_iff.mp hs
          have hnew : ¬Handle.Owned s.handles ⟨s.lifecycle, s.subscribed, i⟩ := fun ho =>
            absurd (h.issued _ ho).1 (Nat.lt_irrefl _)
          obtain ⟨hunique, howned⟩ := Handle.adopt_owned h.unique hnew ha
          refine ⟨fun p hp => ?_, fun p hp j hj => ?_, hunique, fun ticket ht => ?_⟩
          · exact Option.some.inj hp ▸ Pool.wellFormed_fill hwf hlt hi hfree _ _
          · obtain rfl := Option.some.inj hp
            have hcap := Nat.lt_of_lt_of_le hi (Pool.le_capacity n)
            cases (Pool.isActive_fill pool hcap j _ _).mp hj with
            | inl hj =>
                obtain ⟨serial, ho⟩ := h.current pool hc j hj
                exact ⟨serial, (howned _).mpr (Or.inl ho)⟩
            | inr hj => exact ⟨s.subscribed, (howned _).mpr (Or.inr (by rw [hj]))⟩
          · cases (howned ticket).mp ht with
            | inl ht =>
                have hissued := h.issued ticket ht
                exact ⟨Nat.lt_succ_of_lt hissued.1, hissued.2⟩
            | inr ht => exact ht ▸ ⟨Nat.lt_succ_self _, hi⟩

theorem handle_invariant {s s' : Restarts n ι} (h : s.Invariant) {op : Handle.Op ι}
    (hs : s.step (.handle op) = some s') : s'.Invariant := by
  simp only [step] at hs
  split at hs
  · exact nomatch hs
  · rename_i handles ha
    obtain rfl := Option.some.inj hs
    obtain ⟨hunique, howned, _⟩ := Handle.apply_owned h.unique ha
    refine ⟨h.wellFormed, fun pool hp i hi => ?_, hunique, fun ticket ht => ?_⟩
    · obtain ⟨serial, ho⟩ := h.current pool hp i hi
      exact ⟨serial, (howned _).mpr ⟨ho, by simp⟩⟩
    · exact h.issued ticket ((howned ticket).mp ht).1
  · rename_i handles ticket ha
    obtain ⟨hunique, howned, hreleased⟩ := Handle.apply_owned h.unique ha
    cases hc : s.cache_ with
    | none => simp [hc] at hs
    | some pool =>
        have hwf := h.wellFormed pool hc
        simp only [hc] at hs
        by_cases hi : pool.isActive ticket.slot_idx
        · rw [Pool.release_slot_ok hwf hi] at hs
          obtain rfl := Option.some.inj hs
          have hpos := (Pool.position_spec hwf hi).2
          refine ⟨fun p hp => ?_, fun p hp j hj => ?_, hunique, fun other ho => ?_⟩
          · exact Option.some.inj hp ▸ Pool.wellFormed_vacate hwf _ hpos
          · obtain rfl := Option.some.inj hp
            obtain ⟨hj, hne⟩ := (Pool.isActive_vacate pool _ _ j).mp hj
            obtain ⟨serial, ho⟩ := h.current pool hc j hj
            refine ⟨serial, (howned _).mpr ⟨ho, fun he => ?_⟩⟩
            rw [Option.some.inj he] at hne
            exact hne rfl
          · exact h.issued other ((howned other).mp ho).1
        · have hrange := (h.issued ticket (hreleased ticket rfl)).2
          rw [Pool.release_slot_inactive hrange hi] at hs
          exact nomatch hs

theorem step_invariant {s s' : Restarts n ι} (h : s.Invariant) {event : LifecycleEvent ι}
    (hs : s.step event = some s') : s'.Invariant := by
  cases event with
  | start =>
      simp only [step] at hs
      split at hs
      · exact nomatch hs
      · obtain rfl := Option.some.inj hs
        refine ⟨fun p hp => ?_, fun p hp i hi => ?_, h.unique, h.issued⟩
        · exact Option.some.inj hp ▸ Pool.wellFormed_empty n
        · exact absurd (Option.some.inj hp ▸ hi) (Pool.not_isActive_empty i)
  | shutdown =>
      obtain ⟨pool, _, rfl⟩ := Option.map_eq_some_iff.mp hs
      exact ⟨nofun, nofun, h.unique, h.issued⟩
  | subscribe => exact subscribe_invariant h hs
  | handle => exact handle_invariant h hs

-- Whatever operation makes a handle from an earlier lifecycle let go while a
-- cache exists: the release fails an assertion, or it ends a subscription that
-- was made in the present lifecycle and is still held.
theorem stale_release {s : Restarts n ι} (hr : (machine n ι).Reachable s) {pool : Pool n}
    (hc : s.cache_ = some pool) {op : Handle.Op ι} {handles : Handle.Store ι Ticket}
    {ticket : Ticket} (ha : s.handles.apply op = some (handles, some ticket))
    (hold : ticket.lifecycle < s.lifecycle) :
    ¬Inert pool ticket.slot_idx ∧
      if pool.isActive ticket.slot_idx then
        ∃ next serial, pool.release_slot ticket.slot_idx = .ok next () ∧
          ¬next.isActive ticket.slot_idx ∧ next.live = pool.live.erase ticket.slot_idx ∧
          Handle.Owned handles ⟨s.lifecycle, serial, ticket.slot_idx⟩
      else
        pool.release_slot ticket.slot_idx =
          .fault pool "Cache::release_slot: slot already inactive" := by
  have h := hr.invariant invariant_init fun _ _ _ hi hs => step_invariant hi hs
  have hwf := h.wellFormed pool hc
  obtain ⟨_, howned, hreleased⟩ := Handle.apply_owned h.unique ha
  have hrange := (h.issued ticket (hreleased ticket rfl)).2
  by_cases hi : pool.isActive ticket.slot_idx
  · have hok := Pool.release_slot_ok hwf hi
    have hpos := (Pool.position_spec hwf hi).2
    have hoff : ¬(pool.vacate ticket.slot_idx (pool.position ticket.slot_idx)).isActive
        ticket.slot_idx := fun hj => ((Pool.isActive_vacate ..).mp hj).2 rfl
    refine ⟨fun hinert => ?_, ?_⟩
    · obtain ⟨next, hnext, hsame, _⟩ := hinert
      rw [hok] at hnext
      simp only [Outcome.ok.injEq] at hnext
      exact hoff ((hnext.1 ▸ hsame ticket.slot_idx).mpr hi)
    · obtain ⟨serial, ho⟩ := h.current pool hc ticket.slot_idx hi
      rw [if_pos hi]
      refine ⟨_, serial, hok, hoff, Pool.live_vacate hwf _ hpos, (howned _).mpr ⟨ho, fun he => ?_⟩⟩
      rw [Option.some.inj he] at hold
      exact absurd hold (Nat.lt_irrefl _)
  · have hfault := Pool.release_slot_inactive hrange hi
    refine ⟨fun hinert => ?_, by rw [if_neg hi, hfault]⟩
    obtain ⟨next, hnext, _⟩ := hinert
    rw [hfault] at hnext
    exact nomatch hnext

-- A handle is kept over a restart, and its slot is subscribed again.
def recycledSlot : List (LifecycleEvent Nat) :=
  [.start, .subscribe 0 "k" 1 10, .shutdown, .start, .subscribe 1 "k" 1 11]

def recycledPool : Pool 4 := (Pool.empty 4).fill 0 ⟨1, 11, true⟩

theorem run_recycledSlot : ∃ s, (machine 4 Nat).Reachable s ∧ s.cache_ = some recycledPool ∧
    s.lifecycle = 2 ∧ ∃ handles, s.handles.apply (.reset 0) = some (handles, some ⟨1, 0, 0⟩) := by
  have hrun : ((machine 4 Nat).run init recycledSlot).map
      (fun s => (s.cache_, s.lifecycle, (s.handles.apply (.reset 0)).map Prod.snd)) =
      some (some recycledPool, 2, some (some ⟨1, 0, 0⟩)) := by
    decide +kernel
  obtain ⟨s, hs, hp⟩ := Option.map_eq_some_iff.mp hrun
  simp only [Prod.mk.injEq] at hp
  obtain ⟨hcache, hlife, happly⟩ := hp
  obtain ⟨⟨handles, released⟩, ha, rfl⟩ := Option.map_eq_some_iff.mp happly
  exact ⟨s, ⟨recycledSlot, hs⟩, hcache, hlife, handles, ha⟩

theorem stale_release_recycledSlot : ¬Inert recycledPool 0 := by
  obtain ⟨s, hr, hcache, hlife, handles, ha⟩ := run_recycledSlot
  exact (stale_release hr hcache ha (by rw [hlife]; decide)).1

-- Dropping the old handle unsubscribes whoever has the slot now.
theorem not_pastHandlesInert : ¬PastHandlesInert 4 Nat := by
  intro hinert
  obtain ⟨s, hr, hcache, hlife, handles, ha⟩ := run_recycledSlot
  obtain ⟨next, hnext, hsame, _⟩ := hinert s recycledPool (.reset 0) handles ⟨1, 0, 0⟩ hr hcache ha
    (by rw [hlife]; decide)
  have hok : recycledPool.release_slot 0 = .ok (recycledPool.vacate 0 0) () := by decide +kernel
  rw [hok] at hnext
  simp only [Outcome.ok.injEq, and_true] at hnext
  have hoff : ¬((recycledPool.vacate 0 0).isActive 0 ↔ recycledPool.isActive 0) := by
    decide +kernel
  exact hoff (hnext ▸ hsame 0)

end Restarts

end Cache

end CortexFlow
