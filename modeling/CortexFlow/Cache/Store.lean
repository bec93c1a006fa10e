import CortexFlow.Cache.Registry

namespace CortexFlow

namespace Cache

open Lib

-- What the types in a `CacheKeyList` fix for each key `k`: the ids of `K` and of
-- `KeyChanged<K>`, the names for the trace, and the `operator==` of its values.
structure Keys (κ : Type*) (V : κ → Type*) where
  type_id : κ → type_id_t
  changed_type_id : κ → type_id_t
  type_name : κ → String
  owner_name : κ → String
  eq : (k : κ) → V k → V k → Bool

structure KeyChanged (α : Type*) where
  old_value : Option α
  new_value : α
deriving DecidableEq

-- A notification with its type erased.
abbrev Change {κ : Type*} (V : κ → Type*) := (k : κ) × KeyChanged (V k)

structure State {κ : Type*} (V : κ → Type*) (n : Nat) (ι : Type*) where
  slots_ : (k : κ) → Option (V k)
  session : Session n ι
  post_bound : Bool

-- What a call of `set` leaves, the envelopes it handed to the post sink and the
-- records it traced.
structure Written {κ : Type*} (V : κ → Type*) (n : Nat) (ι : Type*) where
  cache : State V n ι
  posted : List (Envelope (Change V))
  trace : List TraceRecord

namespace Keys

variable {κ : Type*} {V : κ → Type*} {n : Nat} {ι : Type*}

def notice (keys : Keys κ V) (k : κ) (message : KeyChanged (V k)) (subscriber_id : type_id_t) :
    Envelope (Change V) :=
  ⟨kNoSender, subscriber_id, keys.changed_type_id k, ⟨k, message⟩⟩

def writeRecord (keys : Keys κ V) (k : κ) : TraceRecord :=
  ⟨.Full, "cache_write", keys.owner_name k, "-", keys.type_name k, ""⟩

-- The loop of `fanout` with `left` entries of the order list to go, the next of
-- them at `i`.
def fanout (keys : Keys κ V) (pool : Pool n) (post_bound : Bool) (k : κ)
    (message : KeyChanged (V k)) (left i : Nat) (posted : List (Envelope (Change V))) :
    Outcome (List (Envelope (Change V))) Unit :=
  match left with
  | 0 => .ok posted ()
  | left + 1 =>
      let slot_idx := pool.order_[i]?.getD 0
      let subscriber := pool.subs_[slot_idx]?.getD ⟨0, 0, false⟩
      if subscriber.key_type_id ≠ keys.type_id k then
        keys.fanout pool post_bound k message left (i + 1) posted
      else if !post_bound then .fault posted "Cache::set: post sink not bound"
      else
        keys.fanout pool post_bound k message left (i + 1)
          (posted ++ [keys.notice k message subscriber.subscriber_id])

-- The order list from `i` on is read as subscriptions, and those for the key are
-- told one after the other.
theorem fanout_eq (keys : Keys κ V) (session : Session n ι) (k : κ) (message : KeyChanged (V k))
    (left i : Nat) (posted : List (Envelope (Change V))) (hi : i + left ≤ kPoolCapacity n) :
    keys.fanout session.pool true k message left i posted =
      .ok (posted ++ (((((session.pool.order_.toList.drop i).take left).map
        session.registration).filter fun registration =>
          registration.key = keys.type_id k).map fun registration =>
            keys.notice k message registration.subscriber_id)) () := by
  induction left generalizing i posted with
  | zero => simp [Keys.fanout]
  | succ left ih =>
      have hlt : i < session.pool.order_.toList.length := by
        rw [Vector.length_toList]
        omega
      have hget : session.pool.order_[i]?.getD 0 = session.pool.order_.toList[i] := by
        rw [Vector.getElem?_eq_getElem (by omega), Option.getD_some, Vector.getElem_toList]
      rw [List.drop_eq_getElem_cons hlt, List.take_succ_cons, List.map_cons, ← hget]
      by_cases hkey : (session.registration (session.pool.order_[i]?.getD 0)).key = keys.type_id k
      · rw [List.filter_cons_of_pos (by simpa using hkey), Keys.fanout]
        simp only [Session.registration] at hkey
        simp only [hkey, ne_eq, not_true_eq_false, ite_false, Bool.not_true, Bool.false_eq_true]
        rw [ih _ _ (by omega)]
        simp [Session.registration]
      · rw [List.filter_cons_of_neg (by simpa using hkey), Keys.fanout]
        simp only [Session.registration] at hkey
        simp only [hkey, ne_eq, not_false_eq_true, ite_true]
        exact ih _ _ (by omega)

end Keys

namespace State

variable {κ : Type*} {V : κ → Type*} {n : Nat} {ι : Type*}

def get (s : State V n ι) (k : κ) : Option (V k) := s.slots_ k

-- Whether `K` holds a value that `operator==` says is the same.
def holds (keys : Keys κ V) (s : State V n ι) (k : κ) (value : V k) : Bool :=
  (s.slots_ k).any fun current => keys.eq k current value

variable [DecidableEq κ]

def assign (s : State V n ι) (k : κ) (value : V k) : State V n ι :=
  { s with slots_ := Function.update s.slots_ k (some value) }

def set (keys : Keys κ V) (s : State V n ι) (k : κ) (value : V k) :
    Outcome (Written V n ι) Unit :=
  if s.holds keys k value then .ok ⟨s, [], []⟩ ()
  else
    let old := s.slots_ k
    let s := s.assign k value
    let pool := s.session.pool
    match keys.fanout pool s.post_bound k ⟨old, value⟩ pool.num_active_ 0 [] with
    | .ok posted _ => .ok ⟨s, posted, [keys.writeRecord k]⟩ ()
    | .fault posted reason => .fault ⟨s, posted, [keys.writeRecord k]⟩ reason

def init : State V n ι := ⟨fun _ => none, .init, false⟩

inductive Event (V : κ → Type*) (ι : Type*)
  | bind_post
  | subscribe (dst : ι) (k : κ) (subscriber_id : type_id_t)
  | handle (op : Handle.Op ι)
  | set (k : κ) (value : V k)

-- What an event does to the subscriptions.
def Event.registered : Event V ι → Option (Registry.Event κ ι)
  | .subscribe dst k subscriber_id => some (.subscribe dst k subscriber_id)
  | .handle op => some (.handle op)
  | .bind_post | .set _ _ => none

variable [DecidableEq ι]

def step (keys : Keys κ V) (s : State V n ι) : Event V ι → Option (State V n ι)
  | .bind_post => some { s with post_bound := true }
  | .subscribe dst k subscriber_id =>
      (s.session.step (.subscribe dst (keys.type_name k) (keys.type_id k) subscriber_id)).map
        fun session => { s with session := session }
  | .handle op => (s.session.step (.handle op)).map fun session => { s with session := session }
  | .set k value =>
      match s.set keys k value with
      | .ok written _ | .fault written _ => some written.cache

def machine (keys : Keys κ V) (n : Nat) (ι : Type*) [DecidableEq ι] :
    Machine (State V n ι) (Event V ι) where
  init := init
  step := step keys

omit [DecidableEq ι] in
-- A write either changes nothing or stores the value and tells every live
-- subscription for the key.
theorem set_eq (keys : Keys κ V) {s : State V n ι} (h : s.session.Invariant)
    (hb : s.post_bound = true) (k : κ) (value : V k) :
    s.set keys k value =
      if s.holds keys k value then .ok ⟨s, [], []⟩ ()
      else
        .ok ⟨s.assign k value,
          (s.session.registry.live.filter fun registration =>
            registration.key = keys.type_id k).map fun registration =>
              keys.notice k ⟨s.get k, value⟩ registration.subscriber_id,
          [keys.writeRecord k]⟩ () := by
  unfold set
  split_ifs
  · rfl
  · have hcap : 0 + s.session.pool.num_active_ ≤ kPoolCapacity n := by
      have := h.wellFormed.count
      have := Pool.le_capacity n
      omega
    have hall := keys.fanout_eq s.session k ⟨s.get k, value⟩ s.session.pool.num_active_ 0 [] hcap
    simp only [assign, hb]
    rw [show s.slots_ k = s.get k from rfl, hall]
    rfl

omit [DecidableEq ι] in
-- Whatever becomes of its posts, a write leaves the subscriptions alone, and
-- the slot of its key full.
theorem written_eq (keys : Keys κ V) (s : State V n ι) (k : κ) (value : V k) :
    ∃ written : Written V n ι, (s.set keys k value = .ok written () ∨
      ∃ reason, s.set keys k value = .fault written reason) ∧
      written.cache = if s.holds keys k value then s else s.assign k value := by
  unfold set
  split_ifs
  · exact ⟨_, Or.inl rfl, rfl⟩
  · simp only
    split
    · exact ⟨_, Or.inl rfl, rfl⟩
    · exact ⟨_, Or.inr ⟨_, rfl⟩, rfl⟩

theorem step_set (keys : Keys κ V) (s : State V n ι) (k : κ) (value : V k) :
    s.step keys (.set k value) =
      some (if s.holds keys k value then s else s.assign k value) := by
  obtain ⟨written, hset, hcache⟩ := s.written_eq keys k value
  rw [← hcache]
  simp only [step]
  cases hset with
  | inl hset => rw [hset]
  | inr hset =>
      obtain ⟨reason, hset⟩ := hset
      rw [hset]

-- The registry shows the subscriptions of the cache, with keys for their ids.
structure Shows (keys : Keys κ V) (s : State V n ι) (r : Registry κ ι) : Prop where
  session : s.session.Invariant
  registry : r.map keys.type_id = s.session.registry

omit [DecidableEq κ] in
theorem shows_session {keys : Keys κ V} {s : State V n ι} {r : Registry κ ι}
    (h : s.Shows keys r) {session : Session n ι} {event : Cache.Event ι}
    {registered : Registry.Event κ ι} (he : registered.map keys.type_id = event.registered)
    (hs : s.session.step event = some session) :
    ∃ next, r.step n registered = some next ∧
      ({ s with session := session } : State V n ι).Shows keys next := by
  have hinv := Session.step_invariant h.session hs
  have hstep := Session.registry_step h.session hs
  rw [← h.registry, ← he, Registry.step_map] at hstep
  obtain ⟨next, hn, hmap⟩ := Option.map_eq_some_iff.mp hstep
  exact ⟨next, hn, hinv, hmap⟩

theorem shows_step {keys : Keys κ V} {s t : State V n ι} {r : Registry κ ι}
    (h : s.Shows keys r) {event : Event V ι} (hs : s.step keys event = some t) :
    ∃ next, (Registry.machine n κ ι).run r event.registered.toList = some next ∧
      t.Shows keys next := by
  cases event with
  | bind_post =>
      obtain rfl := Option.some.inj hs
      exact ⟨r, rfl, h.session, h.registry⟩
  | subscribe dst k subscriber_id =>
      obtain ⟨session, hsession, rfl⟩ := Option.map_eq_some_iff.mp hs
      have he : (Registry.Event.subscribe dst k subscriber_id).map keys.type_id =
          (Cache.Event.subscribe dst (keys.type_name k) (keys.type_id k)
            subscriber_id).registered := rfl
      obtain ⟨next, hn, hnext⟩ := shows_session h he hsession
      exact ⟨next, by simp [Event.registered, Machine.run, Registry.machine, hn], hnext⟩
  | handle op =>
      obtain ⟨session, hsession, rfl⟩ := Option.map_eq_some_iff.mp hs
      have he : (Registry.Event.handle op).map keys.type_id = (Cache.Event.handle op).registered :=
        rfl
      obtain ⟨next, hn, hnext⟩ := shows_session h he hsession
      exact ⟨next, by simp [Event.registered, Machine.run, Registry.machine, hn], hnext⟩
  | set k value =>
      rw [step_set] at hs
      have hsession : t.session = s.session := by
        obtain rfl := Option.some.inj hs
        split_ifs <;> rfl
      exact ⟨r, rfl, hsession ▸ h.session, hsession ▸ h.registry⟩

-- The recycled slots and the shifted order list do what the registry does, over
-- the whole history of a cache.
theorem shows_run {keys : Keys κ V} {s t : State V n ι} {r : Registry κ ι} {events}
    (h : s.Shows keys r) (hr : (machine keys n ι).run s events = some t) :
    ∃ next, (Registry.machine n κ ι).run r (events.filterMap Event.registered) = some next ∧
      t.Shows keys next := by
  induction events generalizing s r with
  | nil => exact ⟨r, rfl, Option.some.inj hr ▸ h⟩
  | cons event events ih =>
      obtain ⟨mid, hs, hrest⟩ := Machine.run_cons_some hr
      obtain ⟨registry, hfirst, hmid⟩ := shows_step h hs
      obtain ⟨next, hlast, hnext⟩ := ih hmid hrest
      refine ⟨next, ?_, hnext⟩
      have happ : (event :: events).filterMap Event.registered =
          event.registered.toList ++ events.filterMap Event.registered := by
        cases hreg : event.registered <;> simp [hreg]
      rw [happ, Machine.run_append, hfirst]
      exact hlast

omit [DecidableEq κ] [DecidableEq ι] in
theorem shows_init (keys : Keys κ V) : (init : State V n ι).Shows keys .init where
  session := Session.invariant_init
  registry := rfl

omit [DecidableEq ι] in
-- After a write its own slot is full, and the others are as they were.
theorem get_written (keys : Keys κ V) (s : State V n ι) (other : κ) (value : V other) (k : κ) :
    (if s.holds keys other value then s else s.assign other value).get k = none ↔
      s.get k = none ∧ other ≠ k := by
  by_cases hk : other = k
  · subst hk
    simp only [ne_eq, not_true_eq_false, and_false, iff_false]
    split_ifs with hholds
    · intro hnone
      simp [holds, show s.slots_ other = none from hnone] at hholds
    · simp [assign, get]
  · split_ifs <;> simp [assign, get, hk, Ne.symm hk]

-- A slot is empty as long as its key has not been written.
theorem get_run {keys : Keys κ V} {s t : State V n ι} {events} (k : κ)
    (hr : (machine keys n ι).run s events = some t) :
    t.get k = none ↔ s.get k = none ∧ ∀ value, Event.set k value ∉ events := by
  induction events generalizing s with
  | nil =>
      obtain rfl := Option.some.inj hr
      simp
  | cons event events ih =>
      obtain ⟨mid, hs, hrest⟩ := Machine.run_cons_some hr
      rw [ih hrest]
      have hmid : mid.get k = none ↔
          s.get k = none ∧ ∀ value, Event.set k value ≠ event := by
        cases event with
        | bind_post =>
            obtain rfl := Option.some.inj hs
            simp [get]
        | subscribe | handle =>
            obtain ⟨session, _, rfl⟩ := Option.map_eq_some_iff.mp hs
            simp [get]
        | set other value =>
            rw [show (machine keys n ι).step s (.set other value) = _ from step_set ..] at hs
            obtain rfl := Option.some.inj hs
            rw [get_written]
            refine and_congr_right fun _ => ⟨fun hne v he => hne (Event.set.inj he).1.symm, ?_⟩
            rintro hset rfl
            exact hset value rfl
      simp only [hmid, List.mem_cons, not_or, forall_and, and_assoc, ne_eq]

omit [DecidableEq κ] [DecidableEq ι] in
theorem holds_iff {keys : Keys κ V} {s : State V n ι} {k : κ} {value : V k} :
    s.holds keys k value = true ↔
      ∃ current, s.get k = some current ∧ keys.eq k current value = true := by
  unfold holds get
  cases s.slots_ k <;> simp

omit [DecidableEq ι] in
theorem addressed_eq {keys : Keys κ V} (hk : Function.Injective keys.type_id) {s : State V n ι}
    {r : Registry κ ι} (h : s.Shows keys r) (k : κ) (message : KeyChanged (V k)) :
    ((s.session.registry.live.filter fun registration =>
        registration.key = keys.type_id k).map fun registration =>
          keys.notice k message registration.subscriber_id) =
      (r.live.filter fun registration => registration.key = k).map fun registration =>
        keys.notice k message registration.subscriber_id := by
  have hsame : ∀ registration ∈ r.live,
      ((fun other : Registration type_id_t => decide (other.key = keys.type_id k)) ∘
        Registration.map keys.type_id) registration = decide (registration.key = k) := by
    intro registration _
    simp [Registration.map, hk.eq_iff]
  rw [← h.registry]
  simp only [Registry.map]
  rw [List.filter_map, List.map_map, List.filter_congr hsame]
  rfl

omit [DecidableEq κ] [DecidableEq ι] in
-- The registry lists the subscriptions whose handles are still there, the oldest
-- first.
theorem registry_live {keys : Keys κ V} {s : State V n ι} {r : Registry κ ι}
    (h : s.Shows keys r) :
    (r.live.Pairwise fun a b => a.serial < b.serial) ∧
      ∀ serial, (∃ registration ∈ r.live, registration.serial = serial) ↔
        Handle.Owned r.handles serial := by
  have hserials : r.live.map Registration.serial =
      s.session.pool.live.map s.session.registered_at := by
    have hlive := congrArg (fun registry => registry.live.map Registration.serial) h.registry
    simpa [Registry.map, Session.registry, Registration.map, Session.registration,
      Function.comp_def] using hlive
  refine ⟨List.pairwise_map.mp ?_, fun serial => ?_⟩
  · rw [hserials]
    exact List.pairwise_map.mpr h.session.order
  · have hhandles : r.handles = s.session.handles.map s.session.registered_at :=
      congrArg Registry.handles h.registry
    rw [hhandles, Handle.owned_map, ← List.mem_map, hserials, List.mem_map]
    simp only [h.session.owned, h.session.wellFormed.mem_live]

-- A write that `operator==` finds equal to what the key holds is silent. Any other
-- stores the value, leaves the other keys and the subscriptions alone, and posts
-- one notification to each live subscription for the key, in the order in which
-- they registered, whichever slots were released and taken again before.
theorem set_notifies_subscribers {keys : Keys κ V} (hk : Function.Injective keys.type_id)
    {events} {s : State V n ι} (hr : (machine keys n ι).run init events = some s)
    (hb : s.post_bound = true) (k : κ) (value : V k) :
    ∃ r : Registry κ ι,
      (Registry.machine n κ ι).run .init (events.filterMap Event.registered) = some r ∧
      (s.set keys k value = .ok ⟨s, [], []⟩ () ↔
        ∃ current, s.get k = some current ∧ keys.eq k current value = true) ∧
      ((¬∃ current, s.get k = some current ∧ keys.eq k current value = true) →
        s.set keys k value = .ok ⟨s.assign k value,
          (r.live.filter fun registration => registration.key = k).map fun registration =>
            ⟨kNoSender, registration.subscriber_id, keys.changed_type_id k,
              ⟨k, ⟨s.get k, value⟩⟩⟩,
          [keys.writeRecord k]⟩ ()) ∧
      ((s.assign k value).get k = some value ∧
        (∀ other, other ≠ k → (s.assign k value).get other = s.get other) ∧
        (s.assign k value).session = s.session) ∧
      (s.get k = none ↔ ∀ earlier, Event.set k earlier ∉ events) ∧
      (r.live.Pairwise fun a b => a.serial < b.serial) ∧
      ∀ serial, (∃ registration ∈ r.live, registration.serial = serial) ↔
        Handle.Owned r.handles serial := by
  obtain ⟨r, hrun, hshows⟩ := shows_run (shows_init keys) hr
  have hset := set_eq keys hshows.session hb k value
  rw [addressed_eq hk hshows] at hset
  refine ⟨r, hrun, ⟨fun h => ?_, fun h => ?_⟩, fun h => ?_, ⟨?_, fun other ho => ?_, rfl⟩, ?_,
    registry_live hshows⟩
  · by_contra hnot
    rw [hset, if_neg (fun hh => hnot (holds_iff.mp hh))] at h
    simp at h
  · rw [hset, if_pos (holds_iff.mpr h)]
  · rw [hset, if_neg (fun hh => h (holds_iff.mp hh))]
    rfl
  · simp [assign, get]
  · simp [assign, get, ho]
  · rw [get_run k hr]
    simp [init, get]

def twoKeys : Keys Bool fun _ => Nat :=
  ⟨fun k => if k then 1 else 2, fun k => if k then 3 else 4, toString, fun _ => "-",
    fun _ => (· == ·)⟩

-- The slot of the second subscriber goes to the fourth.
def recycledHistory : List (Event (fun _ : Bool => Nat) Nat) :=
  [.bind_post, .subscribe 0 true 10, .subscribe 1 true 11, .subscribe 2 false 12,
    .handle (.destroy 1), .subscribe 3 true 13, .set true 5]

theorem set_notifies_subscribers_recycledHistory :
    ∃ s : State (fun _ : Bool => Nat) 3 Nat,
      (machine twoKeys 3 Nat).run init recycledHistory = some s ∧
      s.set twoKeys true 7 = .ok ⟨s.assign true 7,
        [⟨0, 10, 3, ⟨true, ⟨some 5, 7⟩⟩⟩, ⟨0, 13, 3, ⟨true, ⟨some 5, 7⟩⟩⟩],
        [twoKeys.writeRecord true]⟩ () := by
  have hrun : ((machine twoKeys 3 Nat).run init recycledHistory).map
      (fun s => (s.post_bound, s.get true)) = some (true, some 5) := by
    decide +kernel
  obtain ⟨s, hs, hread⟩ := Option.map_eq_some_iff.mp hrun
  obtain ⟨hb, hget⟩ := Prod.mk.inj hread
  obtain ⟨r, hregistry, _, hset, _⟩ :=
    set_notifies_subscribers (by decide) hs hb true (7 : Nat)
  have hlive : ((Registry.machine 3 Bool Nat).run .init
      (recycledHistory.filterMap Event.registered)).map Registry.live =
      some [⟨0, true, 10⟩, ⟨2, false, 12⟩, ⟨3, true, 13⟩] := by
    decide +kernel
  rw [hregistry] at hlive
  have hnew : ¬∃ current, s.get true = some current ∧ twoKeys.eq true current 7 = true := by
    rw [hget]
    rintro ⟨current, he, heq⟩
    obtain rfl := Option.some.inj he
    exact nomatch heq
  rw [hget, Option.some.inj hlive] at hset
  exact ⟨s, hs, hset (hget ▸ hnew)⟩

end State

end Cache

end CortexFlow
