import CortexFlow.Cached.Basic
import CortexFlow.Runtime.Delivery
import CortexFlow.Runtime.Stream

namespace CortexFlow

def Payload.serial? {κ : Type*} {V : κ → Type*} {π : Type*} : Payload V π → Option Nat
  | .key_changed serial _ => some serial
  | .other _ => none

namespace Cached

open Lib Cache

-- The changes lead from the one content of a slot to the other, each from where
-- the one before it ended and to a value that is not equal to that.
def Linked {α : Type*} (eq : α → α → Bool) : Option α → List (KeyChanged α) → Option α → Prop
  | start, [], final => start = final
  | start, change :: rest, final =>
      change.old_value = start ∧ (∀ value, start = some value → eq value change.new_value = false) ∧
        Linked eq (some change.new_value) rest final

section Linked

variable {α : Type*} {eq : α → α → Bool} {start final : Option α}

theorem linked_append {changes more : List (KeyChanged α)} :
    Linked eq start (changes ++ more) final ↔
      ∃ mid, Linked eq start changes mid ∧ Linked eq mid more final := by
  induction changes generalizing start with
  | nil =>
      constructor
      · exact fun h => ⟨start, rfl, h⟩
      · rintro ⟨mid, rfl, h⟩
        exact h
  | cons change rest ih =>
      simp only [List.cons_append, Linked, ih]
      constructor
      · rintro ⟨hold, hne, mid, hrest, hmore⟩
        exact ⟨mid, ⟨hold, hne, hrest⟩, hmore⟩
      · rintro ⟨mid, ⟨hold, hne, hrest⟩, hmore⟩
        exact ⟨hold, hne, mid, hrest, hmore⟩

theorem Linked.last {changes : List (KeyChanged α)} (h : Linked eq start changes final)
    {change : KeyChanged α} (hlast : changes.getLast? = some change) :
    final = some change.new_value := by
  induction changes generalizing start with
  | nil => exact nomatch hlast
  | cons first rest ih =>
      cases rest with
      | nil =>
          obtain rfl := Option.some.inj hlast
          exact h.2.2.symm
      | cons second rest => exact ih h.2.2 (by simpa using hlast)

end Linked

variable {κ : Type*} {V : κ → Type*} {π τ : Type*} {n : Nat} {ι : Type*}

def notification (env : Envelope (Payload V π)) : Bool := env.payload_.serial?.isSome

def isFor (serial : Nat) (env : Envelope (Payload V π)) : Bool :=
  env.payload_.serial? = some serial

-- What a subscription is told about a change.
def message (keys : Keys κ V) (k : κ) (registration : Registration type_id_t)
    (change : KeyChanged (V k)) : Envelope (Payload V π) :=
  mark (keys.notice k change registration.subscriber_id) registration.serial

variable [DecidableEq κ]

-- The change that an event is about to make to the slot of the key.
def Event.change (keys : Keys κ V) (s : State V π τ n ι) (k : κ) :
    Event V π τ ι → List (KeyChanged (V k))
  | .set other value =>
      if h : other = k then
        if s.cache.holds keys k (h ▸ value) then [] else [⟨s.cache.get k, h ▸ value⟩]
      else []
  | _ => []

theorem Event.change_eq_nil (keys : Keys κ V) (s : State V π τ n ι) (k : κ)
    {event : Event V π τ ι} (h : ∀ k value, event ≠ .set k value) : event.change keys s k = [] := by
  cases event with
  | set other value => exact absurd rfl (h other value)
  | _ => rfl

namespace State

-- The notifications for a subscription that have been dispatched.
def delivered (s : State V π τ n ι) (serial : Nat) : List (Envelope (Payload V π)) :=
  (s.runtime.dispatched.map Runtime.Post.env).filter (isFor serial)

variable [DecidableEq τ] [DecidableEq ι]

-- All changes that a run makes to the slot of the key.
def changes (keys : Keys κ V) (config : Runtime.Config) (k : κ) :
    State V π τ n ι → List (Event V π τ ι) → List (KeyChanged (V k))
  | _, [] => []
  | s, event :: events =>
      event.change keys s k ++
        match s.step keys config event with
        | none => []
        | some next => changes keys config k next events

structure Invariant (s : State V π τ n ι) : Prop where
  undisturbed : s.runtime.Undisturbed notification
  balanced : s.runtime.Balanced
  session : s.cache.session.Invariant
  bound : s.runtime.cache_ = true → s.cache.post_bound = true ∧ s.runtime.Started
  unused : s.runtime.cache_ = false →
    s.cache.slots_ = (fun _ => none) ∧ s.cache.session = .init
  fresh : ∀ env ∈ s.runtime.brought, ∀ serial, env.payload_.serial? = some serial →
    serial < s.cache.session.clock

omit [DecidableEq κ] [DecidableEq τ] [DecidableEq ι] in
theorem invariant_init : (init : State V π τ n ι).Invariant where
  undisturbed := Runtime.State.undisturbed_init
  balanced := Runtime.State.balanced_init
  session := Session.invariant_init
  bound := nofun
  unused := fun _ => ⟨rfl, rfl⟩
  fresh := nofun

omit [DecidableEq κ] [DecidableEq τ] [DecidableEq ι] in
theorem ready_outside {s : State V π τ n ι} (h : s.ready = true) :
    s.runtime.calls .loop = .outside ∧ s.runtime.cache_ = true := by
  simp only [ready, Bool.and_eq_true] at h
  have hcall : s.runtime.mayCall .loop = true := h.1
  exact ⟨Runtime.State.mayCall_outside hcall, h.2⟩

omit [DecidableEq τ] [DecidableEq ι] in
-- The notifications of a write, each for one of the subscriptions for the key.
theorem set_eq (keys : Keys κ V) {s : State V π τ n ι} (h : s.Invariant)
    (hc : s.runtime.cache_ = true) (k : κ) (value : V k) :
    ∃ written : Written V n ι, s.cache.set keys k value = .ok written () ∧
      written.cache = (if s.cache.holds keys k value then s.cache else s.cache.assign k value) ∧
      List.zipWith mark written.posted ((s.addressed keys k).map fun registration =>
        registration.serial) =
      if s.cache.holds keys k value then ([] : List (Envelope (Payload V π)))
      else (s.addressed keys k).map fun registration =>
        message keys k registration ⟨s.cache.get k, value⟩ := by
  have hset := Cache.State.set_eq keys h.session (h.bound hc).1 k value
  split_ifs at hset ⊢
  · exact ⟨_, hset, rfl, rfl⟩
  · refine ⟨_, hset, rfl, ?_⟩
    simp only [addressed, List.zipWith_map, List.zipWith_self]
    rfl

-- What the steps other than those of the runtime make of the state.
inductive Rule (keys : Keys κ V) (s : State V π τ n ι) : Event V π τ ι → State V π τ n ι → Prop
  | session (event : Event V π τ ι) (session : Session n ι) (sessionEvent : Cache.Event ι) :
      (∀ k value, event ≠ .set k value) → s.cache.session.step sessionEvent = some session →
      Rule keys s event { s with cache := { s.cache with session := session } }
  | silent (k : κ) (value : V k) : s.cache.holds keys k value = true →
      Rule keys s (.set k value) { s with runtime := s.runtime.post_next .loop [] }
  | written (k : κ) (value : V k) : s.cache.holds keys k value = false →
      Rule keys s (.set k value)
        ⟨s.runtime.post_next .loop ((s.addressed keys k).map fun registration =>
          message keys k registration ⟨s.cache.get k, value⟩), s.cache.assign k value⟩

theorem cache_rule {keys : Keys κ V} {config : Runtime.Config} {s t : State V π τ n ι}
    (h : s.Invariant) {event : Event V π τ ι} (hs : s.step keys config event = some t)
    (hne : ∀ other, event ≠ .runtime other) : s.ready = true ∧ Rule keys s event t := by
  cases event with
  | runtime other => exact absurd rfl (hne other)
  | subscribe dst k subscriber_id =>
      simp only [step] at hs
      split_ifs at hs with hready
      simp only [Cache.State.step, Option.map_map] at hs
      obtain ⟨session, hsession, rfl⟩ := Option.map_eq_some_iff.mp hs
      exact ⟨hready, .session _ session _ (fun _ _ => by simp) hsession⟩
  | handle op =>
      simp only [step] at hs
      split_ifs at hs with hready
      simp only [Cache.State.step, Option.map_map] at hs
      obtain ⟨session, hsession, rfl⟩ := Option.map_eq_some_iff.mp hs
      exact ⟨hready, .session _ session _ (fun _ _ => by simp) hsession⟩
  | set k value =>
      simp only [step] at hs
      split_ifs at hs with hready
      obtain ⟨written, hset, hcache, hposted⟩ := set_eq keys h (ready_outside hready).2 k value
      simp only [hset, hposted, hcache] at hs
      obtain rfl := Option.some.inj hs
      split_ifs with hholds
      · exact ⟨hready, .silent k value hholds⟩
      · exact ⟨hready, .written k value (by simpa using hholds)⟩

omit [DecidableEq κ] [DecidableEq ι] in
theorem brought_post {s : State V π τ n ι} (hout : s.runtime.calls .loop = .outside)
    (envs : List (Envelope (Payload V π))) :
    (s.runtime.post_next .loop envs).brought = s.runtime.brought ++ envs := by
  rw [Runtime.State.brought_loop, Runtime.State.brought, hout]
  simp [Runtime.Call.envelopes]

omit [DecidableEq κ] [DecidableEq ι] in
theorem posted_invariant {s : State V π τ n ι} (h : s.Invariant) (hready : s.ready = true)
    {envs : List (Envelope (Payload V π))} {cache : Cache.State V n ι}
    (henvs : ∀ env ∈ envs, ∀ serial, env.payload_.serial? = some serial →
      serial < s.cache.session.clock)
    (hsession : cache.session = s.cache.session) (hbound : cache.post_bound = s.cache.post_bound) :
    (⟨s.runtime.post_next .loop envs, cache⟩ : State V π τ n ι).Invariant := by
  obtain ⟨hout, hcache⟩ := ready_outside hready
  have hstage := Runtime.State.stage_post_next s.runtime .loop envs
  refine ⟨Runtime.State.undisturbed_post_next h.undisturbed .loop fun hne => absurd rfl hne, ?_,
    hsession ▸ h.session, fun _ => ⟨hbound.trans (h.bound hcache).1, ?_⟩, fun hno => ?_,
    fun env henv serial hserial => ?_⟩
  · unfold Runtime.State.Balanced
    rw [Runtime.State.ledger_post_next, Runtime.State.pc_post_next]
    exact h.balanced
  · unfold Runtime.State.Started
    rw [hstage, Runtime.State.pc_post_next]
    exact (h.bound hcache).2
  · rw [hstage] at hno
    exact absurd (hno.symm.trans hcache) nofun
  · rw [brought_post hout] at henv
    simp only [hsession]
    cases List.mem_append.mp henv with
    | inl hold => exact h.fresh env hold serial hserial
    | inr hnew => exact henvs env hnew serial hserial

theorem cache_invariant {keys : Keys κ V} {s t : State V π τ n ι} (h : s.Invariant)
    {event : Event V π τ ι} (hready : s.ready = true) (hr : Rule keys s event t) :
    t.Invariant := by
  have hcache := (ready_outside hready).2
  cases hr with
  | session _ session sessionEvent _ hsession =>
      have hclock := (Registry.step_live (Session.registry_step h.session hsession)).1
      exact ⟨h.undisturbed, h.balanced, Session.step_invariant h.session hsession, h.bound,
        fun hno => absurd (hno.symm.trans hcache) nofun,
        fun env henv serial hserial => (h.fresh env henv serial hserial).trans_le hclock⟩
  | silent => exact posted_invariant h hready nofun rfl rfl
  | written k value =>
      refine posted_invariant h hready (fun env henv serial hserial => ?_) rfl rfl
      obtain ⟨registration, hr, rfl⟩ := List.mem_map.mp henv
      obtain rfl := Option.some.inj hserial
      exact Session.serial_lt_clock h.session (List.mem_filter.mp hr).1

-- An event of the runtime brings in notifications for nobody.
theorem runtime_step {keys : Keys κ V} {config : Runtime.Config} {s t : State V π τ n ι}
    (h : s.Invariant) {event : Runtime.Event π τ} (he : event.ends = false)
    (hs : s.step keys config (.runtime event) = some t) :
    t.Invariant ∧ t.runtime.brought.filter notification = s.runtime.brought.filter notification ∧
      t.cache.slots_ = s.cache.slots_ ∧ t.cache.session = s.cache.session := by
  obtain ⟨runtime, hruntime, ht⟩ := Option.map_eq_some_iff.mp hs
  have hpassive : (event.map (.other : π → Payload V π)).passive notification = true := by
    cases event with
    | call caller op => cases op <;> first | rfl | exact nomatch he
    | _ => first | rfl | exact nomatch he
  obtain ⟨hundisturbed, hbrought⟩ :=
    Runtime.State.undisturbed_step h.undisturbed hpassive hruntime
  obtain ⟨hstarted, hcache, hstart⟩ :=
    Runtime.State.started_step h.undisturbed hpassive hruntime
  have hbalanced := Runtime.State.balanced_step h.balanced hruntime
  have hfresh : ∀ env ∈ runtime.brought, ∀ serial, env.payload_.serial? = some serial →
      serial < s.cache.session.clock := by
    intro env henv serial hserial
    have hmark : notification env = true := by simp [notification, hserial]
    have hold : env ∈ s.runtime.brought.filter notification :=
      hbrought ▸ List.mem_filter.mpr ⟨henv, hmark⟩
    exact h.fresh env (List.mem_filter.mp hold).1 serial hserial
  by_cases hnew : event = .start ∧ s.runtime.started_ = false
  · -- The first `start`: nothing has been made of the cache yet.
    obtain ⟨rfl, hnot⟩ := hnew
    have hidle : s.runtime.pc = .idle := by
      cases (Runtime.State.step_rule hruntime).2 with
      | start htop => exact Runtime.State.atTop_pc htop
    have hnone : s.runtime.cache_ = false := by
      by_contra hc
      obtain hs | hs | hs := (h.bound (by simpa using hc)).2
      · exact absurd (hnot.symm.trans hs) nofun
      · rw [hidle] at hs
        exact nomatch hs
      · rw [hidle] at hs
        exact nomatch hs
    obtain ⟨hslots, hsession⟩ := h.unused hnone
    have hempty : emplace s.cache = ⟨s.cache.slots_, s.cache.session, true⟩ := by
      rw [emplace, hslots, hsession]
      rfl
    simp only [hnot, Bool.false_eq_true, ite_false, hempty] at ht
    subst ht
    have hthere : runtime.cache_ = true := hstart rfl hnot
    have hup : runtime.Started := by
      obtain hsame | hdone := hcache
      · exact absurd (hthere.symm.trans (hsame.trans hnone)) nofun
      · exact hdone.2.2
    exact ⟨⟨hundisturbed, hbalanced, h.session, fun _ => ⟨rfl, hup⟩,
      fun hno => absurd (hno.symm.trans hthere) nofun, hfresh⟩, hbrought, rfl, rfl⟩
  · have hsame : t = { s with runtime := runtime } := by
      cases event with
      | start =>
          have hstarted : s.runtime.started_ = true := by simpa using hnew
          simp only [hstarted, ite_true] at ht
          exact ht.symm
      | _ => exact ht.symm
    have hcache : runtime.cache_ = s.runtime.cache_ := by
      refine hcache.resolve_right fun hother => hnew ⟨?_, hother.2.1⟩
      cases event <;> first | rfl | exact nomatch hother.1
    subst hsame
    refine ⟨⟨hundisturbed, hbalanced, h.session, fun hc => ?_, fun hc => ?_, hfresh⟩, hbrought,
      rfl, rfl⟩
    · obtain ⟨hbound, hup⟩ := h.bound (hcache ▸ hc)
      exact ⟨hbound, hstarted hup⟩
    · exact h.unused (hcache ▸ hc)

theorem invariant_step {keys : Keys κ V} {config : Runtime.Config} {s t : State V π τ n ι}
    (h : s.Invariant) {event : Event V π τ ι} (he : event.ends = false)
    (hs : s.step keys config event = some t) : t.Invariant := by
  cases event with
  | runtime event => exact (runtime_step h he hs).1
  | subscribe | handle | set =>
      obtain ⟨hready, hrule⟩ := cache_rule h hs nofun
      exact cache_invariant h hready hrule

-- What is known of one subscription for the key `k`, made when the slot had the
-- content `start`, after the changes that have been made since.
structure Watching (keys : Keys κ V) (k : κ) (registration : Registration type_id_t)
    (start : Option (V k)) (s : State V π τ n ι) (changes : List (KeyChanged (V k))) : Prop where
  issued : registration.serial < s.cache.session.clock
  own : ∀ other ∈ s.cache.session.registry.live, other.serial = registration.serial →
    other = registration
  linked : Linked (keys.eq k) start changes (s.cache.get k)
  sent : registration ∈ s.cache.session.registry.live →
    s.runtime.brought.filter (isFor registration.serial) =
      changes.map (message keys k registration)

omit [DecidableEq κ] [DecidableEq τ] [DecidableEq ι] in
theorem filter_isFor {envs more : List (Envelope (Payload V π))} (serial : Nat)
    (h : envs.filter notification = more.filter notification) :
    envs.filter (isFor serial) = more.filter (isFor serial) := by
  have hsub (list : List (Envelope (Payload V π))) :
      (list.filter notification).filter (isFor serial) = list.filter (isFor serial) := by
    rw [List.filter_filter]
    refine List.filter_congr fun env _ => ?_
    unfold isFor notification
    cases env.payload_.serial? <;> simp
  rw [← hsub envs, h, hsub]

omit [DecidableEq τ] [DecidableEq ι] in
-- Among the subscriptions for a key only the one itself has its number.
theorem filter_addressed {keys : Keys κ V} (hk : Function.Injective keys.type_id)
    {s : State V π τ n ι} (h : s.Invariant) {k : κ} {registration : Registration type_id_t}
    (hkey : registration.key = keys.type_id k)
    (hown : ∀ other ∈ s.cache.session.registry.live, other.serial = registration.serial →
      other = registration)
    (hlive : registration ∈ s.cache.session.registry.live) (other : κ) (value : V other) :
    ((s.addressed keys other).map fun registration =>
      (message keys other registration ⟨s.cache.get other, value⟩ :
        Envelope (Payload V π))).filter (isFor registration.serial) =
      if other = k then [message keys other registration ⟨s.cache.get other, value⟩] else [] := by
  have hfilter : (s.addressed keys other).filter (fun found =>
      isFor registration.serial (message keys other found ⟨s.cache.get other, value⟩ :
        Envelope (Payload V π))) =
      (s.cache.session.registry.live.filter fun found => found = registration).filter
        fun found => found.key = keys.type_id other := by
    rw [addressed, List.filter_comm]
    congr 1
    refine List.filter_congr fun found hfound => ?_
    simp only [isFor, message, mark, Envelope.map, Payload.serial?, Option.some.injEq,
      decide_eq_decide]
    exact ⟨hown found hfound, fun he => he ▸ rfl⟩
  have hone : s.cache.session.registry.live.filter (fun found => found = registration) =
      [registration] := by
    rw [List.filter_eq, List.count_eq_one_of_mem
      (List.Nodup.of_map _ (Session.serials_nodup h.session)) hlive]
    rfl
  rw [List.filter_map, Function.comp_def, hfilter, hone]
  split_ifs with he
  · subst he
    simp [hkey]
  · simp [hkey, hk.eq_iff, Ne.symm he]

theorem watching_cache {keys : Keys κ V} (hk : Function.Injective keys.type_id)
    {s t : State V π τ n ι} (h : s.Invariant) {event : Event V π τ ι} {k : κ}
    {registration : Registration type_id_t} (hkey : registration.key = keys.type_id k)
    {start : Option (V k)} {changes : List (KeyChanged (V k))}
    (hw : s.Watching keys k registration start changes) (hready : s.ready = true)
    (hr : Rule keys s event t) :
    t.Watching keys k registration start (changes ++ event.change keys s k) := by
  have hout := (ready_outside hready).1
  cases hr with
  | session _ session sessionEvent hnot hsession =>
      have hchange := Event.change_eq_nil keys s k hnot
      obtain ⟨hclock, hlive⟩ := Registry.step_live (Session.registry_step h.session hsession)
      have hold : ∀ other ∈ session.registry.live, other.serial = registration.serial →
          other ∈ s.cache.session.registry.live := by
        intro other ho hserial
        cases hlive other ho with
        | inl hold => exact hold
        | inr hnew => exact absurd (hserial.symm.trans hnew) (Nat.ne_of_lt hw.issued)
      rw [hchange, List.append_nil]
      exact ⟨hw.issued.trans_le hclock,
        fun other ho hserial => hw.own other (hold other ho hserial) hserial, hw.linked,
        fun hmem => hw.sent (hold registration hmem rfl)⟩
  | silent other value hholds =>
      have hchange : Event.change keys s k (.set other value : Event V π τ ι) = [] := by
        simp only [Event.change]
        split_ifs with he hsame
        · rfl
        · subst he
          exact absurd hholds hsame
        · rfl
      rw [hchange, List.append_nil]
      refine ⟨hw.issued, hw.own, hw.linked, fun hmem => ?_⟩
      rw [brought_post hout, List.append_nil]
      exact hw.sent hmem
  | written other value hholds =>
      have hfilter := filter_addressed hk h hkey hw.own
      by_cases he : other = k
      · subst he
        have hchange : Event.change keys s other (.set other value : Event V π τ ι) =
            [⟨s.cache.get other, value⟩] := by
          simp [Event.change, hholds]
        have hget : (s.cache.assign other value).get other = some value := by
          simp [Cache.State.assign, Cache.State.get]
        rw [hchange]
        refine ⟨hw.issued, hw.own, linked_append.mpr
          ⟨_, hw.linked, rfl, fun current hc => ?_, hget.symm⟩,
          fun hmem => ?_⟩
        · by_contra heq
          have hsame : s.cache.holds keys other value = true :=
            Cache.State.holds_iff.mpr ⟨current, hc, by simpa using heq⟩
          exact absurd (hholds.symm.trans hsame) (by simp)
        · rw [brought_post hout, List.filter_append, hw.sent hmem, hfilter hmem, if_pos rfl,
            List.map_append]
          rfl
      · have hchange : Event.change keys s k (.set other value : Event V π τ ι) = [] := by
          simp [Event.change, he]
        have hget : (s.cache.assign other value).get k = s.cache.get k := by
          simp [Cache.State.assign, Cache.State.get, Ne.symm he]
        rw [hchange, List.append_nil]
        refine ⟨hw.issued, hw.own, hget ▸ hw.linked, fun hmem => ?_⟩
        rw [brought_post hout, List.filter_append, hw.sent hmem, hfilter hmem, if_neg he,
          List.append_nil]

theorem watching_step {keys : Keys κ V} (hk : Function.Injective keys.type_id)
    {config : Runtime.Config} {s t : State V π τ n ι} (h : s.Invariant) {event : Event V π τ ι}
    (he : event.ends = false) {k : κ} {registration : Registration type_id_t}
    (hkey : registration.key = keys.type_id k) {start : Option (V k)}
    {changes : List (KeyChanged (V k))} (hw : s.Watching keys k registration start changes)
    (hs : s.step keys config event = some t) :
    t.Watching keys k registration start (changes ++ event.change keys s k) := by
  cases event with
  | runtime event =>
      obtain ⟨_, hbrought, hslots, hsession⟩ := runtime_step h he hs
      have hget : t.cache.get k = s.cache.get k := congrFun hslots k
      have hchange : Event.change keys s k (.runtime event : Event V π τ ι) = [] := rfl
      rw [hchange, List.append_nil]
      refine ⟨hsession ▸ hw.issued, hsession ▸ hw.own, hget ▸ hw.linked, fun hmem => ?_⟩
      rw [filter_isFor _ hbrought]
      exact hw.sent (hsession ▸ hmem)
  | subscribe | handle | set =>
      obtain ⟨hready, hrule⟩ := cache_rule h hs nofun
      exact watching_cache hk h hkey hw hready hrule

theorem watching_run {keys : Keys κ V} (hk : Function.Injective keys.type_id)
    {config : Runtime.Config} {s t : State V π τ n ι} (h : s.Invariant)
    {events : List (Event V π τ ι)} (he : ∀ event ∈ events, event.ends = false) {k : κ}
    {registration : Registration type_id_t} (hkey : registration.key = keys.type_id k)
    {start : Option (V k)} {changes : List (KeyChanged (V k))}
    (hw : s.Watching keys k registration start changes)
    (hr : (machine π τ keys config n ι).run s events = some t) :
    t.Invariant ∧
      t.Watching keys k registration start (changes ++ s.changes keys config k events) := by
  induction events generalizing s changes with
  | nil =>
      obtain rfl := Option.some.inj hr
      rw [State.changes, List.append_nil]
      exact ⟨h, hw⟩
  | cons event events ih =>
      obtain ⟨mid, hs, hrest⟩ := Machine.run_cons_some hr
      obtain ⟨hfirst, hlater⟩ := List.forall_mem_cons.mp he
      have hmid := watching_step hk h hfirst hkey hw hs
      have hall := ih (invariant_step h hfirst hs) hlater hmid hrest
      have hstep : s.step keys config event = some mid := hs
      rw [State.changes, hstep, ← List.append_assoc]
      exact hall

-- A new subscription has been told nothing.
theorem watching_subscribe {keys : Keys κ V} {config : Runtime.Config} {s t : State V π τ n ι}
    (h : s.Invariant) {dst : ι} {k : κ} {subscriber_id : type_id_t}
    (hs : s.step keys config (.subscribe dst k subscriber_id) = some t)
    (hfree : s.cache.session.pool.num_active_ < n) :
    t.Watching keys k ⟨s.cache.session.clock, keys.type_id k, subscriber_id⟩ (s.cache.get k)
      [] := by
  simp only [step] at hs
  split_ifs at hs with hready
  simp only [Cache.State.step, Option.map_map] at hs
  obtain ⟨session, hsession, rfl⟩ := Option.map_eq_some_iff.mp hs
  have hstep := Session.registry_step h.session hsession
  have hlen : s.cache.session.registry.live.length = s.cache.session.pool.num_active_ := by
    simp only [Session.registry, List.length_map, Pool.length_live h.session.wellFormed]
  simp only [Cache.Event.registered, Registry.step, hlen, Nat.not_le.mpr hfree, ite_false] at hstep
  obtain ⟨handles, _, hnext⟩ := Option.map_eq_some_iff.mp hstep
  have hclock : session.clock = s.cache.session.clock + 1 :=
    (congrArg Registry.next hnext).symm
  have hlive : session.registry.live = s.cache.session.registry.live ++
      [⟨s.cache.session.clock, keys.type_id k, subscriber_id⟩] :=
    (congrArg Registry.live hnext).symm
  refine ⟨by simp [hclock], fun other ho hserial => ?_, rfl, fun _ => ?_⟩
  · simp only [Function.comp_apply, hlive, List.mem_append, List.mem_singleton] at ho
    cases ho with
    | inl hold => exact absurd hserial (Nat.ne_of_lt (Session.serial_lt_clock h.session hold))
    | inr hnew => exact hnew
  · refine List.filter_eq_nil_iff.mpr fun env henv hfor => ?_
    have hserial : env.payload_.serial? = some s.cache.session.clock := by
      simpa [isFor] using hfor
    exact Nat.lt_irrefl _ (h.fresh env henv _ hserial)

theorem get_step {keys : Keys κ V} {config : Runtime.Config} {s t : State V π τ n ι}
    (h : s.Invariant) {event : Event V π τ ι} (he : event.ends = false)
    (hs : s.step keys config event = some t) (k : κ) :
    t.cache.get k = none ↔ s.cache.get k = none ∧ ∀ value, Event.set k value ≠ event := by
  cases event with
  | runtime event =>
      have hget : t.cache.get k = s.cache.get k := congrFun (runtime_step h he hs).2.2.1 k
      simp [hget]
  | subscribe | handle =>
      cases (cache_rule h hs (by simp)).2 with
      | session => simp [Cache.State.get]
  | set other value =>
      have hget : t.cache.get k = none ↔ s.cache.get k = none ∧ other ≠ k := by
        rw [← Cache.State.get_written keys s.cache other value k]
        cases (cache_rule h hs (by simp)).2 with
        | session _ _ _ hnot => exact absurd rfl (hnot other value)
        | silent _ _ hholds => rw [if_pos hholds]
        | written _ _ hholds => rw [if_neg (by simp [hholds])]
      rw [hget]
      refine and_congr_right fun _ => ⟨fun hne v he => hne (Event.set.inj he).1.symm, ?_⟩
      rintro hset rfl
      exact hset value rfl

theorem run_invariant {keys : Keys κ V} {config : Runtime.Config} {s t : State V π τ n ι}
    (h : s.Invariant) {events : List (Event V π τ ι)}
    (he : ∀ event ∈ events, event.ends = false)
    (hr : (machine π τ keys config n ι).run s events = some t) (k : κ) :
    t.Invariant ∧ (t.cache.get k = none ↔
      s.cache.get k = none ∧ ∀ value, Event.set k value ∉ events) := by
  induction events generalizing s with
  | nil =>
      obtain rfl := Option.some.inj hr
      simp [h]
  | cons event events ih =>
      obtain ⟨mid, hs, hrest⟩ := Machine.run_cons_some hr
      obtain ⟨hfirst, hlater⟩ := List.forall_mem_cons.mp he
      obtain ⟨ht, hget⟩ := ih (invariant_step h hfirst hs) hlater hrest
      refine ⟨ht, ?_⟩
      rw [hget, get_step h hfirst hs k]
      simp only [List.mem_cons, not_or, forall_and, and_assoc, ne_eq]

-- What a subscription has been told so far and what is still on its way are
-- together all changes of its key since it was made, each told once and in order,
-- and lead from the content then to the content now.
theorem subscribers_converge {keys : Keys κ V} (hk : Function.Injective keys.type_id)
    {config : Runtime.Config} {s s' t : State V π τ n ι} {before after : List (Event V π τ ι)}
    {dst : ι} {k : κ} {subscriber_id : type_id_t}
    (hbefore : (machine π τ keys config n ι).run init before = some s)
    (hsub : s.step keys config (.subscribe dst k subscriber_id) = some s')
    (hfree : s.cache.session.pool.num_active_ < n)
    (hafter : (machine π τ keys config n ι).run s' after = some t)
    (hends : ∀ event ∈ before ++ after, event.ends = false)
    (halive : ∃ registration ∈ t.cache.session.registry.live,
      registration.serial = s.cache.session.clock) :
    ∃ (seen pending : List (KeyChanged (V k))) (told : Option (V k)),
      s'.changes keys config k after = seen ++ pending ∧
      t.delivered s.cache.session.clock = seen.map
        (message keys k ⟨s.cache.session.clock, keys.type_id k, subscriber_id⟩) ∧
      Linked (keys.eq k) (s.cache.get k) seen told ∧
      Linked (keys.eq k) told pending (t.cache.get k) ∧
      (s.cache.get k = none ↔ ∀ value, Event.set k value ∉ before) ∧
      (t.runtime.queue_ = [] → t.runtime.calls .loop = .outside →
        pending = [] ∧ t.cache.get k = told ∧
          ∀ change, seen.getLast? = some change → t.cache.get k = some change.new_value) := by
  have hfirst : ∀ event ∈ before, event.ends = false :=
    fun event he => hends event (List.mem_append_left _ he)
  obtain ⟨hs, hget⟩ := run_invariant invariant_init hfirst hbefore k
  have hs' := invariant_step hs rfl hsub
  obtain ⟨ht, hw⟩ := watching_run hk hs' (fun event he => hends event (List.mem_append_right _ he))
    rfl (watching_subscribe hs hsub hfree) hafter
  obtain ⟨registration, hlive, hserial⟩ := halive
  obtain rfl := hw.own registration hlive hserial
  -- What the runtime has taken in is what it has dispatched and what waits.
  have hsent := hw.sent hlive
  have haccepted := ht.balanced.accepted
  rw [ht.undisturbed.discarded, List.append_nil] at haccepted
  rw [Runtime.State.brought, haccepted, List.map_append, List.append_assoc, List.filter_append,
    List.nil_append] at hsent
  obtain ⟨seen, pending, hchanges, hseen, hpending⟩ := List.map_eq_append_iff.mp hsent.symm
  have hlinked := hw.linked
  rw [List.nil_append, hchanges] at hlinked
  obtain ⟨told, htold, hrest⟩ := linked_append.mp hlinked
  refine ⟨seen, pending, told, hchanges, hseen.symm, htold, hrest, ?_, fun hq hout => ?_⟩
  · rw [hget]
    simp [init, Cache.State.init, Cache.State.get]
  · have hnone : pending = [] := by
      rw [hq, hout] at hpending
      exact List.map_eq_nil_iff.mp hpending
    subst hnone
    obtain rfl : told = t.cache.get k := hrest
    exact ⟨rfl, rfl, fun change hlast => htold.last hlast⟩

-- `on_start` subscribes and writes; the handler of the notification writes again.
def openingRun : List (Event (fun _ : Bool => Nat) Nat Nat Nat) := [.runtime .start, .runtime .loop]

def posted : List (Event (fun _ : Bool => Nat) Nat Nat Nat) :=
  [.runtime (.advance .loop), .runtime (.advance .loop), .runtime (.advance .loop)]

def notifiedRun : List (Event (fun _ : Bool => Nat) Nat Nat Nat) :=
  [.set true 5] ++ posted ++ [.runtime .loop, .runtime .run_one, .runtime .loop, .set true 9] ++
    posted ++ [.set true 9, .set false 1, .runtime .loop, .runtime .loop, .runtime .loop,
      .runtime .loop]

theorem subscribers_converge_notifiedRun :
    ∃ (t : State (fun _ : Bool => Nat) Nat Nat 2 Nat) (seen : List (KeyChanged Nat)),
      (machine Nat Nat Cache.State.twoKeys ⟨[7], 8⟩ 2 Nat).run init
        (openingRun ++ .subscribe 0 true 7 :: notifiedRun) = some t ∧
      t.delivered 0 = seen.map (message Cache.State.twoKeys true ⟨0, 1, 7⟩) ∧
      Linked (· == ·) none seen (some 9) ∧ t.cache.get true = some 9 := by
  have hopening : ((machine Nat Nat Cache.State.twoKeys ⟨[7], 8⟩ 2 Nat).run init openingRun).map
      (fun s => (s.cache.session.pool.num_active_, s.cache.session.clock, s.cache.get true)) =
      some (0, 0, none) := by
    decide +kernel
  have hall : ((machine Nat Nat Cache.State.twoKeys ⟨[7], 8⟩ 2 Nat).run init
      (openingRun ++ .subscribe 0 true 7 :: notifiedRun)).map (fun t =>
        (t.runtime.queue_.length, t.runtime.free,
          t.cache.session.registry.live.map Registration.serial, t.cache.get true)) =
      some (0, true, [0], some 9) := by
    decide +kernel
  obtain ⟨t, ht, hread⟩ := Option.map_eq_some_iff.mp hall
  have hsplit := ht
  rw [Machine.run_append] at hsplit
  obtain ⟨s, hs, hrest⟩ := Option.bind_eq_some_iff.mp hsplit
  obtain ⟨s', hsub, hafter⟩ := Machine.run_cons_some hrest
  rw [hs] at hopening
  simp only [Option.map_some, Option.some.injEq, Prod.mk.injEq] at hopening hread
  obtain ⟨hnum, hclock, hget⟩ := hopening
  obtain ⟨hq, hfree, hlive, hnow⟩ := hread
  have halive : ∃ registration ∈ t.cache.session.registry.live,
      registration.serial = s.cache.session.clock := by
    rw [hclock, ← List.mem_map, hlive]
    exact List.mem_singleton.mpr rfl
  have hfirst : s.cache.session.pool.num_active_ < 2 := by omega
  obtain ⟨seen, pending, told, _, hseen, hlinked, _, _, hend⟩ :=
    subscribers_converge (by decide) hs hsub hfirst hafter (by decide) halive
  have hcall : t.runtime.mayCall .loop = true := hfree
  obtain ⟨_, htold, _⟩ :=
    hend (List.length_eq_zero_iff.mp hq) (Runtime.State.mayCall_outside hcall)
  rw [← htold, hnow, hget] at hlinked
  rw [hclock] at hseen
  exact ⟨t, seen, ht, hseen, hlinked, hnow⟩

end State

end Cached

end CortexFlow
