import CortexFlow.Messaging.Ownership

namespace CortexFlow

open Lib

namespace TimerService

open Messaging

variable {T α : Type*} [DecidableEq T] [DecidableEq α]

theorem count_held_push (types : Types T α) (service : TimerService (Messaging.Payload T α))
    (due : Int) (env : Envelope (Messaging.Payload T α)) (owner_name type_name : String)
    (block : Block T α) :
    ((service.push due env owner_name type_name).held types).count block =
      (env.held types).count block + (service.held types).count block := by
  have hperm := Heap.toList_push service.heap_
    ⟨due, service.next_seq_, env, owner_name, type_name⟩
  have hcount := (hperm.flatMap_right fun entry => entry.envelope.held types).count_eq block
  rw [List.flatMap_cons, List.count_append] at hcount
  exact hcount

omit [DecidableEq T] [DecidableEq α] in
-- Moving the entries about leaves the heap that `push` and `reap` say.
theorem heap_push_moves (types : Types T α) (service : TimerService (Messaging.Payload T α))
    (due : Int) (env : Envelope (Messaging.Payload T α)) (owner_name type_name : String) :
    (Heap.push_heap Entry.due (Entry.movable types)
      (service.heap_.vec.push ⟨due, service.next_seq_, env, owner_name, type_name⟩)).vec =
        (service.push due env owner_name type_name).heap_.vec ∧
      service.pushed types due env owner_name type_name = [] :=
  ⟨Heap.push_vec .., Heap.pushReleased_eq ..⟩

omit [DecidableEq T] [DecidableEq α] in
theorem heap_reap_moves (types : Types T α) {service : TimerService (Messaging.Payload T α)}
    {n : Nat} {vec : Vector (Entry (Messaging.Payload T α)) (n + 1)}
    {ordered : Heap.Ordered Entry.due vec} (h : service.heap_ = ⟨n + 1, vec, ordered⟩) :
    service.heap_.front? = some (Heap.pop_heap Entry.due (Entry.movable types) vec).2 ∧
      service.reap.heap_.toList =
        (Heap.pop_heap Entry.due (Entry.movable types) vec).1.vec.toList := by
  obtain ⟨hvec, hfront⟩ := Heap.pop_vec (Entry.movable types) vec ordered
  rw [← h] at hfront
  rw [hvec, (reap_eq hfront).1, h]
  exact ⟨h ▸ hfront, rfl⟩

-- What `fire_due` takes off the heap is handed over or destructed.
theorem count_held_collect (types : Types T α) (now : Int) (fuel : Nat)
    (service : TimerService (Messaging.Payload T α)) (block : Block T α) :
    (service.held types).count block =
      (((collect now fuel service).2.map FiringRecord.envelope).flatMap
          (Envelope.held types)).count block +
        (service.reaped types now fuel).count block +
        ((collect now fuel service).1.held types).count block := by
  induction fuel generalizing service with
  | zero => simp [collect, reaped]
  | succ fuel ih =>
      cases hfront : service.heap_.front? with
      | none => simp [collect, reaped, hfront]
      | some entry =>
          by_cases hdue : entry.due ≤ now
          · have hpop : (service.held types).count block =
                (entry.envelope.held types).count block +
                  (service.reap.held types).count block := by
              have hperm := (Heap.toList_pop hfront).flatMap_right fun other =>
                other.envelope.held types
              have hcount := hperm.count_eq block
              rw [List.flatMap_cons, List.count_append, ← (reap_eq hfront).1] at hcount
              exact hcount
            have hrest := ih service.reap
            by_cases hlive : entry.seq ∈ service.live_seqs_
            · simp only [collect, reaped, hfront, hdue, hlive, ite_true, List.map_cons,
                List.flatMap_cons, List.count_append, Heap.popReleased_eq, List.nil_append,
                Entry.record]
              omega
            · simp only [collect, reaped, hfront, hdue, hlive, ite_true, ite_false,
                List.count_append, Heap.popReleased_eq, List.nil_append]
              omega
          · simp [collect, reaped, hfront, hdue]

end TimerService

namespace Runtime

variable {π τ : Type*} {config : Config}

-- Steps that touch neither the queue nor the timers, and begin no post.
def Event.quiet : Event π τ → Bool
  | .call _ (.post _) | .call _ (.arm ..) | .call _ .fire_due | .advance _ | .loop => false
  | _ => true

-- Steps of the owning thread that take envelopes from somewhere.
def Pc.disposes : Pc → Bool
  | .take _ | .discard | .clear_timers | .fire => true
  | _ => false

namespace State

theorem loop_rest [DecidableEq τ] {s t : State π τ} (h : s.loop config = some t)
    (hp : s.pc.disposes = false) : t.queue_ = s.queue_ ∧ t.toShared = s.toShared := by
  cases loop_rule h with
  | construct => exact ⟨congrArg Ledger.queue_ (ledger_begin_construct ..), by simp⟩
  | on_start => exact ⟨congrArg Ledger.queue_ (ledger_begin_on_start ..), by simp⟩
  | on_stop => exact ⟨congrArg Ledger.queue_ (ledger_begin_on_stop ..), by simp⟩
  | destroy => exact ⟨congrArg Ledger.queue_ (ledger_begin_destroy ..), by simp⟩
  | take | discard | clear_timers | fire =>
      simp only [‹s.pc = _›, Pc.disposes] at hp
      exact nomatch hp
  | _ => exact ⟨rfl, rfl⟩

theorem take_queue (s : State π τ) (config : Config) (drain : Drain) :
    (s.take config drain).queue_ =
      if budgetSpent config drain then s.queue_ else s.queue_.tail := by
  have hdrained : (s.drained drain).queue_ = s.queue_ := by cases drain <;> rfl
  unfold take
  split_ifs
  · exact hdrained
  · cases hq : s.queue_ with
    | nil => simp only [hdrained, hq, List.tail_nil]
    | cons post queue =>
        simp only [List.tail_cons]
        split <;> rfl

theorem discard_queue (s : State π τ) (config : Config) : (s.discard config).queue_ = [] := by
  unfold discard
  split
  · exact (congrArg Ledger.queue_ (ledger_begin_on_stop ..)).trans ‹_›
  · exact congrArg Ledger.queue_ (ledger_begin_on_stop ..)

variable [DecidableEq τ]

theorem envelopes_setCall (s : State π τ) (caller : Caller τ) {call : Call π}
    (h : call.envelopes = []) (other : Caller τ) :
    ((s.setCall caller call).calls other).envelopes <:+ (s.calls other).envelopes := by
  by_cases ho : other = caller
  · subst ho
    simp [setCall, h]
  · rw [calls_setCall _ ho]

theorem calls_post_next_self (s : State π τ) (caller : Caller τ) (envs : List (Envelope π)) :
    (s.post_next caller envs).calls caller =
      match envs with
      | [] => .outside
      | env :: rest => .post_test env rest := by
  cases envs <;> simp [post_next, setCall]

theorem envelopes_post_next (s : State π τ) (caller : Caller τ) (envs : List (Envelope π)) :
    ((s.post_next caller envs).calls caller).envelopes = envs := by
  rw [calls_post_next_self]
  cases envs <;> rfl

-- A quiet step leaves the queue, the heap and the posts under way alone.
theorem quiet_step {s t : State π τ} {event : Event π τ} (h : step config s event = some t)
    (he : event.quiet = true) :
    t.queue_ = s.queue_ ∧ t.timers_.heap_ = s.timers_.heap_ ∧
      ∀ caller, (t.calls caller).envelopes <:+ (s.calls caller).envelopes := by
  cases (step_rule h).2 with
  | tick | wake | timeout => exact ⟨rfl, rfl, fun _ => List.suffix_rfl⟩
  | call caller op =>
      cases op with
      | post | arm | fire_due => cases he
      | stop => exact ⟨rfl, rfl, envelopes_setCall s caller rfl⟩
      | cancel seq =>
          refine ⟨rfl, ?_, fun _ => List.suffix_rfl⟩
          simp only [begin_op, TimerService.cancel_by_seq]
          split_ifs <;> rfl
  | start htop =>
      refine ⟨congrArg Ledger.queue_ (ledger_start s config), ?_, fun _ => ?_⟩
      · unfold start
        split_ifs
        · rfl
        · rw [shared_begin_construct]
          rfl
      · rw [(start_calls s config).1]
  | run | run_one | shutdown =>
      refine ⟨congrArg Ledger.queue_ (ledger_enter ..), ?_, fun _ => ?_⟩
      · rw [shared_enter]
      · rw [shared_enter]
  | post_dropped | post_tested | post_refused | post_pushed | post_notified | stop_set
  | stop_notified | loop => cases he

-- What `fire_due` makes of the timers and of the thread's own call.
theorem fire_due_spec (s : State π τ) {caller : Caller τ} (hc : s.calls caller = .outside) :
    (s.fire_due caller).timers_ =
        (TimerService.collect s.now s.timers_.heap_.toList.length s.timers_).1 ∧
      ((s.fire_due caller).calls caller).envelopes <:+
        (TimerService.collect s.now s.timers_.heap_.toList.length s.timers_).2.map
          TimerService.FiringRecord.envelope := by
  unfold fire_due TimerService.fire_due
  simp only
  split_ifs
  · refine ⟨rfl, ?_⟩
    simp only [fail, hc]
    exact List.nil_suffix
  · refine ⟨timers_post_next .., ?_⟩
    rw [envelopes_post_next]

-- Only what was in the queue is dispatched.
theorem dispatched_mem {s t : State π τ} {event : Event π τ} (h : step config s event = some t)
    {post : Post π τ} (hp : post ∈ t.dispatched) : post ∈ s.dispatched ∨ post ∈ s.queue_ := by
  cases step_effect h with
  | aside hl | stopped hl => exact Or.inl (by rwa [hl] at hp)
  | pushed _ _ _ _ _ ht => exact Or.inl (by rwa [ht] at hp)
  | loop hloop =>
      cases hloop with
      | moved hl | returned hl | discarded hl => exact Or.inl (by rwa [hl] at hp)
      | taken first queue hq hl =>
          rw [hl] at hp
          cases List.mem_append.mp hp with
          | inl hold => exact Or.inl hold
          | inr hnew => exact Or.inr (hq ▸ List.mem_singleton.mp hnew ▸ List.mem_cons_self)
      | finished _ ht =>
          rw [ht] at hp
          exact nomatch hp

end State

end Runtime

namespace Messaging

variable {T α τ : Type*}

namespace Object

-- What `push_back` takes out of the object that a thread's `post` works on.
theorem give_spec [DecidableEq T] [DecidableEq α] (types : Types T α) {object : Object T α}
    {env : Envelope (Payload T α)} {rest : List (Envelope (Payload T α))}
    (h : env :: rest <:+ object.envelopes) :
    rest <:+ (object.give rest.length).envelopes ∧
      ∀ block, ((object.give rest.length).held types).count block +
        (env.held types).count block = (object.held types).count block := by
  cases object with
  | ptr msg => exact absurd (List.suffix_nil.mp h) nofun
  | envelope other origin =>
      have hrest : rest = [] := by
        have hlen := h.length_le
        simp only [envelopes, List.length_cons, List.length_nil] at hlen
        exact List.length_eq_zero_iff.mp (by omega)
      subst hrest
      obtain rfl : env = other := (List.cons.inj (h.eq_of_length rfl)).1
      refine ⟨List.nil_suffix, fun block => ?_⟩
      simp only [give, held, held_husk, List.count_nil, Nat.zero_add]
  | to_fire envs =>
      obtain ⟨before, hbefore⟩ := h
      simp only [envelopes] at hbefore
      subst hbefore
      simp only [give, envelopes, held, giveAt_append]
      refine ⟨⟨before ++ [env.husk], by simp⟩, fun block => ?_⟩
      simp only [List.flatMap_append, List.flatMap_cons, List.count_append, held_husk,
        List.count_nil]
      omega

end Object

theorem count_flatMap_set {A B : Type*} [DecidableEq B] (f : A → List B) (l : List A) (i : Nat)
    {old : A} (new : A) (h : l[i]? = some old) (b : B) :
    ((l.set i new).flatMap f).count b + (f old).count b =
      (l.flatMap f).count b + (f new).count b := by
  induction l generalizing i with
  | nil => exact nomatch h
  | cons first rest ih =>
      cases i with
      | zero =>
          obtain rfl := Option.some.inj h
          simp only [List.set_cons_zero, List.flatMap_cons, List.count_append]
          omega
      | succ i =>
          have hrest := ih i (by simpa using h)
          simp only [List.set_cons_succ, List.flatMap_cons, List.count_append]
          omega

namespace State

-- What the objects of the program hold, and what all owners there are hold: one
-- entry for each pointer or envelope that has a payload.
def objectsHeld (s : State T α τ) (types : Types T α) : List (Block T α) :=
  s.objects.flatMap (slotHeld types)

def owned (s : State T α τ) (types : Types T α) : List (Block T α) :=
  s.objectsHeld types ++ queueHeld types s.runtime.queue_ ++ s.runtime.timers_.held types

-- The payloads made are those that have an owner and those that were freed.
structure Balanced (types : Types T α) (s : State T α τ) : Prop where
  law : ((s.owned types) ++ s.freed).Perm s.made
  numbered : s.made.map Block.ptr = List.range s.made.length

-- The object a call works on has the envelopes that the call still has to post,
-- and no other call works on it.
structure Linked (s : State T α τ) : Prop where
  framed : ∀ caller i, s.frames caller = some i →
    ∃ object, s.objects[i]? = some (some ⟨object, true⟩) ∧
      (s.runtime.calls caller).envelopes <:+ object.envelopes
  unframed : ∀ caller, s.frames caller = none → (s.runtime.calls caller).envelopes = []
  apart : ∀ caller other i, s.frames caller = some i → s.frames other = some i → caller = other

-- A borrowed object of `s` is as it was.
def Keeps (s t : State T α τ) : Prop :=
  ∀ (i : Nat) (object : Object T α), s.objects[i]? = some (some ⟨object, true⟩) →
    t.objects[i]? = some (some ⟨object, true⟩)

def Sound (s : State T α τ) : Prop :=
  ∀ slot, some slot ∈ s.objects → slot.object.Sound

structure Inv (types : Types T α) (s : State T α τ) : Prop where
  balanced : Balanced types s
  linked : Linked s
  sound : Sound s
  empty : s.destroyed = true → s.runtime.queue_ = [] ∧ s.runtime.timers_.heap_.toList = []

theorem get?_eq {s : State T α τ} {i : Nat} {object : Object T α} (h : s.get? i = some object) :
    s.objects[i]? = some (some ⟨object, false⟩) := by
  unfold get? at h
  split at h
  · rename_i other ho
    rw [ho, Option.some.inj h]
  · exact nomatch h

theorem Keeps.refl (s : State T α τ) : Keeps s s := fun _ _ => id

theorem Keeps.trans {s t u : State T α τ} (h : Keeps s t) (h' : Keeps t u) : Keeps s u :=
  fun i object hi => h' i object (h i object hi)

-- A slot that is not borrowed may be written to.
theorem keeps_put {s : State T α τ} {i : Nat} {object : Object T α}
    (h : s.objects[i]? = some (some ⟨object, false⟩)) (slot : Option (Slot T α)) :
    Keeps s (s.put i slot) := by
  intro j other hj
  have hne : i ≠ j := by
    rintro rfl
    rw [h] at hj
    exact nomatch hj
  simpa only [put, List.getElem?_set_ne hne] using hj

theorem keeps_add (s : State T α τ) (slot : Slot T α) : Keeps s (s.add slot) := by
  intro j other hj
  have hlt := (List.getElem?_eq_some_iff.mp hj).1
  simpa only [add, List.getElem?_append_left hlt] using hj

-- The calls of the other threads go on working on their own objects.
theorem Linked.own {s t : State T α τ} (h : Linked s) (caller : Runtime.Caller τ)
    (hothers : ∀ other, other ≠ caller →
      t.frames other = s.frames other ∧
        (t.runtime.calls other).envelopes <:+ (s.runtime.calls other).envelopes)
    (hkeeps : ∀ (i : Nat) (object : Object T α), s.objects[i]? = some (some ⟨object, true⟩) →
      s.frames caller ≠ some i → t.objects[i]? = some (some ⟨object, true⟩))
    (hnone : t.frames caller = none → (t.runtime.calls caller).envelopes = [])
    (hsome : ∀ i, t.frames caller = some i →
      (∃ object, t.objects[i]? = some (some ⟨object, true⟩) ∧
        (t.runtime.calls caller).envelopes <:+ object.envelopes) ∧
      ∀ other, s.frames other = some i → other = caller) : Linked t where
  framed := by
    intro other i hi
    by_cases ho : other = caller
    · subst ho
      exact (hsome i hi).1
    · obtain ⟨hframe, hsuffix⟩ := hothers other ho
      rw [hframe] at hi
      obtain ⟨object, hobject, henvs⟩ := h.framed other i hi
      refine ⟨object, hkeeps i object hobject fun hc => ?_, hsuffix.trans henvs⟩
      exact ho (h.apart other caller i hi hc)
  unframed := by
    intro other hi
    by_cases ho : other = caller
    · subst ho
      exact hnone hi
    · obtain ⟨hframe, hsuffix⟩ := hothers other ho
      rw [h.unframed other (hframe ▸ hi)] at hsuffix
      exact List.suffix_nil.mp hsuffix
  apart := by
    intro first second i hf hs
    by_cases h1 : first = caller
    · by_cases h2 : second = caller
      · exact h1.trans h2.symm
      · rw [(hothers second h2).1] at hs
        subst h1
        exact ((hsome i hf).2 second hs).symm
    · rw [(hothers first h1).1] at hf
      by_cases h2 : second = caller
      · subst h2
        exact (hsome i hs).2 first hf
      · rw [(hothers second h2).1] at hs
        exact h.apart first second i hf hs

theorem Linked.keep {s t : State T α τ} (h : Linked s) (hkeeps : Keeps s t)
    (hframes : t.frames = s.frames)
    (hcalls : ∀ caller,
      (t.runtime.calls caller).envelopes <:+ (s.runtime.calls caller).envelopes) : Linked t where
  framed := by
    intro caller i hi
    obtain ⟨object, hobject, henvs⟩ := h.framed caller i (hframes ▸ hi)
    exact ⟨object, hkeeps i object hobject, (hcalls caller).trans henvs⟩
  unframed := by
    intro caller hi
    have hsuffix := hcalls caller
    rw [h.unframed caller (hframes ▸ hi)] at hsuffix
    exact List.suffix_nil.mp hsuffix
  apart := by
    rw [hframes]
    exact h.apart

theorem Sound.put {s : State T α τ} (h : Sound s) (i : Nat) {slot : Option (Slot T α)}
    (hs : ∀ new, slot = some new → new.object.Sound) : Sound (s.put i slot) := by
  intro other ho
  cases List.mem_or_eq_of_mem_set ho with
  | inl hold => exact h other hold
  | inr hnew => exact hs other hnew.symm

theorem Sound.add {s : State T α τ} (h : Sound s) {slot : Slot T α} (hs : slot.object.Sound) :
    Sound (s.add slot) := by
  intro other ho
  cases List.mem_append.mp ho with
  | inl hold => exact h other hold
  | inr hnew => exact Option.some.inj (List.mem_singleton.mp hnew) ▸ hs

theorem Sound.at {s : State T α τ} (h : Sound s) {i : Nat} {slot : Slot T α}
    (hi : s.objects[i]? = some (some slot)) : slot.object.Sound :=
  h slot (List.mem_of_getElem? hi)

section Count

variable [DecidableEq T] [DecidableEq α]

theorem Balanced.of_count {types : Types T α} {s t : State T α τ} (h : Balanced types s)
    (hmade : t.made = s.made)
    (hcount : ∀ block, (t.owned types).count block + t.freed.count block =
      (s.owned types).count block + s.freed.count block) : Balanced types t where
  law := by
    rw [hmade]
    refine (List.perm_iff_count.mpr fun block => ?_).trans h.law
    simp only [List.count_append, hcount]
  numbered := by
    rw [hmade]
    exact h.numbered

theorem count_owned (s : State T α τ) (types : Types T α) (block : Block T α) :
    (s.owned types).count block = (s.objectsHeld types).count block +
      (queueHeld types s.runtime.queue_).count block +
      (s.runtime.timers_.held types).count block := by
  simp only [owned, List.count_append]

theorem count_put {s : State T α τ} {i : Nat} {old : Option (Slot T α)} (types : Types T α)
    (h : s.objects[i]? = some old) (new : Option (Slot T α)) (block : Block T α) :
    ((s.put i new).objectsHeld types).count block + (slotHeld types old).count block =
      (s.objectsHeld types).count block + (slotHeld types new).count block :=
  count_flatMap_set _ _ i new h block

theorem count_add (s : State T α τ) (types : Types T α) (slot : Slot T α) (block : Block T α) :
    ((s.add slot).objectsHeld types).count block =
      (s.objectsHeld types).count block + (slot.object.held types).count block := by
  simp [objectsHeld, add, slotHeld, List.count_append]

end Count

end State

end Messaging

end CortexFlow
