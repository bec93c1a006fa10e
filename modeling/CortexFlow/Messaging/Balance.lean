import CortexFlow.Messaging.Accounts

namespace CortexFlow

open Lib

namespace Messaging

namespace State

variable {T α τ : Type*} [DecidableEq T] [DecidableEq α]

theorem Inv.objects {types : Types T α} {s t : State T α τ} (h : Inv types s)
    (hruntime : t.runtime = s.runtime) (hdestroyed : t.destroyed = s.destroyed)
    (hframes : t.frames = s.frames) (hkeeps : Keeps s t) (hsound : Sound t)
    (hmade : t.made = s.made)
    (hcount : ∀ block, (t.objectsHeld types).count block + t.freed.count block =
      (s.objectsHeld types).count block + s.freed.count block) : Inv types t where
  balanced := by
    refine h.balanced.of_count hmade fun block => ?_
    have := hcount block
    simp only [count_owned, hruntime]
    omega
  linked := h.linked.keep hkeeps hframes fun _ => hruntime ▸ List.suffix_rfl
  sound := hsound
  empty := by
    rw [hdestroyed, hruntime]
    exact h.empty

theorem inv_adopt {types : Types T α} {s : State T α τ} (h : Inv types s) (ty : T) (alloc : α) :
    Inv types (s.adopt (Messaging.make_message_with types ty alloc s.made.length)) where
  balanced := by
    refine ⟨List.perm_iff_count.mpr fun block => ?_, ?_⟩
    · have hlaw := h.balanced.law.count_eq block
      let made := Messaging.make_message_with types ty alloc s.made.length
      have hadd := count_add s types ⟨.ptr made.2, false⟩ block
      have hheld : (Object.ptr made.2).held types = [made.1] := rfl
      rw [hheld] at hadd
      simp only [List.count_append, count_owned] at hlaw ⊢
      change ((s.add ⟨.ptr made.2, false⟩).objectsHeld types).count block + _ + _ + _ =
        (s.made ++ [made.1]).count block
      rw [hadd, List.count_append]
      simp only [adopt, add]
      omega
    · simp only [adopt, add, List.map_append, h.balanced.numbered, List.length_append,
        List.length_singleton, List.range_succ]
      rfl
  linked := h.linked.keep (keeps_add s _) rfl fun _ => List.suffix_rfl
  sound := h.sound.add trivial
  empty := h.empty

-- What an object holds goes over to a new one.
theorem Inv.handOver {types : Types T α} {s : State T α τ} (h : Inv types s) {src : Nat}
    {object new left : Object T α} (hi : s.objects[src]? = some (some ⟨object, false⟩))
    (hnew : new.held types = object.held types) (hleft : left.held types = [])
    (hsn : new.Sound) (hsl : left.Sound) :
    Inv types ((s.put src (some ⟨left, false⟩)).add ⟨new, false⟩) := by
  refine h.objects rfl rfl rfl ((keeps_put hi _).trans (keeps_add _ _)) ?_ rfl fun block => ?_
  · exact (h.sound.put src fun _ he => Option.some.inj he ▸ hsl).add hsn
  · have hput := count_put types hi (some ⟨left, false⟩) block
    have hadd := count_add (s.put src (some ⟨left, false⟩)) types ⟨new, false⟩ block
    simp only [slotHeld, hleft, hnew, List.count_nil] at hput hadd
    have hfreed : ((s.put src (some ⟨left, false⟩)).add ⟨new, false⟩).freed = s.freed := rfl
    simp only [hadd, hfreed]
    omega

theorem inv_move {types : Types T α} {s t : State T α τ} (h : Inv types s) {src : Nat}
    (hs : s.move src = some t) : Inv types t := by
  obtain ⟨object, hget, hs⟩ := Option.bind_eq_some_iff.mp hs
  obtain ⟨⟨new, left⟩, hmove, rfl⟩ := Option.map_eq_some_iff.mp hs
  have hi := get?_eq hget
  obtain ⟨hnew, hleft⟩ := move_held types hmove
  obtain ⟨hsn, hsl⟩ := sound_move hmove (h.sound.at hi)
  exact h.handOver hi hnew hleft hsn hsl

theorem inv_enclose {types : Types T α} {s t : State T α τ} (h : Inv types s)
    {from_ to_ : type_id_t} {src : Nat} (hs : s.enclose types from_ to_ src = some t) :
    Inv types t := by
  obtain ⟨object, hget, hs⟩ := Option.bind_eq_some_iff.mp hs
  obtain ⟨⟨new, left⟩, hmake, rfl⟩ := Option.map_eq_some_iff.mp hs
  have hi := get?_eq hget
  obtain ⟨hnew, hleft⟩ := enclose_held types hmake
  obtain ⟨hsn, hsl⟩ := sound_enclose hmake
  exact h.handOver hi hnew hleft hsn hsl

theorem inv_assign {types : Types T α} {s t : State T α τ} (h : Inv types s) {dst src : Nat}
    (hs : s.assign types dst src = some t) : Inv types t := by
  obtain ⟨self, hself, hs⟩ := Option.bind_eq_some_iff.mp hs
  obtain ⟨other, hother, hs⟩ := Option.bind_eq_some_iff.mp hs
  by_cases hne : dst = src
  · rw [if_pos hne] at hs
    exact Option.some.inj hs ▸ h
  · rw [if_neg hne] at hs
    obtain ⟨⟨⟨new, left⟩, released⟩, hassign, rfl⟩ := Option.map_eq_some_iff.mp hs
    have hsrc := get?_eq hother
    have hdst : (s.put src (some ⟨left, false⟩)).objects[dst]? = some (some ⟨self, false⟩) := by
      simpa only [put, List.getElem?_set_ne (Ne.symm hne)] using get?_eq hself
    obtain ⟨hnew, hleft, rfl⟩ := assign_held types hassign
    obtain ⟨hsn, hsl⟩ := sound_assign hassign (h.sound.at hsrc)
    refine h.objects rfl rfl rfl ((keeps_put hsrc _).trans (keeps_put hdst _)) ?_ rfl
      fun block => ?_
    · exact (h.sound.put src fun _ he => Option.some.inj he ▸ hsl).put dst
        fun _ he => Option.some.inj he ▸ hsn
    · have hput := count_put types hsrc (some ⟨left, false⟩) block
      have hput' := count_put types hdst (some ⟨new, false⟩) block
      simp only [slotHeld, hleft, hnew, List.count_nil] at hput hput'
      simp only [release, List.count_append]
      change ((State.put _ dst _).objectsHeld types).count block +
        (List.count block s.freed + _) = _
      omega

theorem inv_destroy {types : Types T α} {s t : State T α τ} (h : Inv types s) {i : Nat}
    (hs : s.destroy types i = some t) : Inv types t := by
  unfold destroy at hs
  split_ifs at hs
  obtain ⟨object, hget, rfl⟩ := Option.map_eq_some_iff.mp hs
  have hi := get?_eq hget
  refine h.objects rfl rfl rfl (keeps_put hi _) (h.sound.put i nofun) rfl fun block => ?_
  have hput := count_put types hi none block
  simp only [slotHeld, List.count_nil] at hput
  simp only [release, List.count_append]
  change ((State.put s i none).objectsHeld types).count block +
    (List.count block s.freed + _) = _
  omega

variable {types : Types T α} {config : Runtime.Config}

theorem Inv.runtime {s : State T α τ} (h : Inv types s) {runtime : Runtime.State (Payload T α) τ}
    (hqueue : runtime.queue_ = s.runtime.queue_)
    (hheap : runtime.timers_.heap_ = s.runtime.timers_.heap_)
    (hcalls : ∀ caller,
      (runtime.calls caller).envelopes <:+ (s.runtime.calls caller).envelopes) :
    Inv types { s with runtime := runtime } where
  balanced := by
    refine h.balanced.of_count rfl fun block => ?_
    simp only [count_owned, TimerService.held, hqueue, hheap]
    rfl
  linked := h.linked.keep (Keeps.refl s) rfl hcalls
  sound := h.sound
  empty := by
    intro hd
    rw [hqueue, hheap]
    exact h.empty hd

omit [DecidableEq T] [DecidableEq α] in
theorem Linked.fresh {s : State T α τ} (h : Linked s) (caller : Runtime.Caller τ) :
    s.frames caller ≠ some s.objects.length := by
  intro hf
  obtain ⟨object, hobject, _⟩ := h.framed caller _ hf
  exact nomatch (List.getElem?_eq_none le_rfl).symm.trans hobject

variable [DecidableEq τ]

theorem inv_post {s t : State T α τ} (h : Inv types s) {caller : Runtime.Caller τ} {i : Nat}
    (hs : s.post config caller i = some t) : Inv types t := by
  unfold post at hs
  split at hs
  case h_2 => exact nomatch hs
  rename_i env origin hget
  obtain ⟨runtime, hstep, rfl⟩ := Option.map_eq_some_iff.mp hs
  have hi := get?_eq hget
  cases (Runtime.State.step_rule hstep).2 with
  | call _ _ _ =>
      have hunused (other : Runtime.Caller τ) : s.frames other ≠ some i := by
        intro hf
        obtain ⟨object, hobject, _⟩ := h.linked.framed other i hf
        exact nomatch hi.symm.trans hobject
      constructor
      · refine h.balanced.of_count rfl fun block => ?_
        have hput := count_put types hi (some ⟨.envelope env origin, true⟩) block
        simp only [slotHeld] at hput
        simp only [count_owned]
        change ((State.put s i _).objectsHeld types).count block +
          (queueHeld types s.runtime.queue_).count block +
          (s.runtime.timers_.held types).count block + _ = _
        simp only [setFrame, put] at hput ⊢
        omega
      · have hlt : i < s.objects.length := (List.getElem?_eq_some_iff.mp hi).1
        refine h.linked.own caller (fun other ho => ?_) (fun j object hj _ => ?_) ?_ ?_
        · refine ⟨Function.update_of_ne ho .., ?_⟩
          change ((s.runtime.begin_op caller (.post env)).calls other).envelopes <:+ _
          rw [Runtime.State.calls_begin_op (.post env) ho]
        · exact keeps_put hi _ j object hj
        · intro hf
          simp [setFrame] at hf
        · intro j hj
          obtain rfl : i = j := by simpa [setFrame] using hj
          refine ⟨⟨.envelope env origin, ?_, ?_⟩, fun other hf => absurd hf (hunused other)⟩
          · simp [setFrame, put, hlt]
          · change ((s.runtime.post_next caller [env]).calls caller).envelopes <:+ [env]
            rw [Runtime.State.envelopes_post_next]
      · have hsound : (Object.envelope env origin).Sound := h.sound.at hi
        exact h.sound.put i fun _ he => Option.some.inj he ▸ hsound
      · exact h.empty

omit [DecidableEq T] [DecidableEq α] in
theorem begin_arm (runtime : Runtime.State (Payload T α) τ) (caller : Runtime.Caller τ)
    (delay : Int) (env : Envelope (Payload T α)) (owner_name type_name : String) :
    runtime.begin_op caller (.arm delay env owner_name type_name) =
      if delay < 0 then runtime.fail "TimerService::arm called with negative duration"
      else { runtime with
        timers_ := runtime.timers_.push (wrapTicks (runtime.now + delay)) env owner_name
          type_name } := by
  simp only [Runtime.State.begin_op, TimerService.arm]
  split_ifs <;> rfl

theorem inv_arm {s t : State T α τ} (h : Inv types s) (hd : s.destroyed = false)
    {caller : Runtime.Caller τ} {delay : Int} {i : Nat} {owner_name type_name : String}
    (hs : s.arm types config caller delay i owner_name type_name = some t) : Inv types t := by
  unfold arm at hs
  split at hs
  case h_2 => cases hs
  rename_i env origin hget
  obtain ⟨runtime, hstep, rfl⟩ := Option.map_eq_some_iff.mp hs
  have hi := get?_eq hget
  have hsound : (Object.envelope env origin).Sound := h.sound.at hi
  have hleft : (Object.envelope env.husk .moved_from).Sound := (sound_move rfl hsound).2
  have hput := fun block => count_put types hi (some ⟨.envelope env.husk .moved_from, false⟩) block
  simp only [slotHeld, Object.held, held_husk, List.count_nil] at hput
  cases (Runtime.State.step_rule hstep).2 with
  | call _ _ _ =>
      rw [begin_arm]
      split_ifs with hdelay
      · -- The program ends with the parameter of `arm` still there.
        refine Inv.runtime (s := (s.put i _).add _) ?_ rfl rfl fun _ => List.suffix_rfl
        refine h.objects rfl rfl rfl ((keeps_put hi _).trans (keeps_add _ _)) ?_ rfl
          fun block => ?_
        · exact (h.sound.put i fun _ he => Option.some.inj he ▸ hleft).add hsound
        · have := hput block
          rw [count_add]
          simp only [Object.held, Envelope.move]
          change ((State.put s i _).objectsHeld types).count block + _ +
            List.count block s.freed = _
          omega
      · constructor
        · refine h.balanced.of_count rfl fun block => ?_
          have := hput block
          have hpush := TimerService.count_held_push types s.runtime.timers_
            (wrapTicks (s.runtime.now + delay)) env owner_name type_name block
          simp only [count_owned, release, TimerService.pushed, Lib.Heap.pushReleased_eq,
            List.append_nil, Envelope.move]
          change ((State.put s i _).objectsHeld types).count block +
            (queueHeld types s.runtime.queue_).count block +
            (TimerService.held types (s.runtime.timers_.push (wrapTicks (s.runtime.now + delay)) env
              owner_name type_name)).count block + List.count block s.freed = _
          rw [hpush]
          omega
        · exact h.linked.keep (keeps_put hi _) rfl fun _ => List.suffix_rfl
        · exact h.sound.put i fun _ he => Option.some.inj he ▸ hleft
        · intro hdestroyed
          cases hd.symm.trans hdestroyed

-- A call of `fire_due` takes its vector from the heap, and drops what was
-- cancelled.
theorem inv_fired {s : State T α τ} (h : Inv types s) (hd : s.destroyed = false)
    (caller : Runtime.Caller τ) {runtime : Runtime.State (Payload T α) τ}
    (hqueue : runtime.queue_ = s.runtime.queue_)
    (htimers : runtime.timers_ = (TimerService.collect s.runtime.now
      s.runtime.timers_.heap_.toList.length s.runtime.timers_).1)
    (hown : (runtime.calls caller).envelopes <:+ (TimerService.collect s.runtime.now
      s.runtime.timers_.heap_.toList.length s.runtime.timers_).2.map
        TimerService.FiringRecord.envelope)
    (hothers : ∀ other, other ≠ caller → runtime.calls other = s.runtime.calls other) :
    Inv types ({ s with runtime := runtime }.fired types s.runtime caller) := by
  have hcollect := fun block => TimerService.count_held_collect types s.runtime.now
    s.runtime.timers_.heap_.toList.length s.runtime.timers_ block
  unfold fired
  simp only
  split
  · rename_i hnone
    rw [hnone] at hown hcollect
    have hcalls (other : Runtime.Caller τ) :
        (runtime.calls other).envelopes <:+ (s.runtime.calls other).envelopes := by
      by_cases ho : other = caller
      · subst ho
        exact (List.suffix_nil.mp hown) ▸ List.nil_suffix
      · rw [hothers other ho]
    constructor
    · refine h.balanced.of_count rfl fun block => ?_
      have := hcollect block
      simp only [count_owned, release, List.count_append, hqueue, htimers]
      change (s.objectsHeld types).count block + _ + _ + _ = _
      simp only [List.map_nil, List.flatMap_nil, List.count_nil] at this
      omega
    · exact h.linked.keep (Keeps.refl s) rfl hcalls
    · exact h.sound
    · intro hdestroyed
      exact nomatch hd.symm.trans hdestroyed
  · rename_i record records hsome
    rw [hsome] at hown hcollect
    constructor
    · refine h.balanced.of_count rfl fun block => ?_
      have := hcollect block
      have hadd := count_add s types
        ⟨.to_fire ((record :: records).map TimerService.FiringRecord.envelope), true⟩ block
      simp only [count_owned, setFrame, add, release, List.count_append, hqueue, htimers]
      change ((s.add _).objectsHeld types).count block + _ + _ + _ = _
      rw [hadd]
      simp only [Object.held]
      omega
    · refine h.linked.own caller (fun other ho => ?_) (fun j object hj _ => ?_) ?_ ?_
      · refine ⟨Function.update_of_ne ho .., ?_⟩
        change (runtime.calls other).envelopes <:+ _
        rw [hothers other ho]
      · exact keeps_add s _ j object hj
      · intro hf
        simp [setFrame] at hf
      · intro j hj
        obtain rfl : s.objects.length = j := by simpa [setFrame, release, add] using hj
        refine ⟨⟨.to_fire _, ?_, hown⟩, fun other hf => absurd hf (h.linked.fresh other)⟩
        simp [setFrame, release, add]
    · exact h.sound.add trivial
    · intro hdestroyed
      exact nomatch hd.symm.trans hdestroyed

omit [DecidableEq T] [DecidableEq α] in
-- The slot of the caller is the only one that changed.
theorem Linked.released {s : State T α τ} (h : Linked s) {caller : Runtime.Caller τ} {i : Nat}
    (hf : s.frames caller = some i) (hc : (s.runtime.calls caller).envelopes = [])
    (slot : Option (Slot T α)) : Linked ((s.put i slot).setFrame caller none) := by
  refine h.own caller (fun other ho => ?_) (fun j object hj hne => ?_) (fun _ => hc) ?_
  · exact ⟨Function.update_of_ne ho .., List.suffix_rfl⟩
  · have hij : i ≠ j := fun he => hne (he ▸ hf)
    simpa only [setFrame, put, List.getElem?_set_ne hij] using hj
  · intro j hj
    simp [setFrame] at hj

theorem inv_close {s : State T α τ} (h : Inv types s) {caller : Runtime.Caller τ}
    (hc : (s.runtime.calls caller).envelopes = []) : Inv types (s.close types caller) := by
  unfold close
  cases hf : s.frames caller with
  | none => exact h
  | some i =>
      obtain ⟨object, hi, _⟩ := h.linked.framed caller i hf
      have hsound : object.Sound := h.sound.at hi
      have hreturned : Inv types ((s.put i (some ⟨object, false⟩)).setFrame caller none) := by
        refine ⟨h.balanced.of_count rfl fun block => ?_, h.linked.released hf hc _, ?_, h.empty⟩
        · have hput := count_put types hi (some ⟨object, false⟩) block
          simp only [slotHeld] at hput
          simp only [count_owned]
          change ((State.put s i _).objectsHeld types).count block +
            (queueHeld types s.runtime.queue_).count block +
            (s.runtime.timers_.held types).count block + List.count block s.freed = _
          omega
        · exact h.sound.put i fun _ he => Option.some.inj he ▸ hsound
      cases object with
      | ptr msg =>
          simp only [hi]
          exact hreturned
      | envelope env origin =>
          simp only [hi]
          exact hreturned
      | to_fire envs =>
          simp only [hi]
          refine ⟨h.balanced.of_count rfl fun block => ?_, ?_,
            h.sound.put i (fun _ he => by cases he), h.empty⟩
          case refine_2 =>
            exact (h.linked.released hf hc none).keep (fun _ _ => id) rfl fun _ => List.suffix_rfl
          have hput := count_put types hi none block
          simp only [slotHeld, List.count_nil] at hput
          simp only [count_owned, setFrame, release, List.count_append]
          change ((State.put s i none).objectsHeld types).count block +
            (queueHeld types s.runtime.queue_).count block +
            (s.runtime.timers_.held types).count block + (List.count block s.freed + _) = _
          omega

-- The envelope that the queue gets is taken out of the object posted.
theorem inv_pushed {s : State T α τ} (h : Inv types s) (hd : s.destroyed = false)
    {caller : Runtime.Caller τ} {env : Envelope (Payload T α)}
    {rest : List (Envelope (Payload T α))} (hc : s.runtime.calls caller = .post_lock env rest) :
    Inv types ({ s with
      runtime := (s.runtime.push caller env).setCall caller (.post_notify rest) }.give caller
        rest.length) := by
  have hposts : (s.runtime.calls caller).envelopes = env :: rest := by rw [hc]; rfl
  unfold give
  simp only
  cases hf : s.frames caller with
  | none => cases (h.linked.unframed caller hf).symm.trans hposts
  | some i =>
      obtain ⟨object, hi, hsuffix⟩ := h.linked.framed caller i hf
      rw [hposts] at hsuffix
      obtain ⟨hrest, hgive⟩ := Object.give_spec types hsuffix
      have hlt : i < s.objects.length := (List.getElem?_eq_some_iff.mp hi).1
      simp only [hi]
      constructor
      · refine h.balanced.of_count rfl fun block => ?_
        have hput := count_put types hi (some ⟨object.give rest.length, true⟩) block
        have := hgive block
        simp only [slotHeld] at hput
        simp only [count_owned]
        change ((State.put s i _).objectsHeld types).count block +
          (queueHeld types (s.runtime.queue_ ++ [⟨env, caller, s.runtime.lifecycle⟩])).count block +
          (s.runtime.timers_.held types).count block + List.count block s.freed = _
        simp only [queueHeld, List.flatMap_append, List.count_append, List.flatMap_cons,
          List.flatMap_nil, List.append_nil]
        omega
      · refine h.linked.own caller (fun other ho => ⟨rfl, ?_⟩) (fun j other hj hne => ?_) ?_ ?_
        · change ((s.runtime.setCall caller (.post_notify rest)).calls other).envelopes <:+ _
          rw [Runtime.State.calls_setCall _ ho]
        · have hij : i ≠ j := fun he => hne (he ▸ hf)
          simpa only [put, List.getElem?_set_ne hij] using hj
        · intro hnone
          cases hnone.symm.trans hf
        · intro j hj
          obtain rfl : i = j := Option.some.inj (hf.symm.trans hj)
          refine ⟨⟨object.give rest.length, ?_, ?_⟩, fun other ho => ?_⟩
          · simp [put, hlt]
          · simpa [put, Runtime.State.setCall, Runtime.Call.envelopes] using hrest
          · exact h.linked.apart other caller i ho hf
      · have hsound : (object.give rest.length).Sound := sound_give _ (h.sound.at hi)
        exact h.sound.put i fun _ he => Option.some.inj he ▸ hsound
      · intro hdestroyed
        cases hd.symm.trans hdestroyed

-- A step that takes nothing from the thread's object, and may end its call.
theorem inv_settle {s : State T α τ} (h : Inv types s) {caller : Runtime.Caller τ}
    {runtime : Runtime.State (Payload T α) τ} {before : Runtime.Call (Payload T α)}
    (hqueue : runtime.queue_ = s.runtime.queue_) (htimers : runtime.timers_ = s.runtime.timers_)
    (hown : (runtime.calls caller).envelopes <:+ (s.runtime.calls caller).envelopes)
    (hothers : ∀ other, other ≠ caller → runtime.calls other = s.runtime.calls other)
    (hnotify : ∀ rest, runtime.calls caller ≠ .post_notify rest) :
    Inv types ({ s with runtime := runtime }.settle types caller before) := by
  have hnext : Inv types { s with runtime := runtime } := by
    refine h.runtime hqueue (by rw [htimers]) fun other => ?_
    by_cases ho : other = caller
    · exact ho ▸ hown
    · rw [hothers other ho]
  unfold settle
  split
  · exact absurd ‹_› (hnotify _)
  · refine inv_close hnext ?_
    rename_i hafter
    rw [hafter]
    rfl
  · exact hnext

theorem inv_advance {s t : State T α τ} (h : Inv types s) (hd : s.destroyed = false)
    {caller : Runtime.Caller τ} (hs : s.advance types config caller = some t) : Inv types t := by
  obtain ⟨runtime, hstep, rfl⟩ := Option.map_eq_some_iff.mp hs
  have hnext {u : Runtime.State (Payload T α) τ} {rest : List (Envelope (Payload T α))}
      (hqueue : u.queue_ = s.runtime.queue_) (htimers : u.timers_ = s.runtime.timers_)
      (hcalls : u.calls = s.runtime.calls)
      (hrest : rest <:+ (s.runtime.calls caller).envelopes) :
      Inv types ({ s with runtime := u.post_next caller rest }.settle types caller
        (s.runtime.calls caller)) := by
    refine inv_settle h ?_ ?_ ?_ (fun other ho => ?_) fun rest' hn => ?_
    · rw [Runtime.State.ledger_post_next, hqueue]
    · rw [Runtime.State.timers_post_next, htimers]
    · rw [Runtime.State.envelopes_post_next]
      exact hrest
    · rw [Runtime.State.calls_post_next rest ho, hcalls]
    · rw [Runtime.State.calls_post_next_self] at hn
      cases rest with
      | nil => exact nomatch hn
      | cons => exact nomatch hn
  have hset {u : Runtime.State (Payload T α) τ} {call : Runtime.Call (Payload T α)}
      (hqueue : u.queue_ = s.runtime.queue_) (htimers : u.timers_ = s.runtime.timers_)
      (hcalls : u.calls = s.runtime.calls)
      (hown : call.envelopes <:+ (s.runtime.calls caller).envelopes)
      (hnotify : ∀ rest, call ≠ .post_notify rest) :
      Inv types ({ s with runtime := u.setCall caller call }.settle types caller
        (s.runtime.calls caller)) := by
    have hself : (u.setCall caller call).calls caller = call := Function.update_self ..
    refine inv_settle h hqueue htimers ?_ (fun other ho => ?_) fun rest' => ?_
    · rw [hself]
      exact hown
    · rw [Runtime.State.calls_setCall _ ho, hcalls]
    · rw [hself]
      exact hnotify rest'
  cases (Runtime.State.step_rule hstep).2 with
  | post_dropped _ env rest hc _ | post_refused _ env rest hc _ _ =>
      exact hnext rfl rfl rfl (by rw [hc]; exact List.suffix_cons env rest)
  | post_tested _ env rest hc _ => exact hset rfl rfl rfl (by rw [hc]; exact List.suffix_rfl) nofun
  | post_pushed _ env rest hc _ _ =>
      have hpushed := inv_pushed h hd hc
      unfold settle
      have hself : ((s.runtime.push caller env).setCall caller (.post_notify rest)).calls caller =
          .post_notify rest := Function.update_self ..
      simp only [hc, hself]
      exact hpushed
  | post_notified _ rest hc =>
      exact hnext rfl rfl rfl (by rw [hc]; exact List.suffix_rfl)
  | stop_set _ hc _ => exact hset rfl rfl rfl List.nil_suffix nofun
  | stop_notified _ hc => exact hset rfl rfl rfl List.nil_suffix nofun

omit [DecidableEq τ] in
theorem inv_enter {s : State T α τ} (h : Inv types s) (hd : s.destroyed = false)
    {runtime : Runtime.State (Payload T α) τ} {post : Runtime.Post (Payload T α) τ}
    {queue : List (Runtime.Post (Payload T α) τ)} (hq : s.runtime.queue_ = post :: queue)
    (hqueue : runtime.queue_ = queue) (hshared : runtime.toShared = s.runtime.toShared) :
    Inv types (State.enter { s with runtime := runtime } post.env) := by
  have hadd := fun block => count_add s types ⟨.envelope post.env
    (if post.env.full then .message else .empty_message), false⟩ block
  constructor
  · refine h.balanced.of_count rfl fun block => ?_
    have := hadd block
    simp only [Object.held] at this
    simp only [count_owned]
    change ((s.add _).objectsHeld types).count block +
      (queueHeld types runtime.queue_).count block +
      (runtime.timers_.held types).count block + List.count block s.freed = _
    rw [hqueue, hq, congrArg Runtime.Shared.timers_ hshared]
    simp only [queueHeld, List.flatMap_cons, List.count_append]
    omega
  · refine h.linked.keep (keeps_add s _) rfl fun caller => ?_
    change (runtime.calls caller).envelopes <:+ _
    rw [congrArg Runtime.Shared.calls hshared]
  · refine h.sound.add ?_
    cases hfull : post.env.full with
    | true => exact iff_of_true hfull rfl
    | false => exact iff_of_false (by simp [hfull]) (by simp)
  · intro hdestroyed
    cases hd.symm.trans hdestroyed

omit [DecidableEq τ] in
theorem inv_leave {s t : State T α τ} (h : Inv types s) (hs : s.leave types = some t) :
    Inv types t := by
  unfold leave at hs
  cases henv : s.env with
  | none =>
      simp only [henv] at hs
      exact Option.some.inj hs ▸ h
  | some i =>
      simp only [henv] at hs
      obtain ⟨object, hget, rfl⟩ := Option.map_eq_some_iff.mp hs
      have hi := get?_eq hget
      refine h.objects rfl rfl rfl (keeps_put hi _) (h.sound.put i nofun) rfl fun block => ?_
      have hput := count_put types hi none block
      simp only [slotHeld, List.count_nil] at hput
      simp only [release, List.count_append]
      change ((State.put s i none).objectsHeld types).count block +
        (List.count block s.freed + _) = _
      omega

omit [DecidableEq τ] in
-- Envelopes that the runtime destructs where they are.
theorem inv_release {s : State T α τ} (h : Inv types s) (destroyed : Bool)
    {runtime : Runtime.State (Payload T α) τ} {blocks : List (Block T α)}
    (hcalls : runtime.calls = s.runtime.calls)
    (hempty : destroyed = true → runtime.queue_ = [] ∧ runtime.timers_.heap_.toList = [])
    (hcount : ∀ block, (queueHeld types runtime.queue_).count block +
      (runtime.timers_.held types).count block + blocks.count block =
        (queueHeld types s.runtime.queue_).count block +
          (s.runtime.timers_.held types).count block) :
    Inv types (State.release { s with destroyed := destroyed, runtime := runtime } blocks) where
  balanced := by
    refine h.balanced.of_count rfl fun block => ?_
    have := hcount block
    simp only [count_owned, release, List.count_append]
    change (s.objectsHeld types).count block + _ + _ + _ = _
    omega
  linked := h.linked.keep (Keeps.refl s) rfl fun _ => by
    change (runtime.calls _).envelopes <:+ _
    rw [hcalls]
  sound := h.sound
  empty := hempty

theorem inv_loop {s t : State T α τ} (h : Inv types s) (hd : s.destroyed = false)
    (hs : s.loop types config = some t) : Inv types t := by
  obtain ⟨runtime, hstep, hs⟩ := Option.bind_eq_some_iff.mp hs
  have hgone {P : Prop} : s.destroyed = true → P := fun hdestroyed =>
    nomatch hd.symm.trans hdestroyed
  have hclear : (s.runtime.timers_.clear.held types) = [] := by
    simp [TimerService.held, TimerService.clear, Heap.toList, Heap.empty]
  cases (Runtime.State.step_rule hstep).2 with
  | loop _ hcalls hloop =>
      have hrest (hp : s.runtime.pc.disposes = false) :
          Inv types { s with runtime := runtime } := by
        obtain ⟨hqueue, hshared⟩ := Runtime.State.loop_rest hloop hp
        refine h.runtime hqueue (by rw [congrArg Runtime.Shared.timers_ hshared]) fun _ => ?_
        rw [congrArg Runtime.Shared.calls hshared]
      cases hp : s.runtime.pc with
      | take drain =>
          simp only [Runtime.State.loop, hp] at hloop
          obtain rfl := Option.some.inj hloop
          have hshared := Runtime.State.shared_take s.runtime config drain
          have hqueue := Runtime.State.take_queue s.runtime config drain
          have hnone (hq : (s.runtime.take config drain).queue_ = s.runtime.queue_) :
              Inv types { s with runtime := s.runtime.take config drain } := by
            refine h.runtime hq (by rw [congrArg Runtime.Shared.timers_ hshared]) fun _ => ?_
            rw [congrArg Runtime.Shared.calls hshared]
          simp only [hp] at hs
          split_ifs at hs hqueue with hspent
          · exact Option.some.inj hs ▸ hnone hqueue
          · cases hq : s.runtime.queue_ with
            | nil =>
                simp only [hq] at hs
                exact Option.some.inj hs ▸ hnone (by rw [hqueue, hq]; rfl)
            | cons post queue =>
                simp only [hq] at hs
                exact Option.some.inj hs ▸
                  inv_enter h hd hq (by rw [hqueue, hq]; rfl) hshared
      | handle drain =>
          simp only [hp] at hs
          exact inv_leave (hrest (by rw [hp]; rfl)) hs
      | discard =>
          simp only [Runtime.State.loop, hp] at hloop
          obtain rfl := Option.some.inj hloop
          simp only [hp] at hs
          have hshared := Runtime.State.shared_discard s.runtime config
          refine Option.some.inj hs ▸ inv_release h s.destroyed ?_ hgone fun block => ?_
          · rw [congrArg Runtime.Shared.calls hshared]
          · rw [Runtime.State.discard_queue, congrArg Runtime.Shared.timers_ hshared]
            simp only [queueHeld, List.flatMap_nil, List.count_nil]
            omega
      | clear_timers =>
          simp only [Runtime.State.loop, hp] at hloop
          obtain rfl := Option.some.inj hloop
          simp only [hp] at hs
          refine Option.some.inj hs ▸ inv_release h s.destroyed rfl hgone fun block => ?_
          simp only [hclear, List.count_nil]
          omega
      | fire =>
          simp only [Runtime.State.loop, hp] at hloop
          obtain rfl := Option.some.inj hloop
          simp only [hp] at hs
          let firing : Runtime.State (Payload T α) τ := { s.runtime with pc := .firing }
          obtain ⟨htimers, hown⟩ := Runtime.State.fire_due_spec firing hcalls
          refine Option.some.inj hs ▸ inv_fired h hd .loop ?_ htimers hown fun other ho => ?_
          · exact congrArg Runtime.Ledger.queue_ (Runtime.State.fire_due_frame firing .loop).1
          · exact Runtime.State.calls_fire_due (s := firing) ho
      | _ =>
          simp only [hp] at hs
          exact Option.some.inj hs ▸ hrest (by rw [hp]; rfl)

theorem inv_runtimeStep {s t : State T α τ} (h : Inv types s) (hd : s.destroyed = false)
    {event : Runtime.Event (Payload T α) τ} (hs : s.runtimeStep types config event = some t) :
    Inv types t := by
  unfold runtimeStep at hs
  split at hs
  · exact inv_loop h hd hs
  · exact inv_advance h hd hs
  · rename_i caller
    obtain ⟨runtime, hstep, rfl⟩ := Option.map_eq_some_iff.mp hs
    cases (Runtime.State.step_rule hstep).2 with
    | call _ _ hmay =>
        obtain ⟨htimers, hown⟩ := Runtime.State.fire_due_spec s.runtime
          (Runtime.State.mayCall_outside hmay)
        refine inv_fired h hd caller ?_ htimers hown fun other ho => ?_
        · exact congrArg Runtime.Ledger.queue_ (Runtime.State.fire_due_frame s.runtime caller).1
        · exact Runtime.State.calls_fire_due ho
  · rename_i hloop hadvance hfire
    split_ifs at hs with hcarries
    obtain ⟨runtime, hstep, rfl⟩ := Option.map_eq_some_iff.mp hs
    have hquiet : event.quiet = true := by
      cases event with
      | loop => exact absurd rfl hloop
      | advance caller => exact absurd rfl (hadvance caller)
      | call caller op =>
          cases op with
          | post | arm => exact absurd rfl hcarries
          | fire_due => exact absurd rfl (hfire caller)
          | stop | cancel => rfl
      | tick | start | run | run_one | shutdown | wake | timeout => rfl
    obtain ⟨hqueue, hheap, hcalls⟩ := Runtime.State.quiet_step hstep hquiet
    exact h.runtime hqueue hheap hcalls

omit [DecidableEq τ] in
theorem inv_destroy_runtime {s t : State T α τ} (h : Inv types s)
    (hs : s.destroy_runtime types = some t) : Inv types t := by
  unfold destroy_runtime at hs
  split_ifs at hs
  have hclear : s.runtime.timers_.clear.heap_.toList = [] := by
    simp [TimerService.clear, Heap.toList, Heap.empty]
  refine Option.some.inj hs ▸ inv_release h true rfl (fun _ => ⟨rfl, hclear⟩) fun block => ?_
  simp only [TimerService.held, hclear, queueHeld, List.flatMap_nil, List.count_nil,
    List.count_append]
  omega

theorem inv_step {s t : State T α τ} {event : Event T α τ} (h : Inv types s)
    (hs : step types config s event = some t) : Inv types t := by
  have halive {u : Option (State T α τ)} (hu : (if s.destroyed then none else u) = some t) :
      s.destroyed = false ∧ u = some t := by
    cases hd : s.destroyed with
    | true => exact nomatch (if_pos hd).symm.trans hu
    | false => exact ⟨rfl, by simpa [hd] using hu⟩
  cases event with
  | make_message ty => exact Option.some.inj hs ▸ inv_adopt h ty types.default_allocator
  | make_message_with ty alloc => exact Option.some.inj hs ▸ inv_adopt h ty alloc
  | construct ty =>
      refine Option.some.inj hs ▸ h.objects rfl rfl rfl (keeps_add s _) (h.sound.add trivial) rfl
        fun block => ?_
      rw [count_add]
      rfl
  | move src => exact inv_move h hs
  | assign dst src => exact inv_assign h hs
  | enclose from_ to_ src => exact inv_enclose h hs
  | destroy i => exact inv_destroy h hs
  | post caller i => exact inv_post h (halive hs).2
  | arm caller delay i owner_name type_name => exact inv_arm h (halive hs).1 (halive hs).2
  | runtime event => exact inv_runtimeStep h (halive hs).1 (halive hs).2
  | destroy_runtime => exact inv_destroy_runtime h (halive hs).2

omit [DecidableEq T] [DecidableEq α] [DecidableEq τ] in
theorem inv_init : Inv types (init : State T α τ) where
  balanced := ⟨.nil, rfl⟩
  linked := ⟨nofun, fun _ _ => rfl, nofun⟩
  sound := nofun
  empty := nofun

theorem inv_run {s : State T α τ} {is : List (Event T α τ)}
    (h : (machine T α τ types config).run .init is = some s) : Inv types s :=
  Machine.run_invariant (fun _ _ _ => inv_step) inv_init h

end State

end Messaging

end CortexFlow
