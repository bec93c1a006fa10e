import CortexFlow.Messaging.Balance

namespace CortexFlow

open Lib

namespace Messaging

namespace State

variable {T α τ : Type*}

-- How the envelope that a step hands in to the runtime came to be as it is.
def handedIn (s : State T α τ) : Event T α τ → Option Origin
  | .post _ i | .arm _ _ i _ _ =>
      match s.get? i with
      | some (.envelope _ origin) => some origin
      | _ => none
  | _ => none

-- No envelope is handed in that was moved from, and none that is empty from the
-- start.
def Unmoved (s : State T α τ) (event : Event T α τ) : Prop :=
  s.handedIn event ≠ some .moved_from

def FromMessage (s : State T α τ) (event : Event T α τ) : Prop :=
  s.handedIn event = none ∨ s.handedIn event = some .message

instance (s : State T α τ) (event : Event T α τ) : Decidable (s.Unmoved event) :=
  inferInstanceAs (Decidable (_ ≠ _))

instance (s : State T α τ) (event : Event T α τ) : Decidable (s.FromMessage event) :=
  inferInstanceAs (Decidable (_ ∨ _))

-- All envelopes that are on their way through the runtime have a payload, and so
-- had those that came through.
structure Full (runtime : Runtime.State (Payload T α) τ) : Prop where
  held : ∀ env, runtime.Holds env → env.full = true
  armed : ∀ entry, runtime.timers_.IsArmed entry → entry.envelope.full = true
  dispatched : ∀ post ∈ runtime.dispatched, post.env.full = true

variable [DecidableEq τ] {types : Types T α} {config : Runtime.Config}

theorem Full.step {runtime next : Runtime.State (Payload T α) τ} (h : Full runtime)
    {event : Runtime.Event (Payload T α) τ} (hs : runtime.step config event = some next)
    (hpost : ∀ caller env, event = .call caller (.post env) → env.full = true)
    (harm : ∀ caller delay env owner_name type_name,
      event = .call caller (.arm delay env owner_name type_name) → env.full = true) :
    Full next where
  held := by
    intro env henv
    rcases Runtime.State.holds_step hs henv with hold | ⟨caller, hnew⟩ | ⟨entry, he, rfl⟩
    · exact h.held env hold
    · exact hpost caller env hnew
    · exact h.armed entry he
  armed := by
    intro entry he
    rcases (Runtime.State.timersStep hs).armed entry he with
      hold | ⟨_, caller, delay, owner, ty, hnew⟩
    · exact h.armed entry hold
    · exact harm caller delay entry.envelope owner ty hnew
  dispatched := by
    intro post hp
    cases Runtime.State.dispatched_mem hs hp with
    | inl hold => exact h.dispatched post hold
    | inr hqueue => exact h.held post.env (Or.inl ⟨post, hqueue, rfl⟩)

theorem Full.quiet {runtime next : Runtime.State (Payload T α) τ} (h : Full runtime)
    {event : Runtime.Event (Payload T α) τ} (hs : runtime.step config event = some next)
    (he : event.carries = false) : Full next := by
  refine h.step hs (fun caller env hnew => ?_) fun caller delay env owner ty hnew => ?_
  · rw [hnew] at he
    exact nomatch he
  · rw [hnew] at he
    exact nomatch he

theorem runtime_settle (s : State T α τ) (caller : Runtime.Caller τ)
    (before : Runtime.Call (Payload T α)) :
    (s.settle types caller before).runtime = s.runtime := by
  unfold settle
  split
  · unfold give
    split
    · rfl
    · split <;> rfl
  · unfold close
    split
    · rfl
    · split <;> rfl
  · rfl

theorem runtime_fired (s : State T α τ) (runtime : Runtime.State (Payload T α) τ)
    (caller : Runtime.Caller τ) : (s.fired types runtime caller).runtime = s.runtime := by
  unfold fired
  simp only
  split <;> rfl

omit [DecidableEq τ] in
theorem runtime_leave {s t : State T α τ} (h : s.leave types = some t) :
    t.runtime = s.runtime := by
  unfold leave at h
  split at h
  · rw [Option.some.inj h]
  · obtain ⟨object, _, rfl⟩ := Option.map_eq_some_iff.mp h
    rfl

theorem runtime_loop {s t : State T α τ} (h : s.loop types config = some t) :
    s.runtime.step config .loop = some t.runtime := by
  obtain ⟨runtime, hstep, ht⟩ := Option.bind_eq_some_iff.mp h
  rw [hstep]
  simp only at ht
  split at ht
  · split_ifs at ht
    · exact Option.some.inj ht ▸ rfl
    · split at ht <;> exact Option.some.inj ht ▸ rfl
  · rw [runtime_leave ht]
  · exact Option.some.inj ht ▸ rfl
  · exact Option.some.inj ht ▸ rfl
  · rw [← Option.some.inj ht, runtime_fired]
  · exact Option.some.inj ht ▸ rfl

theorem full_runtimeStep {s t : State T α τ} (h : Full s.runtime)
    {event : Runtime.Event (Payload T α) τ} (hs : s.runtimeStep types config event = some t) :
    Full t.runtime := by
  unfold runtimeStep at hs
  split at hs
  · exact h.quiet (runtime_loop hs) rfl
  · obtain ⟨runtime, hstep, rfl⟩ := Option.map_eq_some_iff.mp hs
    rw [runtime_settle]
    exact h.quiet hstep rfl
  · obtain ⟨runtime, hstep, rfl⟩ := Option.map_eq_some_iff.mp hs
    rw [runtime_fired]
    exact h.quiet hstep rfl
  · split_ifs at hs with hcarries
    obtain ⟨runtime, hstep, rfl⟩ := Option.map_eq_some_iff.mp hs
    exact h.quiet hstep (by simpa using hcarries)

theorem full_post {s t : State T α τ} (hsound : Sound s) (h : Full s.runtime)
    {caller : Runtime.Caller τ} {i : Nat} (hg : s.FromMessage (.post caller i))
    (hs : s.post config caller i = some t) : Full t.runtime := by
  unfold post at hs
  split at hs
  case h_2 => exact nomatch hs
  rename_i env origin hget
  obtain ⟨runtime, hstep, rfl⟩ := Option.map_eq_some_iff.mp hs
  have horigin : origin = .message := by simpa [FromMessage, handedIn, hget] using hg
  have hfull : env.full = true := (hsound.at (get?_eq hget) : Object.Sound _).mpr horigin
  refine h.step hstep (fun _ other hnew => ?_) nofun
  obtain ⟨_, rfl⟩ : caller = _ ∧ env = other := by simpa using hnew
  exact hfull

theorem full_arm {s t : State T α τ} (hsound : Sound s) (h : Full s.runtime)
    {caller : Runtime.Caller τ} {delay : Int} {i : Nat} {owner_name type_name : String}
    (hg : s.FromMessage (.arm caller delay i owner_name type_name))
    (hs : s.arm types config caller delay i owner_name type_name = some t) : Full t.runtime := by
  unfold arm at hs
  split at hs
  case h_2 => exact nomatch hs
  rename_i env origin hget
  obtain ⟨runtime, hstep, rfl⟩ := Option.map_eq_some_iff.mp hs
  have horigin : origin = .message := by simpa [FromMessage, handedIn, hget] using hg
  have hfull : env.full = true := (hsound.at (get?_eq hget) : Object.Sound _).mpr horigin
  have hnext : Full runtime := by
    refine h.step hstep nofun fun _ _ other _ _ hnew => ?_
    obtain ⟨_, _, rfl, _⟩ : caller = _ ∧ delay = _ ∧ env = other ∧ _ := by
      simpa [Envelope.move] using hnew
    exact hfull
  split_ifs <;> exact hnext

omit [DecidableEq τ] in
theorem full_destroy_runtime {s t : State T α τ} (h : Full s.runtime)
    (hs : s.destroy_runtime types = some t) : Full t.runtime := by
  unfold destroy_runtime at hs
  split_ifs at hs
  refine Option.some.inj hs ▸ ⟨fun env henv => ?_, fun entry he => ?_, h.dispatched⟩
  · exact h.held env (henv.of_subset nofun rfl)
  · exact absurd he (TimerService.isArmed_clear s.runtime.timers_ entry)

omit [DecidableEq τ] in
theorem runtime_move {s t : State T α τ} {src : Nat} (hs : s.move src = some t) :
    t.runtime = s.runtime := by
  obtain ⟨object, _, hs⟩ := Option.bind_eq_some_iff.mp hs
  obtain ⟨moved, _, rfl⟩ := Option.map_eq_some_iff.mp hs
  rfl

omit [DecidableEq τ] in
theorem runtime_enclose {s t : State T α τ} {from_ to_ : type_id_t} {src : Nat}
    (hs : s.enclose types from_ to_ src = some t) : t.runtime = s.runtime := by
  obtain ⟨object, _, hs⟩ := Option.bind_eq_some_iff.mp hs
  obtain ⟨made, _, rfl⟩ := Option.map_eq_some_iff.mp hs
  rfl

omit [DecidableEq τ] in
theorem runtime_assign [DecidableEq T] {s t : State T α τ} {dst src : Nat}
    (hs : s.assign types dst src = some t) : t.runtime = s.runtime := by
  obtain ⟨self, _, hs⟩ := Option.bind_eq_some_iff.mp hs
  obtain ⟨other, _, hs⟩ := Option.bind_eq_some_iff.mp hs
  split_ifs at hs
  · rw [Option.some.inj hs]
  · obtain ⟨assigned, _, rfl⟩ := Option.map_eq_some_iff.mp hs
    rfl

omit [DecidableEq τ] in
theorem runtime_destroy {s t : State T α τ} {i : Nat} (hs : s.destroy types i = some t) :
    t.runtime = s.runtime := by
  unfold destroy at hs
  split_ifs at hs
  obtain ⟨object, _, rfl⟩ := Option.map_eq_some_iff.mp hs
  rfl

theorem full_step [DecidableEq T] {s t : State T α τ} {event : Event T α τ} (hsound : Sound s)
    (h : Full s.runtime) (hg : s.FromMessage event) (hs : step types config s event = some t) :
    Full t.runtime := by
  have halive {u : Option (State T α τ)} (hu : (if s.destroyed then none else u) = some t) :
      u = some t := by
    cases hd : s.destroyed with
    | true => exact nomatch (if_pos hd).symm.trans hu
    | false => simpa [hd] using hu
  have hsame (hr : t.runtime = s.runtime) : Full t.runtime := hr ▸ h
  cases event with
  | make_message | make_message_with | construct => exact hsame (Option.some.inj hs ▸ rfl)
  | move src => exact hsame (runtime_move hs)
  | assign dst src => exact hsame (runtime_assign hs)
  | enclose from_ to_ src => exact hsame (runtime_enclose hs)
  | destroy i => exact hsame (runtime_destroy hs)
  | post caller i => exact full_post hsound h hg (halive hs)
  | arm caller delay i owner_name type_name => exact full_arm hsound h hg (halive hs)
  | runtime event => exact full_runtimeStep h (halive hs)
  | destroy_runtime => exact full_destroy_runtime h (halive hs)

variable [DecidableEq T] [DecidableEq α]

theorem full_run {s : State T α τ} {is : List (Event T α τ)}
    (h : (machine T α τ types config).run .init is = some s)
    (hg : (machine T α τ types config).Meets FromMessage .init is) : Full s.runtime := by
  have hinit : Full (init : State T α τ).runtime := by
    refine ⟨fun env henv => ?_, fun entry he => ?_, nofun⟩
    · rcases henv with ⟨post, hp, _⟩ | ⟨caller, hc⟩
      · exact nomatch hp
      · exact nomatch hc
    · exact absurd he (TimerService.isArmed_init entry)
  have hboth : Inv types s ∧ Full s.runtime :=
    Machine.run_invariant_of_meets (I := fun s : State T α τ => Inv types s ∧ Full s.runtime)
      (fun _ _ _ hi hm hs => ⟨inv_step hi.1 hs, full_step hi.1.sound hi.2 hm hs⟩)
      ⟨inv_init, hinit⟩ hg h
  exact hboth.2

-- Each payload has one owner or was destructed and deallocated once, as it was
-- allocated. A runtime that is gone owns none.
structure Linear (types : Types T α) (s : State T α τ) : Prop where
  one_owner : ((s.owned types).map Block.ptr).Nodup
  freed_once : (s.freed.map Block.ptr).Nodup
  as_allocated : ∀ block ∈ s.freed, block ∈ s.made
  owned_or_freed : ∀ block ∈ s.made, block ∈ s.owned types ∧ block ∉ s.freed ∨
    block ∉ s.owned types ∧ block ∈ s.freed
  all_freed : s.owned types = [] → s.freed.Perm s.made
  runtime_gone : s.destroyed = true → s.owned types = s.objectsHeld types

omit [DecidableEq τ] in
theorem Inv.isLinear {types : Types T α} {s : State T α τ} (h : Inv types s) :
    Linear types s := by
  obtain ⟨⟨hlaw, hnumbered⟩, -, -, hempty⟩ := h
  have hnodup : ((s.owned types ++ s.freed).map Block.ptr).Nodup := by
    rw [(hlaw.map Block.ptr).nodup_iff, hnumbered]
    exact List.nodup_range
  rw [List.map_append, List.nodup_append] at hnodup
  obtain ⟨howned, hfreed, hapart⟩ := hnodup
  have hmade (block : Block T α) : block ∈ s.made ↔ block ∈ s.owned types ∨ block ∈ s.freed := by
    rw [← hlaw.mem_iff, List.mem_append]
  have hnot (block : Block T α) (ho : block ∈ s.owned types) : block ∉ s.freed := fun hf =>
    hapart _ (List.mem_map_of_mem ho) _ (List.mem_map_of_mem hf) rfl
  refine ⟨howned, hfreed, fun block hf => (hmade block).mpr (Or.inr hf), fun block hm => ?_,
    fun hnone => ?_, fun hdestroyed => ?_⟩
  · by_cases ho : block ∈ s.owned types
    · exact Or.inl ⟨ho, hnot block ho⟩
    · exact Or.inr ⟨ho, ((hmade block).mp hm).resolve_left ho⟩
  · rw [hnone] at hlaw
    exact hlaw
  · obtain ⟨hqueue, hheap⟩ := hempty hdestroyed
    simp [owned, queueHeld, TimerService.held, hqueue, hheap]

-- Ownership is linear at every moment; and if no empty envelope is handed in, none
-- is dispatched.
theorem payloads_linear (types : Types T α) (config : Runtime.Config) {s : State T α τ}
    {is : List (Event T α τ)} (h : (machine T α τ types config).run .init is = some s) :
    Linear types s ∧
      ((machine T α τ types config).Meets FromMessage .init is →
        ∀ post ∈ s.runtime.dispatched, post.env.full = true) :=
  ⟨(inv_run h).isLinear, fun hg => (full_run h hg).dispatched⟩

def oneType : Types Unit Unit := ⟨fun _ => 7, fun _ => 16, fun _ => 8, ()⟩

def oneModule : Runtime.Config := ⟨[1], 4⟩

-- One message is dispatched, and another one is armed and cancelled before the
-- runtime goes.
def untilDestroyed : List (Event Unit Unit Unit) :=
  [.make_message (), .enclose 0 1 0, .make_message_with () (), .enclose 0 1 2, .runtime .start,
    .runtime .loop, .runtime .loop, .post .loop 1, .runtime (.advance .loop),
    .runtime (.advance .loop), .runtime (.advance .loop), .arm .loop 5 3 "M" "T",
    .runtime (.call .loop (.cancel 1)), .runtime .run_one, .runtime .loop, .runtime .loop,
    .runtime .loop, .destroy_runtime]

theorem payloads_linear_untilDestroyed :
    ∃ s : State Unit Unit Unit,
      (machine Unit Unit Unit oneType oneModule).run .init untilDestroyed = some s ∧
        Linear oneType s ∧ s.freed.map Block.ptr = [0, 1] ∧
        ∀ post ∈ s.runtime.dispatched, post.env.full = true := by
  have hrun : ((machine Unit Unit Unit oneType oneModule).run .init untilDestroyed).map
      (fun s => s.freed.map Block.ptr) = some [0, 1] := by decide +kernel
  obtain ⟨s, hs, hfreed⟩ := Option.map_eq_some_iff.mp hrun
  obtain ⟨hlinear, hfull⟩ := payloads_linear oneType oneModule hs
  exact ⟨s, hs, hlinear, hfreed, hfull (by decide +kernel)⟩

-- The pointer was moved from before an envelope was made of it.
def emptyMessage : List (Event Unit Unit Unit) :=
  [.make_message (), .move 0, .enclose 0 1 0, .runtime .start, .runtime .loop, .runtime .loop,
    .post .loop 2, .runtime (.advance .loop), .runtime (.advance .loop),
    .runtime (.advance .loop), .runtime .run_one, .runtime .loop]

-- No envelope handed in was moved from, and yet one is dispatched without a payload.
theorem not_always_full :
    ¬∀ (is : List (Event Unit Unit Unit)) (s : State Unit Unit Unit),
      (machine Unit Unit Unit oneType oneModule).run .init is = some s →
        (machine Unit Unit Unit oneType oneModule).Meets Unmoved .init is →
          ∀ post ∈ s.runtime.dispatched, post.env.full = true := by
  intro hall
  have hrun : ((machine Unit Unit Unit oneType oneModule).run .init emptyMessage).map
      (fun s => s.runtime.dispatched.map fun post => post.env.full) = some [false] := by
    decide +kernel
  obtain ⟨s, hs, hdispatched⟩ := Option.map_eq_some_iff.mp hrun
  have hmem : false ∈ s.runtime.dispatched.map fun post => post.env.full := by
    rw [hdispatched]
    exact List.mem_cons_self
  obtain ⟨post, hpost, hempty⟩ := List.mem_map.mp hmem
  exact nomatch hempty.symm.trans (hall emptyMessage s hs (by decide +kernel) post hpost)

end State

end Messaging

end CortexFlow
