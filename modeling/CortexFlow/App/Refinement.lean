import CortexFlow.App.World

namespace CortexFlow

-- From where the queue is being drained to the end of `shutdown`.
def Runtime.Pc.drains : Runtime.Pc → Bool
  | .take _ | .handle _ | .discard | .on_stop _ | .destroy _ | .clear_timers | .clear_flags
  | .fault _ => true
  | _ => false

-- A module has been called whose code may ask for something.
def Runtime.Pc.serves : Runtime.Pc → Bool
  | .on_start _ | .handle _ | .destroy _ => true
  | _ => false

-- `start` has returned, and `shutdown` has not begun to take the modules down.
def Runtime.Pc.runs : Runtime.Pc → Bool
  | .construct _ | .on_start _ | .on_stop _ | .destroy _ | .clear_timers | .clear_flags
  | .fault _ => false
  | _ => true

def App.State.Running {κ : Type*} {V : κ → Type*} {π τ : Type*} {n : Nat} {ι M : Type*}
    (s : App.State V π τ n ι M) : Prop :=
  s.cached.runtime.started_ = true ∧ s.cached.runtime.pc.runs = true

@[simp] theorem Runtime.Pc.drains_notify (pc : Runtime.Pc) : pc.notify.drains = pc.drains := by
  cases pc <;> rfl

@[simp] theorem Runtime.Pc.serves_notify (pc : Runtime.Pc) : pc.notify.serves = pc.serves := by
  cases pc <;> rfl

namespace Atomic

open Lib Cache

-- The assertions that a program can break which calls the lifecycle functions of
-- the runtime out of order.
def misuses : List String :=
  ["Runtime::start called twice", "Runtime::run before start()",
    "Runtime::run_one before start()", "Runtime::shutdown before start()"]

def Placed (config : Runtime.Config) (started_ : Bool) (phase : Phase) : Runtime.Pc → Prop
  | .idle => phase = if started_ then .running config.modules.length else .down
  | .construct _ => phase = .running 0
  | .on_start i => phase = .running (i + 1) ∧ i < config.modules.length
  | .on_stop _ => phase = .closing 0
  | .destroy i => phase = .closing (i + 1) ∧ i < config.modules.length
  | .clear_timers => phase = .closing config.modules.length
  | .clear_flags => phase = .cleared
  | .fault reason => reason ∈ misuses
  | _ => phase = .running config.modules.length ∧ started_ = true

theorem placed_notify {config : Runtime.Config} {started_ : Bool} {phase : Phase}
    {pc : Runtime.Pc} (h : Placed config started_ phase pc) :
    Placed config started_ phase pc.notify := by
  cases pc <;> exact h

theorem placed_running {config : Runtime.Config} {phase : Phase} {pc : Runtime.Pc}
    (h : Placed config true phase pc) (hp : pc.runs = true) :
    phase = .running config.modules.length := by
  cases pc with
  | idle => exact h
  | construct | on_start | on_stop | destroy | clear_timers | clear_flags | fault =>
      exact nomatch hp
  | _ => exact h.1

variable {κ : Type*} {V : κ → Type*} {π τ : Type*} {n : Nat} {ι M : Type*}

section Outbox

variable [DecidableEq κ] [DecidableEq ι] {keys : Keys κ V} {since : Int}

-- A request only adds to the outbox, and does not look at it.
theorem apply_outbox {w v : World V π ι} {act : App.Act V π ι}
    (h : w.apply keys n since act = some v) :
    ∃ more, v.outbox = w.outbox ++ more ∧
      ∀ front, ({ w with outbox := front } : World V π ι).apply keys n since act =
        some { v with outbox := front ++ more } := by
  cases act with
  | send env =>
      obtain rfl := Option.some.inj h
      exact ⟨_, rfl, fun front => rfl⟩
  | arm dst timer =>
      simp only [World.apply] at h ⊢
      split at h
      · cases h
      · rename_i hfree
        split_ifs at h with hneg
        obtain rfl := Option.some.inj h
        refine ⟨[], (List.append_nil _).symm, fun front => ?_⟩
        rw [List.append_nil, if_neg hneg]
  | cancel dst =>
      obtain rfl := Option.some.inj h
      exact ⟨[], (List.append_nil _).symm, fun front => by rw [List.append_nil]; rfl⟩
  | release dst =>
      obtain ⟨r, hr, rfl⟩ := Option.map_eq_some_iff.mp h
      refine ⟨[], (List.append_nil _).symm, fun front => ?_⟩
      simp only [World.apply, hr, Option.map_some, List.append_nil]
  | subscribe dst k subscriber_id =>
      simp only [World.apply] at h ⊢
      split_ifs at h with hfull
      obtain ⟨r, hr, rfl⟩ := Option.map_eq_some_iff.mp h
      refine ⟨[], (List.append_nil _).symm, fun front => ?_⟩
      simp only [if_neg hfull, hr, Option.map_some, List.append_nil]
  | set k value =>
      simp only [World.apply] at h ⊢
      by_cases hholds : w.holds keys k value = true
      · rw [if_pos hholds] at h
        obtain rfl := Option.some.inj h
        refine ⟨[], (List.append_nil _).symm, fun front => ?_⟩
        rw [List.append_nil]
        exact if_pos hholds
      · rw [if_neg hholds] at h
        obtain rfl := Option.some.inj h
        exact ⟨_, rfl, fun front => if_neg hholds⟩

theorem applyAll_outbox {w v : World V π ι} {acts : List (App.Act V π ι)}
    (h : w.applyAll keys n since acts = some v) :
    ∃ more, v.outbox = w.outbox ++ more ∧
      ∀ front, ({ w with outbox := front } : World V π ι).applyAll keys n since acts =
        some { v with outbox := front ++ more } := by
  induction acts generalizing w with
  | nil =>
      obtain rfl := Option.some.inj h
      exact ⟨[], (List.append_nil _).symm, fun front => by rw [List.append_nil]; rfl⟩
  | cons act acts ih =>
      obtain ⟨mid, hmid, hrest⟩ := Option.bind_eq_some_iff.mp h
      obtain ⟨more, hmore, hfront⟩ := apply_outbox hmid
      obtain ⟨rest, hout, hlast⟩ := ih hrest
      refine ⟨more ++ rest, by rw [hout, hmore, List.append_assoc], fun front => ?_⟩
      refine Option.bind_eq_some_iff.mpr ⟨_, hfront front, ?_⟩
      rw [← List.append_assoc]
      exact hlast (front ++ more)

end Outbox

variable [DecidableEq κ] [DecidableEq ι]

-- The application is where the abstract one is, but for what the code of the
-- module that it has called has still to ask for.
structure Refines (program : App.Program V π ι M) (s : App.State V π τ n ι M)
    (a : State V π ι M) : Prop where
  world : ∃ since w, since ≤ s.cached.runtime.now ∧ Mirrors s w ∧
    w.applyAll program.keys n since s.todo = some a.toWorld
  objects : a.objects = s.objects
  queue : a.queue = s.cached.runtime.queue_.map Runtime.Post.env
  dispatched : a.dispatched = s.cached.runtime.dispatched.map Runtime.Post.env
  stopping : a.stopping = s.cached.runtime.stop_requested_
  now : a.now = s.cached.runtime.now
  nonneg : 0 ≤ s.cached.runtime.now
  inputs : ∀ thread, ∀ env ∈ (s.cached.runtime.calls (.foreign thread)).envelopes,
    ∃ input, program.input input = true ∧ env = input.map .other
  placed : Placed program.config s.cached.runtime.started_ a.phase s.cached.runtime.pc
  draining : a.draining = true → s.cached.runtime.pc.drains = true
  busy : s.todo ≠ [] → s.cached.runtime.pc.serves = true

variable {program : App.Program V π ι M} {s t : App.State V π τ n ι M} {a : State V π ι M}

theorem refines_init : Refines program (.init program : App.State V π τ n ι M) (.init program) where
  world := by
    refine ⟨0, (State.init program).toWorld, le_rfl, ?_, rfl⟩
    exact ⟨rfl, rfl, Session.invariant_init, rfl, timed_init, nofun⟩
  objects := rfl
  queue := rfl
  dispatched := rfl
  stopping := rfl
  now := rfl
  nonneg := le_rfl
  inputs := fun _ _ => nofun
  placed := rfl
  draining := nofun
  busy := absurd rfl

omit [DecidableEq κ] [DecidableEq ι] in
theorem Mirrors.runtime {w : World V π ι} (h : Mirrors s w)
    {runtime : Runtime.State (Payload V π) τ} (ht : runtime.timers_ = s.cached.runtime.timers_)
    (hn : runtime.now = s.cached.runtime.now) (hc : runtime.cache_ = s.cached.runtime.cache_)
    {front : List (Envelope (Payload V π))} (hf : (runtime.calls .loop).envelopes = front) :
    Mirrors { s with cached := { s.cached with runtime := runtime } }
      { w with outbox := front } := by
  refine ⟨h.slots, h.registry, h.session, hf.symm, ?_, ?_⟩
  · simp only [ht, hn]
    exact h.timed
  · simp only [ht, hc]
    exact h.bound

-- A step of the runtime that shows in the queue and the stop flag at most.
theorem Refines.flagged (h : Refines program s a) (runtime : Runtime.State (Payload V π) τ)
    {queue : List (Envelope (Payload V π))} (hq : queue = runtime.queue_.map Runtime.Post.env)
    {stopping : Bool} (hs : stopping = runtime.stop_requested_)
    (hd : runtime.dispatched = s.cached.runtime.dispatched)
    (ht : runtime.timers_ = s.cached.runtime.timers_) (hn : runtime.now = s.cached.runtime.now)
    (hc : runtime.cache_ = s.cached.runtime.cache_)
    (hloop : (runtime.calls .loop).envelopes = (s.cached.runtime.calls .loop).envelopes)
    (hi : ∀ thread, ∀ env ∈ (runtime.calls (.foreign thread)).envelopes,
      ∃ input, program.input input = true ∧ env = input.map .other)
    (hp : Placed program.config runtime.started_ a.phase runtime.pc)
    (hdrain : a.draining = true → runtime.pc.drains = true)
    (hbusy : s.todo ≠ [] → runtime.pc.serves = true) :
    Refines program { s with cached := { s.cached with runtime := runtime } }
      { a with queue := queue, stopping := stopping } := by
  obtain ⟨since, w, hle, hw, hall⟩ := h.world
  refine ⟨⟨since, w, hn ▸ hle, ?_, hall⟩, h.objects, hq, hd ▸ h.dispatched, hs, hn ▸ h.now,
    hn ▸ h.nonneg, hi, hp, hdrain, hbusy⟩
  exact hw.runtime ht hn hc (hloop.trans hw.outbox.symm)

theorem Refines.frame (h : Refines program s a) (runtime : Runtime.State (Payload V π) τ)
    (hq : runtime.queue_ = s.cached.runtime.queue_)
    (hd : runtime.dispatched = s.cached.runtime.dispatched)
    (hs : runtime.stop_requested_ = s.cached.runtime.stop_requested_)
    (ht : runtime.timers_ = s.cached.runtime.timers_) (hn : runtime.now = s.cached.runtime.now)
    (hc : runtime.cache_ = s.cached.runtime.cache_)
    (hloop : (runtime.calls .loop).envelopes = (s.cached.runtime.calls .loop).envelopes)
    (hi : ∀ thread, ∀ env ∈ (runtime.calls (.foreign thread)).envelopes,
      ∃ input, program.input input = true ∧ env = input.map .other)
    (hp : Placed program.config runtime.started_ a.phase runtime.pc)
    (hdrain : a.draining = true → runtime.pc.drains = true)
    (hbusy : s.todo ≠ [] → runtime.pc.serves = true) :
    Refines program { s with cached := { s.cached with runtime := runtime } } a :=
  h.flagged runtime (hq ▸ h.queue) (hs ▸ h.stopping) hd ht hn hc hloop hi hp hdrain hbusy

-- The owning thread is done with the first envelope of the outbox.
theorem Refines.unload (h : Refines program s a) {env : Envelope (Payload V π)}
    {rest : List (Envelope (Payload V π))}
    (hcall : (s.cached.runtime.calls .loop).envelopes = env :: rest)
    {runtime : Runtime.State (Payload V π) τ} (ht : runtime.timers_ = s.cached.runtime.timers_)
    (hn : runtime.now = s.cached.runtime.now) (hc : runtime.cache_ = s.cached.runtime.cache_)
    (hloop : (runtime.calls .loop).envelopes = rest) :
    ∃ outbox, a.outbox = env :: outbox ∧ ∃ since w, since ≤ runtime.now ∧
      Mirrors { s with cached := { s.cached with runtime := runtime } } w ∧
      w.applyAll program.keys n since s.todo = some { a.toWorld with outbox := outbox } := by
  obtain ⟨since, w, hle, hw, hall⟩ := h.world
  obtain ⟨more, hmore, hfront⟩ := applyAll_outbox hall
  refine ⟨rest ++ more, ?_, since, _, hn ▸ hle, hw.runtime ht hn hc hloop, hfront rest⟩
  rw [hmore, hw.outbox, hcall]
  rfl

-- The first envelope of the owning thread goes to the queue, or is dropped.
theorem Refines.posted (h : Refines program s a) {env : Envelope (Payload V π)}
    {rest queue : List (Envelope (Payload V π))}
    (hcall : (s.cached.runtime.calls .loop).envelopes = env :: rest)
    (runtime : Runtime.State (Payload V π) τ) (hq : queue = runtime.queue_.map Runtime.Post.env)
    (hd : runtime.dispatched = s.cached.runtime.dispatched)
    (hs : runtime.stop_requested_ = s.cached.runtime.stop_requested_)
    (hg : runtime.toStage = s.cached.runtime.toStage)
    (ht : runtime.timers_ = s.cached.runtime.timers_) (hn : runtime.now = s.cached.runtime.now)
    (hpc : runtime.pc = s.cached.runtime.pc) (hloop : (runtime.calls .loop).envelopes = rest)
    (hforeign : ∀ thread, runtime.calls (.foreign thread) =
      s.cached.runtime.calls (.foreign thread)) :
    ∃ outbox, a.outbox = env :: outbox ∧
      Refines program { s with cached := { s.cached with runtime := runtime } }
        { a with outbox := outbox, queue := queue } := by
  have hc : runtime.cache_ = s.cached.runtime.cache_ := congrArg Runtime.Stage.cache_ hg
  have hst : runtime.started_ = s.cached.runtime.started_ := congrArg Runtime.Stage.started_ hg
  obtain ⟨outbox, hout, hworld⟩ := h.unload hcall ht hn hc hloop
  refine ⟨outbox, hout, hworld, h.objects, hq, hd ▸ h.dispatched, hs ▸ h.stopping, hn ▸ h.now,
    hn ▸ h.nonneg, fun thread env he => ?_, ?_, ?_, ?_⟩
  · simp only [hforeign] at he
    exact h.inputs thread env he
  · simp only [hst, hpc]
    exact h.placed
  · simp only [hpc]
    exact h.draining
  · simp only [hpc]
    exact h.busy

-- Between the calls of the modules the two worlds are the same.
theorem Refines.settled (h : Refines program s a) (ht : s.todo = []) : Mirrors s a.toWorld := by
  obtain ⟨since, w, _, hw, hall⟩ := h.world
  rw [ht] at hall
  obtain rfl := Option.some.inj hall
  exact hw

theorem Refines.outbox_nil (h : Refines program s a) (ht : s.todo = [])
    (hout : s.cached.runtime.calls .loop = .outside) : a.outbox = [] := by
  rw [(h.settled ht).outbox, hout]
  rfl

-- Where nothing of the runtime changes but the place of the owning thread and what
-- only that thread sees.
structure Quiet (r u : Runtime.State (Payload V π) τ) : Prop where
  queue : u.queue_ = r.queue_
  dispatched : u.dispatched = r.dispatched
  stop : u.stop_requested_ = r.stop_requested_
  shared : u.toShared = r.toShared
  cache : u.cache_ = r.cache_

-- The owning thread goes on to another place.
theorem Refines.relocate (h : Refines program s a) (ht : s.todo = [])
    {runtime : Runtime.State (Payload V π) τ} (hr : Quiet s.cached.runtime runtime) (phase : Phase)
    (hp : Placed program.config runtime.started_ phase runtime.pc)
    (hdrain : a.draining = true → runtime.pc.drains = true) :
    Refines program { s with cached := { s.cached with runtime := runtime } }
      { a with phase := phase } := by
  have htimers : runtime.timers_ = s.cached.runtime.timers_ := congrArg _ hr.shared
  have hnow : runtime.now = s.cached.runtime.now := congrArg _ hr.shared
  have hcalls : runtime.calls = s.cached.runtime.calls := congrArg Runtime.Shared.calls hr.shared
  obtain ⟨since, w, hle, hw, hall⟩ := h.world
  refine ⟨⟨since, w, hnow ▸ hle, ?_, hall⟩, h.objects, hr.queue ▸ h.queue,
    hr.dispatched ▸ h.dispatched, hr.stop ▸ h.stopping, hnow ▸ h.now, hnow ▸ h.nonneg,
    fun thread env he => ?_, hp, hdrain, fun hne => absurd ht hne⟩
  · refine hw.runtime htimers hnow hr.cache ?_
    rw [hcalls]
    exact hw.outbox.symm
  · simp only [hcalls] at he
    exact h.inputs thread env he

-- The module that has been called begins to run.
theorem refines_react (h : Refines program s a) (ht : s.todo = [])
    (hp : s.cached.runtime.pc.serves = true) (outcome : Outcome M (List (App.Act V π ι))) :
    a.react program n outcome = none ∨
      ∃ b, a.react program n outcome = some b ∧ Refines program (s.react outcome) b := by
  cases outcome with
  | fault objects reason => exact Or.inl rfl
  | ok objects acts =>
      simp only [State.react]
      cases hall : a.toWorld.applyAll program.keys n a.now acts with
      | none => exact Or.inl rfl
      | some world =>
          refine Or.inr ⟨_, rfl, { h with world := ?_, objects := rfl, busy := fun _ => hp }⟩
          exact ⟨a.now, a.toWorld, h.now.le, { h.settled ht with }, hall⟩

-- The code around the runtime runs between the calls of the modules.
theorem Refines.idle (h : Refines program s a) (hp : s.cached.runtime.pc = .idle) :
    s.todo = [] ∧ a.draining = false := by
  refine ⟨?_, ?_⟩
  · by_contra hne
    have := h.busy hne
    rw [hp] at this
    exact nomatch this
  · by_contra hd
    have := h.draining (by simpa using hd)
    rw [hp] at this
    exact nomatch this

variable [DecidableEq τ]

-- A thread goes on to the rest of its envelopes, in a runtime that is otherwise as
-- before; `hown` is for the owning thread.
theorem Refines.post_next (h : Refines program s a) (runtime : Runtime.State (Payload V π) τ)
    (hl : runtime.toLedger = s.cached.runtime.toLedger)
    (hs : runtime.toShared = s.cached.runtime.toShared)
    (hg : runtime.toStage = s.cached.runtime.toStage)
    (hpc : runtime.pc = s.cached.runtime.pc.notify ∨ runtime.pc = s.cached.runtime.pc)
    (caller : Runtime.Caller τ) (envs : List (Envelope (Payload V π)))
    (hown : caller = .loop → envs = (s.cached.runtime.calls .loop).envelopes)
    (henvs : ∀ thread, caller = .foreign thread → ∀ env ∈ envs,
      ∃ input, program.input input = true ∧ env = input.map .other) :
    Refines program { s with cached := { s.cached with
      runtime := runtime.post_next caller envs } } a := by
  have hcalls : runtime.calls = s.cached.runtime.calls := congrArg Runtime.Shared.calls hs
  have hplaced : Placed program.config s.cached.runtime.started_ a.phase runtime.pc := by
    cases hpc with
    | inl hpc => exact hpc ▸ placed_notify h.placed
    | inr hpc => exact hpc ▸ h.placed
  have hsame : runtime.pc.drains = s.cached.runtime.pc.drains ∧
      runtime.pc.serves = s.cached.runtime.pc.serves := by
    cases hpc with
    | inl hpc => simp [hpc]
    | inr hpc => simp [hpc]
  refine h.frame (runtime.post_next caller envs) ?_ ?_ ?_ ?_ ?_ ?_ ?_ (fun thread env he => ?_)
    ?_ ?_ ?_
  · rw [Runtime.State.ledger_post_next, hl]
  · rw [Runtime.State.ledger_post_next, hl]
  · rw [Runtime.State.ledger_post_next, hl]
  · rw [Runtime.State.timers_post_next, hs]
  · rw [Runtime.State.now_post_next, hs]
  · rw [Runtime.State.stage_post_next, hg]
  · rw [envelopes_post_next]
    split_ifs with hc
    · exact hown hc.symm
    · rw [hcalls]
  · rw [envelopes_post_next] at he
    split_ifs at he with hc
    · exact henvs thread hc.symm env he
    · rw [hcalls] at he
      exact h.inputs thread env he
  · rw [Runtime.State.stage_post_next, Runtime.State.pc_post_next, hg]
    exact hplaced
  · rw [Runtime.State.pc_post_next, hsame.1]
    exact h.draining
  · rw [Runtime.State.pc_post_next, hsame.2]
    exact h.busy

-- The same for a step within a call.
theorem Refines.setCall (h : Refines program s a) {caller : Runtime.Caller τ}
    {call : Runtime.Call (Payload V π)}
    (hc : call.envelopes = (s.cached.runtime.calls caller).envelopes) :
    Refines program { s with cached := { s.cached with
      runtime := s.cached.runtime.setCall caller call } } a := by
  have hsame (other : Runtime.Caller τ) :
      ((s.cached.runtime.setCall caller call).calls other).envelopes =
        (s.cached.runtime.calls other).envelopes := by
    rw [envelopes_setCall]
    split_ifs with ho
    · rw [ho, hc]
    · rfl
  refine h.frame (s.cached.runtime.setCall caller call) rfl rfl rfl rfl rfl rfl (hsame .loop)
    (fun thread env he => ?_) h.placed h.draining h.busy
  rw [hsame] at he
  exact h.inputs thread env he

end Atomic

end CortexFlow
