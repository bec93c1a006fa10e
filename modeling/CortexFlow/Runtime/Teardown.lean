import CortexFlow.Lib.Object
import CortexFlow.Runtime.Stream

namespace CortexFlow

open Lib

namespace Runtime

-- From `start` on, until `shutdown` resets the cache, outside `idle`.
def Pc.served : Pc → Bool
  | .idle | .clear_flags | .fault _ => false
  | _ => true

@[simp] theorem Pc.served_notify (pc : Pc) : pc.notify.served = pc.served := by
  cases pc <;> rfl

namespace State

variable {π τ : Type*} {config : Config}

-- A started runtime has its cache.
structure Housed (s : State π τ) : Prop where
  served : s.pc.served = true → s.cache_ = true
  started : s.pc = .idle → s.started_ = true → s.cache_ = true

theorem housed_init : (init : State π τ).Housed := ⟨nofun, nofun⟩

theorem Housed.of_stage {s t : State π τ} (h : s.Housed) (hstage : t.toStage = s.toStage)
    (hpc : t.pc = s.pc ∨ t.pc = s.pc.notify ∨ ∃ reason, t.pc = .fault reason) : t.Housed := by
  obtain hpc | hpc | ⟨reason, hpc⟩ := hpc
  · refine ⟨fun hs => ?_, fun hidle hstarted => ?_⟩
    · rw [hstage]
      exact h.served (hpc ▸ hs)
    · rw [hstage] at hstarted ⊢
      exact h.started (hpc ▸ hidle) hstarted
  · have hidle (hi : t.pc = .idle) : s.pc = .idle := by
      rw [hpc] at hi
      cases hp : s.pc <;> simp [hp, Pc.notify] at hi ⊢
    refine ⟨fun hs => ?_, fun hi hstarted => ?_⟩
    · rw [hstage]
      exact h.served (by rwa [hpc, Pc.served_notify] at hs)
    · rw [hstage] at hstarted ⊢
      exact h.started (hidle hi) hstarted
  · refine ⟨fun hs => ?_, fun hi => ?_⟩
    · rw [hpc] at hs
      exact nomatch hs
    · exact nomatch hpc.symm.trans hi

theorem Housed.of_cache {s : State π τ} (h : s.cache_ = true) : s.Housed :=
  ⟨fun _ => h, fun _ _ => h⟩

theorem cache_begin_destroy (s : State π τ) (config : Config) (i : Nat) :
    (s.begin_destroy config i).cache_ = s.cache_ := by
  unfold begin_destroy
  split_ifs <;> rfl

theorem cache_begin_on_stop (s : State π τ) (config : Config) (left : Nat) :
    (s.begin_on_stop config left).cache_ = s.cache_ := by
  cases left with
  | zero => exact cache_begin_destroy s config 0
  | succ i => rfl

theorem cache_discard (s : State π τ) (config : Config) :
    (s.discard config).cache_ = s.cache_ := by
  unfold discard
  split <;> exact cache_begin_on_stop ..

theorem housed_enter {s : State π τ} (h : s.Housed) (hidle : s.pc = .idle) (pc : Pc)
    (events : List (LogEvent π τ)) (reason : String) : (s.enter pc events reason).Housed := by
  unfold enter
  by_cases hstarted : s.started_ = true
  · rw [if_pos hstarted]
    exact .of_cache (h.started hidle hstarted)
  · rw [if_neg hstarted]
    exact ⟨nofun, nofun⟩

variable [DecidableEq τ]

theorem housed_loop {s t : State π τ} (h : s.Housed) (hs : s.loop config = some t) :
    t.Housed := by
  have hserved {pc : Pc} (hp : s.pc = pc) (hpc : pc.served = true) : s.cache_ = true :=
    h.served (hp ▸ hpc)
  cases loop_rule hs with
  | construct i hp =>
      exact .of_cache ((started_begin_construct s config i).2.trans (hserved hp rfl))
  | on_start i hp =>
      exact .of_cache ((started_begin_on_start s (i + 1)).2.trans (hserved hp rfl))
  | wait_lock hp | no_timer hp | timer _ hp | reading _ hp | awake _ hp | park _ hp
  | timed_out _ hp | again _ hp | returned hp | woken hp | fired hp | stopped hp | unstopped hp
  | handled _ hp => exact .of_cache (hserved hp rfl)
  | fire hp =>
      have hstage := (fire_due_frame { s with pc := .firing } .loop).2.1
      exact .of_cache ((congrArg Stage.cache_ hstage).trans (hserved hp rfl))
  | take drain hp => exact .of_cache ((stage_take s config drain).1.trans (hserved hp rfl))
  | discard hp => exact .of_cache ((cache_discard s config).trans (hserved hp rfl))
  | on_stop i hp => exact .of_cache ((cache_begin_on_stop s config i).trans (hserved hp rfl))
  | destroy i hp => exact .of_cache ((cache_begin_destroy s config _).trans (hserved hp rfl))
  | clear_timers | clear_flags => exact ⟨nofun, nofun⟩

theorem housed_step {s t : State π τ} {event : Event π τ} (h : s.Housed)
    (hs : step config s event = some t) : t.Housed := by
  cases (step_rule hs).2 with
  | tick | post_tested | post_pushed | stop_set => exact h.of_stage rfl (Or.inl rfl)
  | call caller op =>
      obtain ⟨_, hstage, hpc⟩ := begin_op_frame s caller op
      exact h.of_stage hstage (hpc.imp_right Or.inr)
  | post_dropped | post_refused =>
      exact h.of_stage (stage_post_next ..) (Or.inl (pc_post_next ..))
  | post_notified caller rest =>
      exact h.of_stage (stage_post_next ..) (Or.inr (Or.inl (pc_post_next ..)))
  | stop_notified => exact h.of_stage rfl (Or.inr (Or.inl rfl))
  | start htop =>
      unfold start
      split_ifs
      · exact ⟨nofun, nofun⟩
      · exact .of_cache (started_begin_construct { s with
          cache_ := true, timers_ := s.timers_.bind_post, log := [] } config
          config.modules.length).2
  | run htop | run_one htop | shutdown htop => exact housed_enter h (atTop_pc htop) ..
  | loop _ _ hloop => exact housed_loop h hloop
  | wake wait notified hp | timeout _ _ notified hp =>
      exact .of_cache (h.served (by rw [hp]; rfl))

end State

end Runtime

namespace Teardown

-- What a handle calls when it is released: `Cache::release_slot` with a slot, or
-- `TimerService::cancel_by_seq` with a sequence number.
inductive Service
  | cache
  | timers
deriving DecidableEq

structure Call where
  service : Service
  id : Nat
deriving DecidableEq

-- The data members of a runtime.
inductive Member
  | modules_
  | cache_
  | clock_
  | timers_
  | mutex_
  | cv_
  | queue_
  | stop_requested_
  | started_
deriving DecidableEq

-- In the order of their declaration.
def Member.declared : List Member :=
  [.modules_, .cache_, .clock_, .timers_, .mutex_, .cv_, .queue_, .stop_requested_, .started_]

-- A runtime and what its modules consist of: a flow is a buffer that is in use
-- while the flow is active. `ended` are the members that `~Runtime` has destructed,
-- `calls` those that destructors of modules have made, with whether the service
-- called was alive.
structure State (π τ : Type*) where
  runtime : Runtime.State π τ
  objects : Nat → Object Call
  ended : List Member
  calls : List (Call × Bool)

inductive Event (π τ : Type*)
  | runtime (event : Runtime.Event π τ)
  -- Code of the program changes what a module consists of.
  | hold (i : Nat) (object : Object Call)
  | destruct

namespace State

variable {π τ : Type*} {config : Runtime.Config}

def init : State π τ := ⟨.init, fun _ => .plain, [], []⟩

def alive (s : State π τ) : Service → Bool
  | .cache => s.runtime.cache_ && !s.ended.contains .cache_
  | .timers => !s.ended.contains .timers_

-- The module has been constructed and not yet destructed.
def built (s : State π τ) (config : Runtime.Config) (i : Nat) : Bool :=
  decide (i < config.modules.length) &&
    match s.runtime.pc with
    | .construct j | .destroy j => decide (j ≤ i)
    | _ => s.runtime.modules_

def destructModule (s : State π τ) (i : Nat) : State π τ :=
  { s with
    calls := s.calls ++ (s.objects i).destruct.map fun call => (call, s.alive call.service) }

def destructMember (config : Runtime.Config) (s : State π τ) : Member → State π τ
  | .modules_ =>
      { (if s.runtime.modules_ then (List.range config.modules.length).foldl destructModule s
        else s) with ended := .modules_ :: s.ended }
  | member => { s with ended := member :: s.ended }

variable [DecidableEq τ]

-- `shutdown` destructs a module at the end of its `destroy` step. Nothing is done
-- with a runtime once its destructor has run.
def step (config : Runtime.Config) (s : State π τ) (event : Event π τ) : Option (State π τ) :=
  if !s.ended.isEmpty then none
  else
    match event with
    | .runtime event =>
        (s.runtime.step config event).map fun runtime =>
          match event, s.runtime.pc with
          | .loop, .destroy i =>
              { s.destructModule i with
                runtime := runtime
                objects := Function.update s.objects i .plain }
          | _, _ => { s with runtime := runtime }
    | .hold i object =>
        if s.runtime.free && s.built config i then
          some { s with objects := Function.update s.objects i object }
        else none
    | .destruct =>
        if s.runtime.atTop then some (Member.declared.reverse.foldl (destructMember config) s)
        else none

def machine (π τ : Type*) [DecidableEq τ] (config : Runtime.Config) :
    Machine (State π τ) (Event π τ) where
  init := init
  step := step config

-- No call has reached a service whose lifetime has ended.
def Outlived (s : State π τ) : Prop := ∀ call ∈ s.calls, call.2 = true

-- A module there is holds a handle that is active.
def Holding (config : Runtime.Config) (s : State π τ) : Prop :=
  s.runtime.modules_ = true ∧ ∃ i < config.modules.length, ∃ call, (s.objects i).Holds call

instance (s : State π τ) : Decidable (s.Holding config) :=
  decidable_of_iff (s.runtime.modules_ = true ∧
    ∃ i < config.modules.length, (s.objects i).destruct ≠ []) <| by
      simp only [Holding, ← Object.mem_destruct, ne_eq, List.eq_nil_iff_forall_not_mem, not_forall,
        not_not]

-- `~Runtime` does not begin while a module holds an active handle.
def Released (config : Runtime.Config) (s : State π τ) : Event π τ → Prop
  | .destruct => ¬s.Holding config
  | _ => True

instance (s : State π τ) (event : Event π τ) : Decidable (Released config s event) := by
  cases event <;> unfold Released <;> infer_instance

omit [DecidableEq τ] in
theorem calls_destructModules (s : State π τ) (is : List Nat) :
    (is.foldl destructModule s).calls = s.calls ++
      is.flatMap fun i => (s.objects i).destruct.map fun call => (call, s.alive call.service) := by
  induction is generalizing s with
  | nil => exact (List.append_nil _).symm
  | cons i is ih =>
      rw [List.foldl_cons, ih, List.flatMap_cons, ← List.append_assoc]
      rfl

omit [DecidableEq τ] in
-- The services are gone by the time `~Runtime` destructs the modules.
theorem outlived_destruct (s : State π τ) :
    (Member.declared.reverse.foldl (destructMember config) s).Outlived ↔
      s.Outlived ∧ ¬s.Holding config := by
  let last : State π τ :=
    { s with ended := [.cache_, .clock_, .timers_, .mutex_, .cv_, .queue_, .stop_requested_,
        .started_] ++ s.ended }
  have hlast : Member.declared.reverse.foldl (destructMember config) s =
      destructMember config last .modules_ := rfl
  have hdead (service : Service) : last.alive service = false := by
    cases service <;> simp [alive, last]
  rw [hlast]
  unfold destructMember
  by_cases hmodules : s.runtime.modules_ = true
  · have hcalls := calls_destructModules last (List.range config.modules.length)
    simp only [hdead] at hcalls
    have hrest : (∀ call ∈ (List.range config.modules.length).flatMap fun i =>
        (last.objects i).destruct.map fun call => (call, false), call.2 = true) ↔
          ¬s.Holding config := by
      constructor
      · rintro hall ⟨_, i, hi, call, hcall⟩
        have hmem := (Object.mem_destruct (s.objects i) call).mpr hcall
        exact absurd (hall (call, false) (List.mem_flatMap.mpr
          ⟨i, List.mem_range.mpr hi, List.mem_map.mpr ⟨call, hmem, rfl⟩⟩)) nofun
      · intro hnone call hmem
        obtain ⟨i, hi, hcall⟩ := List.mem_flatMap.mp hmem
        obtain ⟨held, hheld, rfl⟩ := List.mem_map.mp hcall
        exact (hnone ⟨hmodules, i, List.mem_range.mp hi, held,
          (Object.mem_destruct _ held).mp hheld⟩).elim
    rw [if_pos (show last.runtime.modules_ = true from hmodules)]
    unfold Outlived
    simp only [hcalls, List.forall_mem_append, hrest]
    rfl
  · rw [if_neg (show ¬last.runtime.modules_ = true from hmodules)]
    exact (and_iff_left fun h => hmodules h.1).symm

-- The steps one by one, with what each of them requires.
inductive Rule (config : Runtime.Config) (s : State π τ) : Event π τ → State π τ → Prop
  | destroyed (i : Nat) (next : Runtime.State π τ) : s.ended = [] → s.runtime.pc = .destroy i →
      s.runtime.step config .loop = some next →
      Rule config s (.runtime .loop) { s.destructModule i with
        runtime := next
        objects := Function.update s.objects i .plain }
  | runtime (event : Runtime.Event π τ) (next : Runtime.State π τ) :
      s.runtime.step config event = some next →
      Rule config s (.runtime event) { s with runtime := next }
  | hold (i : Nat) (object : Object Call) : s.built config i = true →
      Rule config s (.hold i object) { s with objects := Function.update s.objects i object }
  | destruct : s.runtime.atTop = true →
      Rule config s .destruct (Member.declared.reverse.foldl (destructMember config) s)

theorem step_rule {s t : State π τ} {event : Event π τ} (hs : step config s event = some t) :
    Rule config s event t := by
  unfold step at hs
  by_cases hended : s.ended = []
  · rw [if_neg (by simp [hended])] at hs
    cases event with
    | runtime event =>
        obtain ⟨next, hnext, rfl⟩ := Option.map_eq_some_iff.mp hs
        simp only
        split
        · exact .destroyed _ _ hended ‹_› hnext
        · exact .runtime _ _ hnext
    | hold i object =>
        simp only at hs
        split_ifs at hs with hbuilt
        simp only [Bool.and_eq_true] at hbuilt
        exact Option.some.inj hs ▸ .hold i object hbuilt.2
    | destruct =>
        simp only at hs
        by_cases htop : s.runtime.atTop = true
        · rw [if_pos htop] at hs
          exact Option.some.inj hs ▸ .destruct htop
        · rw [if_neg htop] at hs
          exact nomatch hs
  · rw [if_pos (by simp [hended])] at hs
    exact nomatch hs

omit [DecidableEq τ] in
theorem runtime_destruct (s : State π τ) :
    (Member.declared.reverse.foldl (destructMember config) s).runtime = s.runtime := by
  have hmodules (u : State π τ) (is : List Nat) :
      (is.foldl destructModule u).runtime = u.runtime := by
    induction is generalizing u with
    | nil => rfl
    | cons i is ih => exact ih (u.destructModule i)
  have hmember (u : State π τ) (member : Member) :
      (destructMember config u member).runtime = u.runtime := by
    cases member with
    | modules_ =>
        unfold destructMember
        simp only
        split_ifs
        · exact hmodules u _
        · rfl
    | _ => rfl
  induction Member.declared.reverse generalizing s with
  | nil => rfl
  | cons member rest ih =>
      rw [List.foldl_cons, ih, hmember]

theorem housed_step {s t : State π τ} {event : Event π τ} (h : s.runtime.Housed)
    (hs : step config s event = some t) : t.runtime.Housed := by
  cases step_rule hs with
  | destroyed i next _ _ hnext => exact Runtime.State.housed_step h hnext
  | runtime event next hnext => exact Runtime.State.housed_step h hnext
  | hold i object => exact h
  | destruct =>
      rw [runtime_destruct]
      exact h

-- `shutdown` destructs the modules while both services are alive.
theorem outlived_step {s t : State π τ} {event : Event π τ} (h : s.runtime.Housed)
    (hs : step config s event = some t) :
    t.Outlived ↔ s.Outlived ∧ Released config s event := by
  cases step_rule hs with
  | destroyed i next hended hpc _ =>
      have hcache : s.runtime.cache_ = true := h.served (by rw [hpc]; rfl)
      have halive (service : Service) : s.alive service = true := by
        cases service <;> simp [alive, hended, hcache]
      have hnew : ∀ call ∈ (s.objects i).destruct.map fun call => (call, s.alive call.service),
          call.2 = true := by
        intro call hmem
        obtain ⟨held, _, rfl⟩ := List.mem_map.mp hmem
        exact halive held.service
      have hcalls : (∀ call ∈ s.calls ++ (s.objects i).destruct.map fun call =>
          (call, s.alive call.service), call.2 = true) ↔ s.Outlived := by
        rw [List.forall_mem_append]
        exact and_iff_left hnew
      exact hcalls.trans (and_iff_left trivial).symm
  | runtime event next => exact (and_iff_left trivial).symm
  | hold i object => exact (and_iff_left trivial).symm
  | destruct => exact outlived_destruct s

-- The services outlive the handles on every path exactly as long as `~Runtime`
-- finds no active handle in a module.
theorem outlived_iff {t : State π τ} {events : List (Event π τ)}
    (hr : (machine π τ config).run init events = some t) :
    t.Outlived ↔ (machine π τ config).Meets (Released config) init events := by
  have hinit : (init : State π τ).Outlived := nofun
  rw [Machine.run_iff_meets (I := fun s => s.runtime.Housed) (P := Outlived)
    (fun _ _ _ => housed_step) (fun _ _ _ => outlived_step) Runtime.State.housed_init hr]
  exact and_iff_right hinit

-- One module, with a timer in the Locals of its flow.
def midFlow : List (Event Unit Unit) :=
  [.runtime .start, .runtime .loop, .runtime .loop,
    .hold 0 (.buffer true (.handle (some ⟨.timers, 1⟩)))]

def shutDown : List (Event Unit Unit) :=
  midFlow ++ [.runtime .shutdown] ++ List.replicate 6 (.runtime .loop) ++ [.destruct]

theorem outlived_iff_shutDown :
    ∃ t : State Unit Unit, (machine Unit Unit ⟨[1], 4⟩).run init shutDown = some t ∧
      t.calls = [(⟨.timers, 1⟩, true)] ∧ t.Outlived := by
  have hrun : ((machine Unit Unit ⟨[1], 4⟩).run init shutDown).map State.calls =
      some [(⟨.timers, 1⟩, true)] := by decide +kernel
  obtain ⟨t, ht, hcalls⟩ := Option.map_eq_some_iff.mp hrun
  exact ⟨t, ht, hcalls, (outlived_iff ht).mpr (by decide +kernel)⟩

-- `~Runtime` alone: the timer of the flow is cancelled in a service that is gone.
theorem not_always_outlived :
    ¬∀ (config : Runtime.Config) (events : List (Event Unit Unit)) (t : State Unit Unit),
      (machine Unit Unit config).run init events = some t → t.Outlived := by
  intro hall
  have hrun : ((machine Unit Unit ⟨[1], 4⟩).run init (midFlow ++ [.destruct])).map State.calls =
      some [(⟨.timers, 1⟩, false)] := by decide +kernel
  obtain ⟨t, ht, hcalls⟩ := Option.map_eq_some_iff.mp hrun
  have hlive := hall _ _ t ht (⟨.timers, 1⟩, false) (hcalls ▸ List.mem_singleton_self _)
  exact nomatch hlive

end State

end Teardown

end CortexFlow
