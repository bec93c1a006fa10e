import CortexFlow.Runtime.Basic

namespace CortexFlow

namespace Runtime

-- Where `start` leaves the owning thread, and where `shutdown` does after the
-- discard.
def Pc.opening : Pc → Bool
  | .construct _ | .on_start _ | .idle => true
  | _ => false

def Pc.leaving : Pc → Bool
  | .on_stop _ | .destroy _ | .clear_timers => true
  | _ => false

def Op.isArm {π : Type*} : Op π → Bool
  | .arm .. => true
  | _ => false

namespace State

variable {π τ : Type*} {config : Config}

@[simp] theorem ledger_begin_on_start (s : State π τ) (config : Config) (i : Nat) :
    (s.begin_on_start config i).toLedger = s.toLedger := by
  unfold begin_on_start
  split_ifs <;> rfl

@[simp] theorem ledger_begin_construct (s : State π τ) (config : Config) (left : Nat) :
    (s.begin_construct config left).toLedger = s.toLedger := by
  cases left with
  | zero => exact ledger_begin_on_start ..
  | succ => rfl

@[simp] theorem ledger_begin_destroy (s : State π τ) (config : Config) (i : Nat) :
    (s.begin_destroy config i).toLedger = s.toLedger := by
  unfold begin_destroy
  split_ifs <;> rfl

@[simp] theorem ledger_begin_on_stop (s : State π τ) (config : Config) (left : Nat) :
    (s.begin_on_stop config left).toLedger = s.toLedger := by
  cases left with
  | zero => exact ledger_begin_destroy ..
  | succ => rfl

@[simp] theorem ledger_enter (s : State π τ) (pc : Pc) (events : List (LogEvent π τ))
    (reason : String) : (s.enter pc events reason).toLedger = s.toLedger := by
  unfold enter
  split_ifs <;> rfl

@[simp] theorem ledger_start (s : State π τ) (config : Config) :
    (s.start config).toLedger = s.toLedger := by
  unfold start
  split_ifs <;> simp [fail]

@[simp] theorem shared_begin_on_start (s : State π τ) (config : Config) (i : Nat) :
    (s.begin_on_start config i).toShared = s.toShared := by
  unfold begin_on_start
  split_ifs <;> rfl

@[simp] theorem shared_begin_construct (s : State π τ) (config : Config) (left : Nat) :
    (s.begin_construct config left).toShared = s.toShared := by
  cases left with
  | zero => exact shared_begin_on_start ..
  | succ => rfl

@[simp] theorem shared_begin_destroy (s : State π τ) (config : Config) (i : Nat) :
    (s.begin_destroy config i).toShared = s.toShared := by
  unfold begin_destroy
  split_ifs <;> rfl

@[simp] theorem shared_begin_on_stop (s : State π τ) (config : Config) (left : Nat) :
    (s.begin_on_stop config left).toShared = s.toShared := by
  cases left with
  | zero => exact shared_begin_destroy ..
  | succ => rfl

theorem opening_begin_on_start (s : State π τ) (config : Config) (i : Nat) :
    (s.begin_on_start config i).pc.opening = true := by
  unfold begin_on_start
  split_ifs <;> rfl

theorem opening_begin_construct (s : State π τ) (config : Config) (left : Nat) :
    (s.begin_construct config left).pc.opening = true := by
  cases left with
  | zero => exact opening_begin_on_start ..
  | succ => rfl

theorem leaving_begin_destroy (s : State π τ) (config : Config) (i : Nat) :
    (s.begin_destroy config i).pc.leaving = true := by
  unfold begin_destroy
  split_ifs <;> rfl

theorem leaving_begin_on_stop (s : State π τ) (config : Config) (left : Nat) :
    (s.begin_on_stop config left).pc.leaving = true := by
  cases left with
  | zero => exact leaving_begin_destroy ..
  | succ => rfl

theorem leaving_discard (s : State π τ) (config : Config) :
    (s.discard config).pc.leaving = true := by
  unfold discard
  split <;> exact leaving_begin_on_stop ..

-- A call of one of the lifecycle functions goes where it is meant to, or fails.
theorem pc_start (s : State π τ) (config : Config) {p : Pc → Prop}
    (hopening : ∀ pc, pc.opening = true → p pc) (hfault : ∀ reason, p (.fault reason)) :
    p (s.start config).pc := by
  unfold start
  split_ifs
  · exact hfault _
  · exact hopening _ (opening_begin_construct ..)

theorem pc_enter (s : State π τ) {pc : Pc} (events : List (LogEvent π τ)) (reason : String)
    {p : Pc → Prop} (hpc : p pc) (hfault : p (.fault reason)) :
    p (s.enter pc events reason).pc := by
  unfold enter
  split_ifs
  · exact hpc
  · exact hfault

theorem start_calls (s : State π τ) (config : Config) :
    (s.start config).calls = s.calls ∧ (s.start config).issued = s.issued := by
  unfold start
  split_ifs
  · exact ⟨rfl, rfl⟩
  · rw [shared_begin_construct]
    exact ⟨rfl, rfl⟩

@[simp] theorem shared_enter (s : State π τ) (pc : Pc) (events : List (LogEvent π τ))
    (reason : String) : (s.enter pc events reason).toShared = s.toShared := by
  unfold enter
  split_ifs <;> rfl

@[simp] theorem shared_drained (s : State π τ) (drain : Drain) :
    (s.drained drain).toShared = s.toShared := by
  cases drain <;> rfl

@[simp] theorem shared_take (s : State π τ) (config : Config) (drain : Drain) :
    (s.take config drain).toShared = s.toShared := by
  unfold take
  split_ifs
  · exact shared_drained ..
  · split
    · exact shared_drained ..
    · simp only
      split <;> rfl

@[simp] theorem shared_discard (s : State π τ) (config : Config) :
    (s.discard config).toShared = s.toShared := by
  unfold discard
  split
  · exact shared_begin_on_stop ..
  · rw [shared_begin_on_stop]
    rfl

theorem mayCall_outside {s : State π τ} {caller : Caller τ} (h : s.mayCall caller = true) :
    s.calls caller = .outside := by
  cases caller with
  | loop =>
      simp only [mayCall, free] at h
      split at h
      · assumption
      · exact nomatch h
  | foreign thread =>
      simp only [mayCall] at h
      split at h
      · assumption
      · exact nomatch h

variable [DecidableEq τ]

@[simp] theorem pc_setCall (s : State π τ) (caller : Caller τ) (call : Call π) :
    (s.setCall caller call).pc = s.pc := rfl

@[simp] theorem ledger_post_next (s : State π τ) (caller : Caller τ) (envs : List (Envelope π)) :
    (s.post_next caller envs).toLedger = s.toLedger := by
  cases envs <;> rfl

@[simp] theorem stage_post_next (s : State π τ) (caller : Caller τ) (envs : List (Envelope π)) :
    (s.post_next caller envs).toStage = s.toStage := by
  cases envs <;> rfl

@[simp] theorem pc_post_next (s : State π τ) (caller : Caller τ) (envs : List (Envelope π)) :
    (s.post_next caller envs).pc = s.pc := by
  cases envs <;> rfl

-- A call of `fire_due` or another operation leaves everything but the timers
-- and the thread's own call alone, unless it fails.
theorem fire_due_frame (s : State π τ) (caller : Caller τ) :
    (s.fire_due caller).toLedger = s.toLedger ∧ (s.fire_due caller).toStage = s.toStage ∧
      ((s.fire_due caller).pc = s.pc ∨ ∃ reason, (s.fire_due caller).pc = .fault reason) := by
  unfold fire_due
  split
  · exact ⟨rfl, rfl, Or.inr ⟨_, rfl⟩⟩
  · exact ⟨ledger_post_next .., stage_post_next .., Or.inl (pc_post_next ..)⟩

-- Where `run` is when `fire_due` hands the posts over to it, or has failed.
theorem pc_fire_due (s : State π τ) {p : Pc → Prop} (hfiring : p .firing)
    (hfault : ∀ reason, p (.fault reason)) :
    p ({ s with pc := .firing }.fire_due .loop).pc := by
  cases (fire_due_frame { s with pc := .firing } .loop).2.2 with
  | inl hpc => exact hpc.symm ▸ hfiring
  | inr hpc =>
      obtain ⟨reason, hpc⟩ := hpc
      exact hpc.symm ▸ hfault reason

theorem begin_op_frame (s : State π τ) (caller : Caller τ) (op : Op π) :
    (s.begin_op caller op).toLedger = s.toLedger ∧ (s.begin_op caller op).toStage = s.toStage ∧
      ((s.begin_op caller op).pc = s.pc ∨
        ∃ reason, (s.begin_op caller op).pc = .fault reason) := by
  cases op with
  | post env => exact ⟨rfl, rfl, Or.inl rfl⟩
  | stop => exact ⟨rfl, rfl, Or.inl rfl⟩
  | arm =>
      simp only [begin_op]
      split
      · exact ⟨rfl, rfl, Or.inr ⟨_, rfl⟩⟩
      · exact ⟨rfl, rfl, Or.inl rfl⟩
  | cancel seq => exact ⟨rfl, rfl, Or.inl rfl⟩
  | fire_due => exact fire_due_frame s caller

theorem calls_setCall {s : State π τ} {caller other : Caller τ} (call : Call π)
    (ho : other ≠ caller) : (s.setCall caller call).calls other = s.calls other :=
  Function.update_of_ne ho ..

theorem calls_post_next {s : State π τ} {caller other : Caller τ} (envs : List (Envelope π))
    (ho : other ≠ caller) : (s.post_next caller envs).calls other = s.calls other := by
  cases envs <;> exact calls_setCall _ ho

theorem calls_fire_due {s : State π τ} {caller other : Caller τ} (ho : other ≠ caller) :
    (s.fire_due caller).calls other = s.calls other := by
  unfold fire_due
  split
  · rfl
  · exact calls_post_next (s := { s with timers_ := _ }) _ ho

theorem calls_begin_op {s : State π τ} {caller other : Caller τ} (op : Op π)
    (ho : other ≠ caller) : (s.begin_op caller op).calls other = s.calls other := by
  cases op with
  | post env => exact calls_post_next _ ho
  | stop => exact calls_setCall _ ho
  | arm =>
      simp only [begin_op]
      split <;> rfl
  | cancel seq => rfl
  | fire_due => exact calls_fire_due ho

theorem now_post_next (s : State π τ) (caller : Caller τ) (envs : List (Envelope π)) :
    (s.post_next caller envs).now = s.now := by
  cases envs <;> rfl

theorem now_begin_op (s : State π τ) (caller : Caller τ) (op : Op π) :
    (s.begin_op caller op).now = s.now := by
  cases op with
  | post env => rfl
  | stop => rfl
  | arm =>
      simp only [begin_op]
      split <;> rfl
  | cancel seq => rfl
  | fire_due =>
      simp only [begin_op, fire_due]
      split
      · rfl
      · exact now_post_next ..

theorem timers_post_next (s : State π τ) (caller : Caller τ) (envs : List (Envelope π)) :
    (s.post_next caller envs).timers_ = s.timers_ := by
  cases envs <;> rfl

theorem fire_due_timers (s : State π τ) (caller : Caller τ) :
    (s.fire_due caller).timers_.post_bound = s.timers_.post_bound ∧
      ∀ entry, (s.fire_due caller).timers_.IsArmed entry → s.timers_.IsArmed entry := by
  have hbound := (TimerService.collect_frame s.now s.timers_.heap_.toList.length s.timers_).2
  obtain ⟨_, _, _, _, _, hstay⟩ :=
    TimerService.collect_spec s.now s.timers_.heap_.toList.length s.timers_ le_rfl
  have hrest := fun entry h => ((hstay entry).mp h).1
  unfold fire_due TimerService.fire_due
  simp only
  split_ifs
  · exact ⟨hbound, hrest⟩
  · simp only [timers_post_next]
    exact ⟨hbound, hrest⟩

-- Only `arm` adds a timer.
theorem begin_op_timers (s : State π τ) (caller : Caller τ) {op : Op π}
    (hop : op.isArm = false) :
    (s.begin_op caller op).timers_.post_bound = s.timers_.post_bound ∧
      ∀ entry, (s.begin_op caller op).timers_.IsArmed entry → s.timers_.IsArmed entry := by
  cases op with
  | post env => exact ⟨rfl, fun _ => id⟩
  | stop => exact ⟨rfl, fun _ => id⟩
  | arm => exact nomatch hop
  | cancel seq =>
      exact ⟨TimerService.post_bound_cancel_by_seq .., fun entry h =>
        ((TimerService.isArmed_cancel_by_seq ..).mp h).1⟩
  | fire_due => exact fire_due_timers s caller

-- The steps of a runtime one by one, with what each of them requires.
inductive Rule (config : Config) (s : State π τ) : Event π τ → State π τ → Prop
  | tick (now : Int) : s.now ≤ now → Rule config s (.tick now) { s with now := now }
  | call (caller : Caller τ) (op : Op π) : s.mayCall caller = true →
      Rule config s (.call caller op) (s.begin_op caller op)
  | post_dropped (caller : Caller τ) (env : Envelope π) (rest : List (Envelope π)) :
      s.calls caller = .post_test env rest → s.stop_requested_ = true →
      Rule config s (.advance caller) (s.post_next caller rest)
  | post_tested (caller : Caller τ) (env : Envelope π) (rest : List (Envelope π)) :
      s.calls caller = .post_test env rest → s.stop_requested_ = false →
      Rule config s (.advance caller) (s.setCall caller (.post_lock env rest))
  | post_refused (caller : Caller τ) (env : Envelope π) (rest : List (Envelope π)) :
      s.calls caller = .post_lock env rest → s.pc.holdsMutex = false →
      s.stop_requested_ = true → Rule config s (.advance caller) (s.post_next caller rest)
  | post_pushed (caller : Caller τ) (env : Envelope π) (rest : List (Envelope π)) :
      s.calls caller = .post_lock env rest → s.pc.holdsMutex = false →
      s.stop_requested_ = false →
      Rule config s (.advance caller) ((s.push caller env).setCall caller (.post_notify rest))
  | post_notified (caller : Caller τ) (rest : List (Envelope π)) :
      s.calls caller = .post_notify rest →
      Rule config s (.advance caller) (s.notify.post_next caller rest)
  | stop_set (caller : Caller τ) : s.calls caller = .stop_lock → s.pc.holdsMutex = false →
      Rule config s (.advance caller)
        ({ s with stop_requested_ := true }.setCall caller .stop_notify)
  | stop_notified (caller : Caller τ) : s.calls caller = .stop_notify →
      Rule config s (.advance caller) (s.notify.setCall caller .outside)
  | start : s.atTop = true → Rule config s .start (s.start config)
  | run : s.atTop = true →
      Rule config s .run (s.enter .wait_lock [] "Runtime::run before start()")
  | run_one : s.atTop = true →
      Rule config s .run_one (s.enter (.take .user) [] "Runtime::run_one before start()")
  | shutdown : s.atTop = true → Rule config s .shutdown
      (s.enter (.take (.shutdown 0)) [.shutdown] "Runtime::shutdown before start()")
  | loop (t : State π τ) : s.calls .loop = .outside → s.loop config = some t →
      Rule config s .loop t
  | wake (wait : Wait) (notified : Bool) : s.pc = .parked wait notified →
      Rule config s .wake { s with pc := .relock wait false }
  | timeout (next reading : Int) (notified : Bool) :
      s.pc = .parked (.bounded next reading) notified →
      Rule config s .timeout { s with pc := .relock (.bounded next reading) true }

-- The steps of the owning thread, with what each of them requires.
inductive LoopRule (config : Config) (s : State π τ) : State π τ → Prop
  | construct (i : Nat) : s.pc = .construct i → LoopRule config s (s.begin_construct config i)
  | on_start (i : Nat) : s.pc = .on_start i → LoopRule config s (s.begin_on_start config (i + 1))
  | wait_lock : s.pc = .wait_lock → LoopRule config s { s with pc := .due_wait }
  | no_timer : s.pc = .due_wait → s.timers_.next_due_at = none →
      LoopRule config s { s with pc := .pred_wait .indefinite }
  | timer (next : Int) : s.pc = .due_wait → s.timers_.next_due_at = some next →
      LoopRule config s { s with pc := .clock_wait next }
  | reading (next : Int) : s.pc = .clock_wait next →
      LoopRule config s { s with pc := .pred_wait (.bounded next s.now) }
  | awake (wait : Wait) : s.pc = .pred_wait wait → s.wakes = true →
      LoopRule config s { s with pc := .exit_wait }
  | park (wait : Wait) : s.pc = .pred_wait wait → s.wakes = false →
      LoopRule config s { s with pc := .parked wait false }
  | timed_out (wait : Wait) : s.pc = .relock wait true →
      LoopRule config s { s with pc := .exit_wait }
  | again (wait : Wait) : s.pc = .relock wait false →
      LoopRule config s { s with pc := .pred_wait wait }
  | returned : s.pc = .exit_wait → s.queue_ = [] → s.stop_requested_ = true →
      LoopRule config s { s with pc := .idle, run_returned := true }
  | woken : s.pc = .exit_wait → LoopRule config s { s with pc := .fire }
  | fire : s.pc = .fire → LoopRule config s ({ s with pc := .firing }.fire_due .loop)
  | fired : s.pc = .firing → LoopRule config s { s with pc := .take .first }
  | stopped : s.pc = .stop_test → s.stop_requested_ = true →
      LoopRule config s { s with pc := .take .last }
  | unstopped : s.pc = .stop_test → s.stop_requested_ = false →
      LoopRule config s { s with pc := .wait_lock }
  | take (drain : Drain) : s.pc = .take drain → LoopRule config s (s.take config drain)
  | handled (drain : Drain) : s.pc = .handle drain →
      LoopRule config s { s with pc := .take drain.next }
  | discard : s.pc = .discard → LoopRule config s (s.discard config)
  | on_stop (i : Nat) : s.pc = .on_stop i → LoopRule config s (s.begin_on_stop config i)
  | destroy (i : Nat) : s.pc = .destroy i → LoopRule config s (s.begin_destroy config (i + 1))
  | clear_timers : s.pc = .clear_timers →
      LoopRule config s { s with pc := .clear_flags, cache_ := false, timers_ := s.timers_.clear }
  | clear_flags : s.pc = .clear_flags → LoopRule config s s.finish_shutdown

theorem loop_rule {s t : State π τ} (h : s.loop config = some t) : LoopRule config s t := by
  unfold loop at h
  cases hp : s.pc with
  | idle | parked | fault =>
      rw [hp] at h
      exact nomatch h
  | construct i => rw [hp] at h; exact Option.some.inj h ▸ .construct i hp
  | on_start i => rw [hp] at h; exact Option.some.inj h ▸ .on_start i hp
  | wait_lock => rw [hp] at h; exact Option.some.inj h ▸ .wait_lock hp
  | due_wait =>
      rw [hp] at h
      simp only at h
      split at h
      · exact Option.some.inj h ▸ .no_timer hp ‹_›
      · exact Option.some.inj h ▸ .timer _ hp ‹_›
  | clock_wait next => rw [hp] at h; exact Option.some.inj h ▸ .reading next hp
  | pred_wait wait =>
      rw [hp] at h
      obtain rfl := Option.some.inj h
      split_ifs with hwakes
      · exact .awake wait hp hwakes
      · exact .park wait hp (by simpa using hwakes)
  | relock wait timed_out =>
      rw [hp] at h
      obtain rfl := Option.some.inj h
      cases timed_out with
      | true => exact .timed_out wait hp
      | false => exact .again wait hp
  | exit_wait =>
      rw [hp] at h
      simp only at h
      split_ifs at h with hexit
      · simp only [Bool.and_eq_true, List.isEmpty_iff] at hexit
        exact Option.some.inj h ▸ .returned hp hexit.1 hexit.2
      · exact Option.some.inj h ▸ .woken hp
  | fire => rw [hp] at h; exact Option.some.inj h ▸ .fire hp
  | firing => rw [hp] at h; exact Option.some.inj h ▸ .fired hp
  | stop_test =>
      rw [hp] at h
      obtain rfl := Option.some.inj h
      split_ifs with hstop
      · exact .stopped hp hstop
      · exact .unstopped hp (by simpa using hstop)
  | take drain => rw [hp] at h; exact Option.some.inj h ▸ .take drain hp
  | handle drain => rw [hp] at h; exact Option.some.inj h ▸ .handled drain hp
  | discard => rw [hp] at h; exact Option.some.inj h ▸ .discard hp
  | on_stop i => rw [hp] at h; exact Option.some.inj h ▸ .on_stop i hp
  | destroy i => rw [hp] at h; exact Option.some.inj h ▸ .destroy i hp
  | clear_timers => rw [hp] at h; exact Option.some.inj h ▸ .clear_timers hp
  | clear_flags => rw [hp] at h; exact Option.some.inj h ▸ .clear_flags hp

-- The owning thread touches the timers only where it fires or clears them.
theorem loop_shared {s t : State π τ} (h : s.loop config = some t) :
    t.toShared = s.toShared ∨
      (s.pc = .fire ∧ t = { s with pc := .firing }.fire_due .loop) ∨
      (s.pc = .clear_timers ∧
        t = { s with pc := .clear_flags, cache_ := false, timers_ := s.timers_.clear }) := by
  cases loop_rule h with
  | fire hp => exact Or.inr (Or.inl ⟨hp, rfl⟩)
  | clear_timers hp => exact Or.inr (Or.inr ⟨hp, rfl⟩)
  | construct | on_start | take | discard | on_stop | destroy => exact Or.inl (by simp)
  | _ => exact Or.inl rfl

theorem advance_rule {s t : State π τ} {caller : Caller τ} (h : s.advance caller = some t) :
    Rule config s (.advance caller) t := by
  unfold advance at h
  split at h
  · exact nomatch h
  · rename_i env rest hc
    split_ifs at h with hs <;> obtain rfl := Option.some.inj h
    · exact .post_dropped caller env rest hc hs
    · exact .post_tested caller env rest hc (by simpa using hs)
  · rename_i env rest hc
    split_ifs at h with hm hs <;> obtain rfl := Option.some.inj h
    · exact .post_refused caller env rest hc (by simpa using hm) hs
    · exact .post_pushed caller env rest hc (by simpa using hm) (by simpa using hs)
  · rename_i rest hc
    obtain rfl := Option.some.inj h
    exact .post_notified caller rest hc
  · rename_i hc
    split_ifs at h with hm
    obtain rfl := Option.some.inj h
    exact .stop_set caller hc (by simpa using hm)
  · rename_i hc
    obtain rfl := Option.some.inj h
    exact .stop_notified caller hc

theorem step_rule {s t : State π τ} {event : Event π τ} (h : step config s event = some t) :
    s.pc.faulted = false ∧ Rule config s event t := by
  unfold step at h
  have hf : s.pc.faulted = false := by
    by_contra hc
    simp [hc] at h
  rw [if_neg (by simp [hf])] at h
  refine ⟨hf, ?_⟩
  cases event with
  | tick now =>
      simp only at h
      split_ifs at h with hn
      exact Option.some.inj h ▸ .tick now hn
  | call caller op =>
      simp only at h
      split_ifs at h with hm
      exact Option.some.inj h ▸ .call caller op hm
  | advance caller => exact advance_rule h
  | start =>
      simp only at h
      split_ifs at h with ht
      exact Option.some.inj h ▸ .start ht
  | run =>
      simp only at h
      split_ifs at h with ht
      exact Option.some.inj h ▸ .run ht
  | run_one =>
      simp only at h
      split_ifs at h with ht
      exact Option.some.inj h ▸ .run_one ht
  | shutdown =>
      simp only at h
      split_ifs at h with ht
      exact Option.some.inj h ▸ .shutdown ht
  | loop =>
      simp only at h
      split at h
      · exact .loop t ‹_› h
      · exact nomatch h
  | wake =>
      simp only at h
      split at h
      · exact Option.some.inj h ▸ .wake _ _ ‹_›
      · exact nomatch h
  | timeout =>
      simp only at h
      split at h
      · exact Option.some.inj h ▸ .timeout _ _ _ ‹_›
      · exact nomatch h

end State

end Runtime

end CortexFlow
