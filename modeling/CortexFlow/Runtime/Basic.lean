import CortexFlow.Lib.Machine
import CortexFlow.Timer.Service
import Mathlib

namespace CortexFlow

namespace Runtime

open Lib

-- What the type parameters of a runtime fix: the ids of its modules in
-- declaration order, and `kDrainBudget`.
structure Config where
  modules : List type_id_t
  kDrainBudget : Nat

-- The thread that owns the runtime, and the threads that only post, stop and
-- handle timers.
inductive Caller (τ : Type*)
  | loop
  | foreign (thread : τ)
deriving DecidableEq

instance {τ : Type*} {p : Caller τ → Prop} [Decidable (p .loop)]
    [Decidable (∀ thread, p (.foreign thread))] : Decidable (∀ caller, p caller) :=
  decidable_of_iff (p .loop ∧ ∀ thread, p (.foreign thread))
    ⟨fun h caller => caller.rec h.1 h.2, fun h => ⟨h .loop, fun thread => h (.foreign thread)⟩⟩

-- An envelope in the queue, with the thread that posted it and the lifecycle
-- in which it did.
structure Post (π τ : Type*) where
  env : Envelope π
  caller : Caller τ
  lifecycle : Nat
deriving DecidableEq

-- How far a thread has come in `post`, `stop` or the posts of `fire_due`. The
-- envelopes of a `fire_due` that are still to be posted stand in `rest`.
inductive Call (π : Type*)
  | outside
  | post_test (env : Envelope π) (rest : List (Envelope π))
  | post_lock (env : Envelope π) (rest : List (Envelope π))
  | post_notify (rest : List (Envelope π))
  | stop_lock
  | stop_notify
deriving DecidableEq

-- How `run` waits: with no timer armed, or for the budget that `compute_wait_budget`
-- made of the next due time and its reading of the clock.
inductive Wait
  | indefinite
  | bounded (next reading : Int)
deriving DecidableEq

-- The loops that take envelopes off the queue: `run_one` when called by the
-- program, the two calls of it in `run`, and the drain of `shutdown`.
inductive Drain
  | user
  | first
  | last
  | shutdown (drained : Nat)
deriving DecidableEq

-- Where the owning thread is. At `construct`, `on_start`, `handle`, `on_stop`,
-- `destroy` and `idle` it runs code of the program.
inductive Pc
  | idle
  | construct (i : Nat)
  | on_start (i : Nat)
  -- `run`: from `due_wait` on it holds the mutex, except where it is parked.
  | wait_lock
  | due_wait
  | clock_wait (next : Int)
  | pred_wait (wait : Wait)
  | parked (wait : Wait) (notified : Bool)
  | relock (wait : Wait) (timed_out : Bool)
  | exit_wait
  | fire
  | firing
  | stop_test
  | take (drain : Drain)
  | handle (drain : Drain)
  -- `shutdown`, after the drain.
  | discard
  | on_stop (i : Nat)
  | destroy (i : Nat)
  | clear_timers
  | clear_flags
  | fault (reason : String)
deriving DecidableEq

-- Calls of the program's modules, and what `shutdown` does about its drain.
inductive LogEvent (π τ : Type*)
  | construct (i : Nat)
  | on_start (i : Nat)
  | dispatch (post : Post π τ) (i : Nat)
  | shutdown
  | trace (record : TraceRecord)
  | discard (posts : List (Post π τ))
  | on_stop (i : Nat)
  | destroy (i : Nat)
deriving DecidableEq

-- The queue and the stop flag, and the history of the present lifecycle, which
-- begins when the `shutdown` before it returns: the posts accepted (in the order
-- they locked the mutex), dispatched and discarded, and whether `run` returned.
structure Ledger (π τ : Type*) where
  queue_ : List (Post π τ)
  stop_requested_ : Bool
  lifecycle : Nat
  accepted : List (Post π τ)
  dispatched : List (Post π τ)
  discarded : List (Post π τ)
  run_returned : Bool
deriving DecidableEq

-- What only the owning thread touches: whether the optional members are there,
-- `started_`, and the calls into modules since the last `start`.
structure Stage (π τ : Type*) where
  modules_ : Bool
  cache_ : Bool
  started_ : Bool
  log : List (LogEvent π τ)
deriving DecidableEq

-- The timer service, the clock, and the calls of all threads. `issued` has all
-- posts ever begun, accepted or not.
structure Shared (π τ : Type*) where
  timers_ : TimerService π
  now : Int
  calls : Caller τ → Call π
  issued : List (Caller τ × Envelope π)

structure State (π τ : Type*) extends Ledger π τ, Stage π τ, Shared π τ where
  pc : Pc

-- What a thread can ask of a runtime at any time.
inductive Op (π : Type*)
  | post (env : Envelope π)
  | stop
  | arm (delay : Int) (env : Envelope π) (owner_name type_name : String)
  | cancel (seq : Nat)
  | fire_due
deriving DecidableEq

inductive Event (π τ : Type*)
  | tick (now : Int)
  | call (caller : Caller τ) (op : Op π)
  -- The call that the thread is in goes one step further.
  | advance (caller : Caller τ)
  | start
  | run
  | run_one
  | shutdown
  -- The owning thread goes one step further; at a place where it runs code of
  -- the program, that code returns.
  | loop
  | wake
  | timeout
deriving DecidableEq

def Pc.inUserCode : Pc → Bool
  | .idle | .construct _ | .on_start _ | .handle _ | .on_stop _ | .destroy _ => true
  | _ => false

def Pc.holdsMutex : Pc → Bool
  | .due_wait | .clock_wait _ | .pred_wait _ | .exit_wait => true
  | _ => false

-- `notify_one` and `notify_all`: there is one thread that waits, if any.
def Pc.notify : Pc → Pc
  | .parked wait _ => .parked wait true
  | pc => pc

def Pc.faulted : Pc → Bool
  | .fault _ => true
  | _ => false

-- The rest of `compute_wait_budget` once there is a timer, due at `next`.
def wait_budget (next now : Int) : Int :=
  let remaining := wrapTicks (next - now)
  if remaining ≤ 0 then 0 else remaining

def drainRecord : TraceRecord :=
  ⟨.Warn, "drain", "-", "-", "-", "drain budget exhausted; remaining envelopes discarded"⟩

def Drain.next : Drain → Drain
  | .shutdown drained => .shutdown (drained + 1)
  | drain => drain

namespace State

variable {π τ : Type*} [DecidableEq τ]

def init : State π τ where
  queue_ := []
  stop_requested_ := false
  lifecycle := 0
  accepted := []
  dispatched := []
  discarded := []
  run_returned := false
  modules_ := false
  cache_ := false
  started_ := false
  log := []
  timers_ := .init
  now := 0
  calls := fun _ => .outside
  issued := []
  pc := .idle

def setCall (s : State π τ) (caller : Caller τ) (call : Call π) : State π τ :=
  { s with calls := Function.update s.calls caller call }

-- The thread begins to post the first of the envelopes, or is done.
def post_next (s : State π τ) (caller : Caller τ) : List (Envelope π) → State π τ
  | [] => s.setCall caller .outside
  | env :: rest =>
      { s.setCall caller (.post_test env rest) with issued := s.issued ++ [(caller, env)] }

def note (s : State π τ) (events : List (LogEvent π τ)) : State π τ :=
  { s with log := s.log ++ events }

def fail (s : State π τ) (reason : String) : State π τ := { s with pc := .fault reason }

def fire_due (s : State π τ) (caller : Caller τ) : State π τ :=
  match s.timers_.fire_due s.now with
  | .fault timers reason => { s with timers_ := timers }.fail reason
  | .ok timers to_fire =>
      { s with timers_ := timers }.post_next caller
        (to_fire.map TimerService.FiringRecord.envelope)

def begin_op (s : State π τ) (caller : Caller τ) : Op π → State π τ
  | .post env => s.post_next caller [env]
  | .stop => s.setCall caller .stop_lock
  | .arm delay env owner_name type_name =>
      match s.timers_.arm s.now delay env owner_name type_name with
      | .fault _ reason => s.fail reason
      | .ok timers _ => { s with timers_ := timers }
  | .cancel seq => { s with timers_ := (s.timers_.cancel_by_seq seq).1 }
  | .fire_due => s.fire_due caller

def push (s : State π τ) (caller : Caller τ) (env : Envelope π) : State π τ :=
  { s with
    queue_ := s.queue_ ++ [⟨env, caller, s.lifecycle⟩]
    accepted := s.accepted ++ [⟨env, caller, s.lifecycle⟩] }

def notify (s : State π τ) : State π τ := { s with pc := s.pc.notify }

-- The next step of the call a thread is in. A step that locks the mutex waits
-- for it to be free.
def advance (s : State π τ) (caller : Caller τ) : Option (State π τ) :=
  match s.calls caller with
  | .outside => none
  | .post_test env rest =>
      if s.stop_requested_ then some (s.post_next caller rest)
      else some (s.setCall caller (.post_lock env rest))
  | .post_lock env rest =>
      if s.pc.holdsMutex then none
      else if s.stop_requested_ then some (s.post_next caller rest)
      else some ((s.push caller env).setCall caller (.post_notify rest))
  | .post_notify rest => some (s.notify.post_next caller rest)
  | .stop_lock =>
      if s.pc.holdsMutex then none
      else some ({ s with stop_requested_ := true }.setCall caller .stop_notify)
  | .stop_notify => some (s.notify.setCall caller .outside)

def begin_on_start (s : State π τ) (config : Config) (i : Nat) : State π τ :=
  if i < config.modules.length then
    { s.note [.on_start i] with pc := .on_start i }
  else { s with pc := .idle, started_ := true }

-- A tuple of libstdc++ constructs its last element first and destructs it last.
-- The modules below `left` are still to be constructed.
def begin_construct (s : State π τ) (config : Config) (left : Nat) : State π τ :=
  match left with
  | 0 => { s with modules_ := true }.begin_on_start config 0
  | i + 1 => { s.note [.construct i] with pc := .construct i }

def begin_destroy (s : State π τ) (config : Config) (i : Nat) : State π τ :=
  if i < config.modules.length then
    { s.note [.destroy i] with pc := .destroy i }
  else { s with pc := .clear_timers, modules_ := false }

-- `on_stop_reverse`, with the modules below `left` still to be stopped.
def begin_on_stop (s : State π τ) (config : Config) (left : Nat) : State π τ :=
  match left with
  | 0 => s.begin_destroy config 0
  | i + 1 => { s.note [.on_stop i] with pc := .on_stop i }

-- What follows when a loop over the queue ends.
def drained (s : State π τ) : Drain → State π τ
  | .user => { s with pc := .idle }
  | .first => { s with pc := .stop_test }
  | .last => { s with pc := .idle, run_returned := true }
  | .shutdown _ => { s with pc := .discard }

def budgetSpent (config : Config) : Drain → Bool
  | .shutdown drained => decide (config.kDrainBudget ≤ drained)
  | _ => false

-- Take the first envelope off the queue and dispatch it to the first module
-- with its target id.
def take (s : State π τ) (config : Config) (drain : Drain) : State π τ :=
  if budgetSpent config drain then s.drained drain
  else
    match s.queue_ with
    | [] => s.drained drain
    | post :: queue =>
        let s := { s with queue_ := queue, dispatched := s.dispatched ++ [post] }
        match config.modules.findIdx? fun id => id = post.env.to_ with
        | none => s.fail "envelope addressed to module not in ModuleList"
        | some i => { s.note [.dispatch post i] with pc := .handle drain }

def discard (s : State π τ) (config : Config) : State π τ :=
  match s.queue_ with
  | [] => s.begin_on_stop config config.modules.length
  | post :: queue =>
      ({ s with queue_ := [], discarded := post :: queue }.note
        [.trace drainRecord, .discard (post :: queue)]).begin_on_stop config config.modules.length

-- `shutdown` returns; the history of the next lifecycle begins.
def finish_shutdown (s : State π τ) : State π τ :=
  { s with
    pc := .idle
    started_ := false
    stop_requested_ := false
    lifecycle := s.lifecycle + 1
    accepted := s.queue_
    dispatched := []
    discarded := []
    run_returned := false }

-- The predicate of the wait.
def wakes (s : State π τ) : Bool := !s.queue_.isEmpty || s.stop_requested_

def loop (s : State π τ) (config : Config) : Option (State π τ) :=
  match s.pc with
  | .idle | .parked _ _ | .fault _ => none
  | .construct i => some (s.begin_construct config i)
  | .on_start i => some (s.begin_on_start config (i + 1))
  | .wait_lock => some { s with pc := .due_wait }
  | .due_wait =>
      match s.timers_.next_due_at with
      | none => some { s with pc := .pred_wait .indefinite }
      | some next => some { s with pc := .clock_wait next }
  | .clock_wait next => some { s with pc := .pred_wait (.bounded next s.now) }
  | .pred_wait wait => some { s with pc := if s.wakes then .exit_wait else .parked wait false }
  | .relock wait timed_out =>
      some { s with pc := if timed_out then .exit_wait else .pred_wait wait }
  | .exit_wait =>
      if s.queue_.isEmpty && s.stop_requested_ then
        some { s with pc := .idle, run_returned := true }
      else some { s with pc := .fire }
  | .fire => some ({ s with pc := .firing }.fire_due .loop)
  | .firing => some { s with pc := .take .first }
  | .stop_test => some { s with pc := if s.stop_requested_ then .take .last else .wait_lock }
  | .take drain => some (s.take config drain)
  | .handle drain => some { s with pc := .take drain.next }
  | .discard => some (s.discard config)
  | .on_stop i => some (s.begin_on_stop config i)
  | .destroy i => some (s.begin_destroy config (i + 1))
  | .clear_timers =>
      some { s with pc := .clear_flags, cache_ := false, timers_ := s.timers_.clear }
  | .clear_flags => some s.finish_shutdown

-- The owning thread is in code of the program and in none of its calls.
def free (s : State π τ) : Bool :=
  match s.calls .loop with
  | .outside => s.pc.inUserCode
  | _ => false

def start (s : State π τ) (config : Config) : State π τ :=
  if s.started_ then s.fail "Runtime::start called twice"
  else
    { s with cache_ := true, timers_ := s.timers_.bind_post, log := [] }.begin_construct config
      config.modules.length

def enter (s : State π τ) (pc : Pc) (events : List (LogEvent π τ)) (reason : String) :
    State π τ :=
  if s.started_ then { s.note events with pc := pc } else s.fail reason

def mayCall (s : State π τ) : Caller τ → Bool
  | .loop => s.free
  | .foreign thread =>
      match s.calls (.foreign thread) with
      | .outside => true
      | _ => false

-- `start`, `run`, `run_one` and `shutdown` are not called from within modules.
def atTop (s : State π τ) : Bool := s.free && s.pc = .idle

def step (config : Config) (s : State π τ) (event : Event π τ) : Option (State π τ) :=
  if s.pc.faulted then none
  else
    match event with
    | .tick now => if s.now ≤ now then some { s with now := now } else none
    | .call caller op => if s.mayCall caller then some (s.begin_op caller op) else none
    | .advance caller => s.advance caller
    | .start => if s.atTop then some (s.start config) else none
    | .run =>
        if s.atTop then some (s.enter .wait_lock [] "Runtime::run before start()") else none
    | .run_one =>
        if s.atTop then some (s.enter (.take .user) [] "Runtime::run_one before start()")
        else none
    | .shutdown =>
        if s.atTop then
          some (s.enter (.take (.shutdown 0)) [.shutdown] "Runtime::shutdown before start()")
        else none
    | .loop =>
        match s.calls .loop with
        | .outside => s.loop config
        | _ => none
    | .wake =>
        match s.pc with
        | .parked wait _ => some { s with pc := .relock wait false }
        | _ => none
    | .timeout =>
        match s.pc with
        | .parked (.bounded next reading) _ =>
            some { s with pc := .relock (.bounded next reading) true }
        | _ => none

def machine (π τ : Type*) [DecidableEq τ] (config : Config) :
    Machine (State π τ) (Event π τ) where
  init := init
  step := step config

end State

end Runtime

end CortexFlow
