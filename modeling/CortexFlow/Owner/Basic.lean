import CortexFlow.Flow.Locals
import CortexFlow.Runtime.Basic

namespace CortexFlow

-- A payload, and the timer that brought it if that timer was held in Locals.
structure Sent (π : Type*) where
  payload : π
  origin : Option Nat
deriving DecidableEq

def Envelope.sent {π : Type*} (env : Envelope π) (origin : Option Nat) : Envelope (Sent π) :=
  ⟨env.from_, env.to_, env.type_id_, ⟨env.payload_, origin⟩⟩

namespace Runtime

variable {π τ : Type*}

def Op.sent : Op π → Op (Sent π)
  | .post env => .post (env.sent none)
  | .stop => .stop
  | .arm delay env owner_name type_name => .arm delay (env.sent none) owner_name type_name
  | .cancel seq => .cancel seq
  | .fire_due => .fire_due

def Event.sent : Event π τ → Event (Sent π) τ
  | .tick now => .tick now
  | .call caller op => .call caller op.sent
  | .advance caller => .advance caller
  | .start => .start
  | .run => .run
  | .run_one => .run_one
  | .shutdown => .shutdown
  | .loop => .loop
  | .wake => .wake
  | .timeout => .timeout

-- Steps of the owning thread outside the code of the program.
def Event.ofLoop : Event π τ → Bool
  | .start | .run | .run_one | .shutdown | .loop | .wake | .timeout => true
  | _ => false

end Runtime

namespace Owner

open Lib

variable {S π τ : Type*}

-- A timer for the owning module, as the constructor of some Locals arms it.
structure LocalTimer (π : Type*) where
  delay : Int
  env : Envelope π
  owner_name : String
  type_name : String
deriving DecidableEq

structure Params (S π : Type*) where
  flow : Flow.Params S (Envelope π)
  locals : S → List (LocalTimer π)

-- What Locals do to the timers when they are constructed and destructed.
inductive LocalOp (π : Type*)
  | arm (timer : LocalTimer π)
  | destruct
deriving DecidableEq

-- A runtime with a module that owns a flow. `held` are the timers in the Locals of
-- the current state, the last one first; `departed` those whose Locals have been
-- destructed; `todo` is what the Locals have still to do before the flow goes on.
structure State (S π τ : Type*) where
  runtime : Runtime.State (Sent π) τ
  flow : Flow.Run S (Envelope π)
  todo : List (LocalOp π)
  held : List Nat
  departed : List Nat

inductive Event (S π τ : Type*)
  | runtime (event : Runtime.Event π τ)
  | flow (event : Flow.Run.Event S (Envelope π))
  | locals
  -- The module puts another timer into the Locals, or resets one there.
  | hold (timer : LocalTimer π)
  | release (seq : Nat)
deriving DecidableEq

def Params.localOps (params : Params S π) : Flow.Effect S (Envelope π) → List (LocalOp π)
  | .construct tag => (params.locals tag).map .arm
  | .destruct _ => [.destruct]
  | _ => []

namespace State

def init (params : Params S π) : State S π τ := ⟨.init, .init params.flow, [], [], []⟩

def arm (s : State S π τ) (timer : LocalTimer π) : State S π τ :=
  match s.runtime.timers_.arm s.runtime.now timer.delay
    (timer.env.sent (some s.runtime.timers_.next_seq_)) timer.owner_name timer.type_name with
  | .fault _ reason => { s with runtime := s.runtime.fail reason }
  | .ok timers value =>
      { s with runtime := { s.runtime with timers_ := timers }, held := value.1 :: s.held }

def cancel (s : State S π τ) (seq : Nat) : State S π τ :=
  { s with
    runtime := { s.runtime with timers_ := (s.runtime.timers_.cancel_by_seq seq).1 } }

-- Locals let go of their timers one by one.
def localStep (s : State S π τ) : Option (State S π τ) :=
  match s.todo with
  | [] => none
  | .arm timer :: todo => some { s.arm timer with todo := todo }
  | .destruct :: todo =>
      match s.held with
      | [] => some { s with todo := todo }
      | seq :: held =>
          some { s.cancel seq with held := held, departed := seq :: s.departed }

variable [DecidableEq τ]

-- The owning thread is in code of the program that has nothing left to do for
-- Locals.
def ready (s : State S π τ) : Bool := s.runtime.free && s.todo.isEmpty

-- The module calls its flow when the owning thread is in code of the program, and
-- that code does not return while a call of the flow is under way.
def step (params : Params S π) (config : Runtime.Config) (s : State S π τ) :
    Event S π τ → Option (State S π τ)
  | .runtime event =>
      if event.ofLoop && !(s.flow.stack.isEmpty && s.todo.isEmpty) then none
      else (s.runtime.step config event.sent).map fun runtime => { s with runtime := runtime }
  | .flow event =>
      if s.ready then
        (Flow.Run.next params.flow s.flow event).map fun flow =>
          { s with
            flow := flow
            todo := (flow.effects.drop s.flow.effects.length).flatMap params.localOps }
      else none
  | .locals => if s.runtime.free then s.localStep else none
  | .hold timer => if s.ready && s.flow.live.isSome then some (s.arm timer) else none
  | .release seq =>
      if s.ready && s.held.contains seq then
        some { s.cancel seq with held := s.held.erase seq }
      else none

def machine (τ : Type*) [DecidableEq τ] (params : Params S π) (config : Runtime.Config) :
    Machine (State S π τ) (Event S π τ) where
  init := init params
  step := step params config

end State

end Owner

end CortexFlow
