import CortexFlow.Lib.Lock
import CortexFlow.Lib.Object
import CortexFlow.Runtime.Basic

namespace CortexFlow

open Lib

namespace TimerService

-- The entries that the loop of `fire_due` pops and drops.
def dropped {π : Type*} (now : Int) : Nat → TimerService π → List (Entry π)
  | 0, _ => []
  | fuel + 1, service =>
      match service.heap_.front? with
      | none => []
      | some entry =>
          if entry.due ≤ now then
            let rest := dropped now fuel service.reap
            if entry.seq ∈ service.live_seqs_ then rest else entry :: rest
          else []

end TimerService

namespace Locks

-- `κ` are the timer services of the program, `α` its allocators. The runtime's
-- own mutex is the one of its queue.
inductive Mutex (κ α : Type*)
  | allocator (allocator : α)
  | timers (service : κ)
  | runtime
deriving DecidableEq

-- What the framework's handles do when they are destructed. `deallocate` is the
-- end of a message, after its destructor.
inductive Release (κ α : Type*)
  | cancel (service : κ) (seq : Nat)
  | release_slot (slot_idx : Nat)
  | deallocate (allocator : α)
deriving DecidableEq

variable {κ α τ : Type*}

def Release.mutex : Release κ α → Option (Mutex κ α)
  | .cancel service _ => some (.timers service)
  | .release_slot _ => none
  | .deallocate allocator => some (.allocator allocator)

-- A message, with the handles in it, nested ones among them: a `MessagePtr` in it
-- is the `object` of its message.
structure Message (κ α : Type*) where
  allocator : α
  content : Object (Release κ α)
deriving DecidableEq

def Message.object (message : Message κ α) : Object (Release κ α) :=
  .members (.handle (some (.deallocate message.allocator))) message.content

-- What the constructor of a message does: it makes further messages, and destructs
-- some, or handles it was given.
inductive Ctor (κ α : Type*)
  | done
  | make (allocator : α) (ctor rest : Ctor κ α)
  | destroy (object : Object (Release κ α)) (rest : Ctor κ α)
deriving DecidableEq

-- Each handle in the objects locks and unlocks its mutex.
def destroys (objects : List (Object (Release κ α))) : List (LockAction (Mutex κ α)) :=
  LockAction.brief ((objects.flatMap Object.destruct).filterMap Release.mutex)

-- `make_message_with` constructs the message in the allocator's critical section.
def Ctor.script : Ctor κ α → List (LockAction (Mutex κ α))
  | done => []
  | make allocator ctor rest =>
      LockAction.critical (.allocator allocator) ctor.script ++ rest.script
  | destroy object rest => destroys [object] ++ rest.script

-- Besides the events of a runtime: what the program does with messages, and
-- `clear` of the runtime's timer service.
inductive Event (κ α τ : Type*)
  | runtime (event : Runtime.Event (Message κ α) τ)
  | make (caller : Runtime.Caller τ) (allocator : α) (ctor : Ctor κ α)
  | destroy (caller : Runtime.Caller τ) (object : Object (Release κ α))
  | clear (caller : Runtime.Caller τ)

def Event.caller : Event κ α τ → Runtime.Caller τ
  | .runtime (.call caller _) | .runtime (.advance caller) => caller
  | .make caller _ _ | .destroy caller _ | .clear caller => caller
  | _ => .loop

-- The messages in the heap of the timer service, and those of the cancelled timers
-- that `fire_due` drops now.
def armed (runtime : Runtime.State (Message κ α) τ) : List (Object (Release κ α)) :=
  runtime.timers_.heap_.toList.map fun entry => entry.envelope.payload_.object

def tombstones (runtime : Runtime.State (Message κ α) τ) : List (Object (Release κ α)) :=
  (runtime.timers_.dropped runtime.now runtime.timers_.heap_.toList.length).map fun entry =>
    entry.envelope.payload_.object

-- What a step destructs. An envelope that `post` has dropped goes when the thread
-- has left `post`, and one that has been dispatched when its handler returns.
def destroyed (runtime : Runtime.State (Message κ α) τ) :
    Event κ α τ → List (Object (Release κ α))
  | .destroy _ object => [object]
  | .clear _ => armed runtime
  | .runtime (.call _ .fire_due) => tombstones runtime
  | .runtime (.advance caller) =>
      match runtime.calls caller with
      | .post_test env _ | .post_lock env _ =>
          if runtime.stop_requested_ then [env.payload_.object] else []
      | _ => []
  | .runtime .loop =>
      match runtime.pc with
      | .fire => tombstones runtime
      | .handle _ => runtime.dispatched.getLast?.toList.map fun post => post.env.payload_.object
      | .discard => runtime.queue_.map fun post => post.env.payload_.object
      | .clear_timers => armed runtime
      | _ => []
  | _ => []

-- What the thread does with mutexes in a step. `own` is the runtime's timer service.
def script (config : Runtime.Config) (own : κ) (runtime : Runtime.State (Message κ α) τ)
    (event : Event κ α τ) : List (LockAction (Mutex κ α)) :=
  match event with
  | .make _ allocator ctor => LockAction.critical (.allocator allocator) ctor.script
  | .destroy .. => destroys (destroyed runtime event)
  | .clear _ | .runtime (.call _ .fire_due) =>
      LockAction.critical (.timers own) (destroys (destroyed runtime event))
  | .runtime (.call _ (.arm delay _ _ _)) =>
      if delay < 0 then [] else LockAction.brief [.timers own]
  | .runtime (.call _ (.cancel _)) => LockAction.brief [.timers own]
  | .runtime (.advance caller) =>
      match runtime.calls caller with
      | .post_lock _ _ => LockAction.brief [.runtime] ++ destroys (destroyed runtime event)
      | .stop_lock => LockAction.brief [.runtime]
      | _ => destroys (destroyed runtime event)
  | .runtime .start => if runtime.started_ then [] else LockAction.brief [.timers own]
  | .runtime .loop =>
      match runtime.pc with
      | .wait_lock | .relock .. => [.lock .runtime]
      | .due_wait => LockAction.brief [.timers own]
      | .pred_wait _ => if runtime.wakes then [] else [.unlock .runtime]
      | .exit_wait => [.unlock .runtime]
      | .fire | .clear_timers =>
          LockAction.critical (.timers own) (destroys (destroyed runtime event))
      | .take drain =>
          if Runtime.State.budgetSpent config drain then [] else LockAction.brief [.runtime]
      | .discard => LockAction.critical .runtime (destroys (destroyed runtime event))
      | _ => destroys (destroyed runtime event)
  | _ => []

-- `held` are the mutexes that each thread holds. `stuck`: a thread has locked one
-- that it holds already.
structure State (κ α τ : Type*) where
  runtime : Runtime.State (Message κ α) τ
  held : Runtime.Caller τ → List (Mutex κ α)
  stuck : Bool

namespace State

def init : State κ α τ := ⟨.init, fun _ => [], false⟩

variable [DecidableEq κ]

-- Timers of the runtime's own service are cancelled with the handle that goes.
def settle (own : κ) (timers : TimerService (Message κ α)) (release : Release κ α) :
    TimerService (Message κ α) :=
  match release with
  | .cancel service seq => if service = own then (timers.cancel_by_seq seq).1 else timers
  | _ => timers

variable [DecidableEq α] [DecidableEq τ]

-- What a step makes of the runtime, if the thread gets through it.
def proceed (config : Runtime.Config) (runtime : Runtime.State (Message κ α) τ) :
    Event κ α τ → Option (Runtime.State (Message κ α) τ)
  | .runtime event => runtime.step config event
  | .make caller _ _ | .destroy caller _ => if runtime.mayCall caller then some runtime else none
  | .clear caller =>
      if runtime.mayCall caller then some { runtime with timers_ := runtime.timers_.clear }
      else none

def step (config : Runtime.Config) (own : κ) (s : State κ α τ) (event : Event κ α τ) :
    Option (State κ α τ) :=
  if s.stuck || s.runtime.pc.faulted then none
  else
    (proceed config s.runtime event).map fun next =>
      match LockAction.exec (s.held event.caller) (script config own s.runtime event) with
      | none => { s with stuck := true }
      | some held =>
          { runtime := { next with
              timers_ := ((destroyed s.runtime event).flatMap Object.destruct).foldl (settle own)
                next.timers_ }
            held := Function.update s.held event.caller held
            stuck := false }

def machine (α τ : Type*) [DecidableEq α] [DecidableEq τ] (config : Runtime.Config) (own : κ) :
    Machine (State κ α τ) (Event κ α τ) where
  init := init
  step := step config own

end State

end Locks

end CortexFlow
