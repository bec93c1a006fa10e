import CortexFlow.Lib.Handle
import CortexFlow.Lib.Machine
import CortexFlow.Timer.Service

namespace CortexFlow

-- Builds at the level `FULL`, where every record is emitted.
namespace Tracing

open Lib TimerService

-- A payload, and the timer that brings it, if one does.
structure Tagged (π : Type*) where
  payload : π
  timer : Option Nat
deriving DecidableEq

def tagged {π : Type*} (env : Envelope π) (timer : Option Nat) : Envelope (Tagged π) :=
  ⟨env.from_, env.to_, env.type_id_, ⟨env.payload_, timer⟩⟩

-- A record in the trace stream, with the timer it is about.
structure Traced where
  timer : Option Nat
  record : TraceRecord
deriving DecidableEq

def Traced.is (traced : Traced) (kind : String) (seq : Nat) : Prop :=
  traced.timer = some seq ∧ traced.record.kind = kind

instance (traced : Traced) (kind : String) (seq : Nat) : Decidable (traced.is kind seq) :=
  instDecidableAnd

-- A record that says how the timer ended.
def Traced.ends (traced : Traced) (seq : Nat) : Prop :=
  traced.is "timer_fire" seq ∨ traced.is "timer_cancel" seq

instance (traced : Traced) (seq : Nat) : Decidable (traced.ends seq) := instDecidableOr

-- The names that `dispatch` resolves of an envelope.
structure Names where
  sender : type_id_t → String
  target : type_id_t → String
  type_name : type_id_t → type_id_t → String

def dispatchTrace {π : Type*} (names : Names) (env : Envelope π) : TraceRecord :=
  ⟨.Dispatch, "envelope", names.sender env.from_, names.target env.to_,
    names.type_name env.to_ env.type_id_, ""⟩

-- What a thread still has to do in the call it is in. Its record is emitted once the
-- mutex has been released.
inductive Call (π ι : Type*)
  | outside
  | arming (dst : ι) (seq : Nat) (record : TraceRecord)
  | cancelling (seq : Nat) (record : TraceRecord)
  | firing (rec : FiringRecord (Tagged π)) (rest : List (FiringRecord (Tagged π)))
  | posting (env : Envelope (Tagged π)) (rest : List (FiringRecord (Tagged π)))
  | dispatching (env : Envelope (Tagged π))

-- The timers, their `Timer` objects, the queue of the runtime and what its threads are
-- doing. `ι` are addresses of `Timer` objects, `τ` threads.
structure State (π ι τ : Type*) where
  now : Int
  service : TimerService (Tagged π)
  timers : Handle.Store ι Nat
  stop_requested_ : Bool
  queue_ : List (Envelope (Tagged π))
  calls : τ → Call π ι
  trace : List Traced

inductive Event (π ι τ : Type*)
  | tick (now : Int)
  | bind_post
  | clear
  | set_stop (requested : Bool)
  | discard
  | arm (caller : τ) (dst : ι) (delay : Int) (env : Envelope π) (owner_name type_name : String)
  | handle (caller : τ) (op : Handle.Op ι)
  | fire_due (caller : τ)
  | post (caller : τ) (env : Envelope π)
  | take (caller : τ)
  -- The thread goes one step further in its call.
  | advance (caller : τ)

namespace State

variable {π ι τ : Type*} [DecidableEq ι] [DecidableEq τ] (names : Names)

def init : State π ι τ := ⟨0, .init, fun _ => none, false, [], fun _ => .outside, []⟩

def setCall (s : State π ι τ) (caller : τ) (call : Call π ι) : State π ι τ :=
  { s with calls := Function.update s.calls caller call }

def emit (s : State π ι τ) (timer : Option Nat) (record : TraceRecord) : State π ι τ :=
  { s with trace := s.trace ++ [⟨timer, record⟩] }

-- The loop of `fire_due` over what it collected.
def nextRecord : List (FiringRecord (Tagged π)) → Call π ι
  | [] => .outside
  | rec :: rest => .firing rec rest

def push (s : State π ι τ) (env : Envelope (Tagged π)) : State π ι τ :=
  if s.stop_requested_ then s else { s with queue_ := s.queue_ ++ [env] }

def idle (s : State π ι τ) (caller : τ) : Bool :=
  match s.calls caller with
  | .outside => true
  | _ => false

-- The new `Timer` is there when `arm` returns, after its record.
def advance (s : State π ι τ) (caller : τ) : Option (State π ι τ) :=
  match s.calls caller with
  | .outside => none
  | .arming dst seq record =>
      (s.timers.adopt dst seq).map fun timers =>
        ({ s with timers := timers }.emit (some seq) record).setCall caller .outside
  | .cancelling seq record => some ((s.emit (some seq) record).setCall caller .outside)
  | .firing rec rest =>
      some ((s.emit rec.envelope.payload_.timer (fireTrace rec)).setCall caller
        (.posting rec.envelope rest))
  | .posting env rest => some ((s.push env).setCall caller (nextRecord rest))
  | .dispatching env =>
      some ((s.emit env.payload_.timer (dispatchTrace names env)).setCall caller .outside)

def begin_handle (s : State π ι τ) (caller : τ) (op : Handle.Op ι) : Option (State π ι τ) :=
  match s.timers.apply op with
  | none => none
  | some (timers, none) => some { s with timers := timers }
  | some (timers, some seq) =>
      let cancelled := s.service.cancel_by_seq seq
      let next := { s with timers := timers, service := cancelled.1 }
      match cancelled.2 with
      | none => some next
      | some record => some (next.setCall caller (.cancelling seq record))

-- A failed assertion ends the program, so a call that faults is no step.
def step (s : State π ι τ) : Event π ι τ → Option (State π ι τ)
  | .tick now => if s.now ≤ now then some { s with now := now } else none
  | .bind_post => some { s with service := s.service.bind_post }
  | .clear => some { s with service := s.service.clear }
  | .set_stop requested => some { s with stop_requested_ := requested }
  | .discard => some { s with queue_ := [] }
  | .arm caller dst delay env owner_name type_name =>
      if s.idle caller then
        match s.service.arm s.now delay (tagged env (some s.service.next_seq_)) owner_name
            type_name with
        | .fault _ _ => none
        | .ok service (seq, record) =>
            some ({ s with service := service }.setCall caller (.arming dst seq record))
      else none
  | .handle caller op => if s.idle caller then s.begin_handle caller op else none
  | .fire_due caller =>
      if s.idle caller then
        match s.service.fire_due s.now with
        | .fault _ _ => none
        | .ok service to_fire =>
            some ({ s with service := service }.setCall caller (nextRecord to_fire))
      else none
  | .post caller env =>
      if s.idle caller then some (s.setCall caller (.posting (tagged env none) [])) else none
  | .take caller =>
      if s.idle caller then
        match s.queue_ with
        | [] => none
        | env :: queue => some ({ s with queue_ := queue }.setCall caller (.dispatching env))
      else none
  | .advance caller => s.advance names caller

def machine (π ι τ : Type*) [DecidableEq ι] [DecidableEq τ] (names : Names) :
    Machine (State π ι τ) (Event π ι τ) where
  init := init
  step := step names

end State

end Tracing

end CortexFlow
