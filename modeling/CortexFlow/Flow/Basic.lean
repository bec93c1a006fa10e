import CortexFlow.Core
import CortexFlow.Lib.Machine

namespace CortexFlow

namespace Flow

open Lib

variable {S ε : Type*}

inductive Kind
  | Stay
  | Transition
  | TransitionNow
  | Done
deriving DecidableEq

structure StateDirective (S : Type*) where
  kind : Kind
  next : Option S
deriving DecidableEq

def stay : StateDirective S := ⟨.Stay, none⟩

def transition_to (tag : S) : StateDirective S := ⟨.Transition, some tag⟩

def transition_to_now (tag : S) : StateDirective S := ⟨.TransitionNow, some tag⟩

def done : StateDirective S := ⟨.Done, none⟩

-- What the type parameters of a flow fix. `S` are its state tags, `ε` what the
-- states handle.
structure Params (S ε : Type*) where
  initial_ : S
  owner_name : String
  name : S → String
  init_env : ε

-- User code that a flow has called and that has not returned.
inductive Frame (ε : Type*)
  | handling (env : ε)
  | flow_done
deriving DecidableEq

-- What a flow does that can be seen from outside. `handle` notes whether the
-- context passed to the state points at the buffer.
inductive Effect (S ε : Type*)
  | construct (tag : S)
  | destruct (tag : S)
  | handle (tag : S) (locals_bound : Bool) (env : ε)
  | on_flow_done
  | trace (record : TraceRecord)
deriving DecidableEq

-- The flow, the calls it has made and not seen return (innermost first), and
-- what it has done so far.
structure Run (S ε : Type*) where
  current_ : S
  owner_bound : Bool
  locals_bound : Bool
  active_ : Bool
  in_step_ : Bool
  stack : List (Frame ε)
  destroyed : Bool
  effects : List (Effect S ε)
deriving DecidableEq

namespace Run

def init (params : Params S ε) : Run S ε :=
  ⟨params.initial_, false, false, false, false, [], false, []⟩

def emit (s : Run S ε) (effect : Effect S ε) : Run S ε :=
  { s with effects := s.effects ++ [effect] }

-- `current_->handle(ctx_, env)`, up to where the state takes over.
def invoke (s : Run S ε) (env : ε) : Run S ε :=
  { s.emit (.handle s.current_ s.locals_bound env) with stack := .handling env :: s.stack }

-- The start of `step`, up to the first call of the current state.
def step (s : Run S ε) (env : ε) : Outcome (Run S ε) Unit :=
  if !s.active_ then .fault s "cortexflow::Flow::step: called before start()"
  else if s.in_step_ then .fault s "cortexflow::Flow::step: reentrant invocation"
  else .ok ({ s with in_step_ := true }.invoke env) ()

-- Construct the Locals of `tag` in the buffer.
def enter (s : Run S ε) (tag : S) : Run S ε :=
  { { s with current_ := tag }.emit (.construct tag) with locals_bound := true }

-- Destruct the live Locals and go dormant.
def leave (s : Run S ε) : Run S ε :=
  { s.emit (.destruct s.current_) with locals_bound := false, active_ := false }

def enter_initial_ (s : Run S ε) (params : Params S ε) : Outcome (Run S ε) Unit :=
  ({ s with active_ := true }.enter params.initial_).step params.init_env

def start (s : Run S ε) (params : Params S ε) : Outcome (Run S ε) Unit :=
  if s.active_ then .fault s "cortexflow::Flow::start: flow already started"
  else { s with owner_bound := true }.enter_initial_ params

def terminate (s : Run S ε) : Outcome (Run S ε) Unit :=
  if s.in_step_ then
    .fault s ("cortexflow::Flow::terminate: cannot be called from inside a " ++
      "step (return the done() directive instead)")
  else .ok (if s.active_ then s.leave else s) ()

def restart (s : Run S ε) (params : Params S ε) : Outcome (Run S ε) Unit :=
  if s.in_step_ then
    .fault s "cortexflow::Flow::restart: cannot be called from inside a step"
  else if !s.owner_bound then
    .fault s ("cortexflow::Flow::restart: owner reference not bound " ++
      "(call start() at least once before restart())")
  else (if s.active_ then s.leave else s).enter_initial_ params

-- The names are formatted into a buffer of 128 bytes.
def transitionRecord (params : Params S ε) (tag next : S) : TraceRecord :=
  ⟨.Full, "transition", params.owner_name, "-", "-",
    String.ofList ((params.name tag ++ "->" ++ params.name next).toList.take 127)⟩

-- The Locals of the current state make way for those of `next`.
def change (s : Run S ε) (params : Params S ε) (next : S) : Run S ε :=
  ((s.emit (.trace (transitionRecord params s.current_ next))).emit (.destruct s.current_)).enter
    next

-- One round of the loop in `step`, from where the state called with `env` has
-- returned `dir` to where `step` calls user code or returns.
def resume (s : Run S ε) (params : Params S ε) (env : ε) (dir : StateDirective S) :
    Outcome (Run S ε) Unit :=
  match dir.kind with
  | .Stay => .ok { s with in_step_ := false } ()
  | .Transition =>
      match dir.next with
      | none => .fault s "cortexflow::Flow: transition directive carries null next"
      | some next => .ok { s.change params next with in_step_ := false } ()
  | .TransitionNow =>
      match dir.next with
      | none => .fault s "cortexflow::Flow: transition directive carries null next"
      | some next => .ok ((s.change params next).invoke env) ()
  | .Done =>
      let s := { s.leave with in_step_ := false }
      if !s.owner_bound then
        .fault s ("cortexflow::Flow::done: owner reference not bound " ++
          "(start() must be called before a state can return done())")
      else .ok { s.emit .on_flow_done with stack := .flow_done :: s.stack } ()

-- What the program around the flow can do: call it, return from what it called,
-- and destroy it once no call is under way.
inductive Event (S ε : Type*)
  | start
  | step (env : ε)
  | terminate
  | restart
  | returns (dir : StateDirective S)
  | done_returns
  | destroy
deriving DecidableEq

def completed (outcome : Outcome (Run S ε) Unit) : Option (Run S ε) :=
  match outcome with
  | .ok s _ => some s
  | .fault _ _ => none

-- A failed assertion ends the program, so a call that faults is no step.
def next (params : Params S ε) (s : Run S ε) (event : Event S ε) : Option (Run S ε) :=
  if s.destroyed then none
  else
    match event with
    | .start => completed (s.start params)
    | .step env => completed (s.step env)
    | .terminate => completed s.terminate
    | .restart => completed (s.restart params)
    | .returns dir =>
        match s.stack with
        | .handling env :: stack => completed ({ s with stack := stack }.resume params env dir)
        | _ => none
    | .done_returns =>
        match s.stack with
        | .flow_done :: stack => some { s with stack := stack }
        | _ => none
    | .destroy =>
        if s.stack.isEmpty then
          some { (if s.active_ then s.emit (.destruct s.current_) else s) with destroyed := true }
        else none

def machine (params : Params S ε) : Machine (Run S ε) (Event S ε) where
  init := init params
  step := next params

end Run

end Flow

end CortexFlow
