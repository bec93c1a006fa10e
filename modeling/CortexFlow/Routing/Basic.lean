import CortexFlow.Runtime.Pending

namespace CortexFlow

open Lib

namespace Routing

-- A payload: the type it was constructed as, and its value.
structure Object {T : Type*} (V : T → Type*) where
  ty : T
  value : V ty

-- What the type parameters of a module fix: its id and the message types of its
-- `Inbox`.
structure ModuleType (T : Type*) where
  kTypeId : type_id_t
  Inbox : List T

-- `T` is the type of message types.
structure Composition (T : Type*) where
  type_id : T → type_id_t
  ModuleList : List (ModuleType T)
  kDrainBudget : Nat
  messages_distinct : Function.Injective type_id
  modules_distinct : (ModuleList.map ModuleType.kTypeId).Nodup

-- How a handler got its payload: as the type it was constructed as, or by a cast
-- to another one.
inductive Handled {T : Type*} (V : T → Type*)
  | on (Msg : T) (value : V Msg)
  | reinterpreted (Msg : T)

def Handled.cast {T : Type*} {V : T → Type*} : Handled V → Bool
  | .on _ _ => false
  | .reinterpreted _ => true

variable {T : Type*} {V : T → Type*} [DecidableEq T]

-- `payload<Msg>()`
def Object.payload (object : Object V) (Msg : T) : Option (V Msg) :=
  if h : object.ty = Msg then some (h ▸ object.value) else none

def dispatch_handler (Msg : T) (env : Envelope (Object V)) : Handled V :=
  match env.payload_.payload Msg with
  | some value => .on Msg value
  | none => .reinterpreted Msg

namespace Composition

def config (c : Composition T) : Runtime.Config :=
  ⟨c.ModuleList.map ModuleType.kTypeId, c.kDrainBudget⟩

-- The constructor of `Envelope`.
def envelope (c : Composition T) (from_ to_ : type_id_t) (msg : Object V) :
    Envelope (Object V) :=
  ⟨from_, to_, c.type_id msg.ty, msg⟩

-- `Module::handle`, with the rest of the dispatch table still to be searched.
def handle (c : Composition T) (env : Envelope (Object V)) : List T → Option (Handled V)
  | [] => none
  | Msg :: Msgs =>
      if c.type_id Msg = env.type_id_ then some (dispatch_handler Msg env) else c.handle env Msgs

end Composition

-- A runtime with the `envelope_` of each of its modules. `running` is the handler
-- that runs, with the envelope it runs for; `made` and `handled` have all
-- envelopes made and all handlers called so far.
structure State {T : Type*} (V : T → Type*) (τ : Type*) where
  runtime : Runtime.State (Object V) τ
  envelope_ : Nat → Option (Envelope (Object V))
  running : Option (Nat × Envelope (Object V))
  made : List (Envelope (Object V))
  handled : List (Nat × Handled V)

-- Besides what a runtime does without an envelope: the ways to make one.
inductive Event {T : Type*} (V : T → Type*) (τ : Type*)
  | runtime (event : Runtime.Event (Object V) τ)
  | post (caller : Runtime.Caller τ) (from_ to_ : type_id_t) (msg : Object V)
  | send (caller : Runtime.Caller τ) (i : Nat) (Target : ModuleType T) (msg : Object V)
  | reply_to (i : Nat) (msg : Object V)
  | fanout (subscriber_id : type_id_t) (msg : Object V)
  | arm (caller : Runtime.Caller τ) (delay : Int) (from_ to_ : type_id_t) (msg : Object V)
      (owner_name type_name : String)
  | arm_target (caller : Runtime.Caller τ) (delay : Int) (Target : ModuleType T)
      (msg : Object V) (owner_name type_name : String)

end Routing

-- The event brings an envelope with it.
def Runtime.Event.carries {π τ : Type*} : Runtime.Event π τ → Bool
  | .call _ (.post _) | .call _ (.arm ..) => true
  | _ => false

namespace Routing

namespace State

variable {T : Type*} {V : T → Type*} {τ : Type*}

def init : State V τ := ⟨.init, fun _ => none, none, [], []⟩

-- The module that `dispatch_one` has called, as the runtime notes it.
def called (runtime : Runtime.State (Object V) τ) : Option (Nat × Envelope (Object V)) :=
  match runtime.pc, runtime.log.getLast? with
  | .handle _, some (.dispatch post i) => some (i, post.env)
  | _, _ => none

variable [DecidableEq T] [DecidableEq τ]

def handle (s : State V τ) (c : Composition T) (i : Nat) (env : Envelope (Object V)) :
    State V τ :=
  match (c.ModuleList[i]?).bind fun mod => c.handle env mod.Inbox with
  | none =>
      { s with
        envelope_ := Function.update s.envelope_ i none
        runtime := s.runtime.fail "message type not in module inbox" }
  | some run =>
      { s with
        envelope_ := Function.update s.envelope_ i (some env)
        running := some (i, env)
        handled := s.handled ++ [(i, run)] }

-- The handler that runs, if any, returns to `Module::handle`.
def returned (s : State V τ) : State V τ :=
  match s.running with
  | none => s
  | some (i, _) =>
      { s with envelope_ := Function.update s.envelope_ i none, running := none }

-- A step of the owning thread: a handler returns, or one is called, or neither.
def loop (s : State V τ) (c : Composition T) : Option (State V τ) :=
  (s.runtime.step c.config .loop).map fun runtime =>
    let s := { s.returned with runtime := runtime }
    match called runtime with
    | none => s
    | some (i, env) => s.handle c i env

def call (s : State V τ) (c : Composition T) (caller : Runtime.Caller τ)
    (op : Runtime.Op (Object V)) (env : Envelope (Object V)) : Option (State V τ) :=
  (s.runtime.step c.config (.call caller op)).map fun runtime =>
    { s with runtime := runtime, made := s.made ++ [env] }

def post (s : State V τ) (c : Composition T) (caller : Runtime.Caller τ)
    (env : Envelope (Object V)) : Option (State V τ) :=
  s.call c caller (.post env) env

def arm (s : State V τ) (c : Composition T) (caller : Runtime.Caller τ) (delay : Int)
    (env : Envelope (Object V)) (owner_name type_name : String) : Option (State V τ) :=
  s.call c caller (.arm delay env owner_name type_name) env

-- `send` does not compile for a message that is not in the target's `Inbox`, and
-- `envelope()` is only there while the module handles one.
def step (c : Composition T) (s : State V τ) : Event V τ → Option (State V τ)
  | .runtime .loop => s.loop c
  | .runtime event =>
      if event.carries then none
      else (s.runtime.step c.config event).map fun runtime => { s with runtime := runtime }
  | .post caller from_ to_ msg => s.post c caller (c.envelope from_ to_ msg)
  | .send caller i Target msg =>
      (c.ModuleList[i]?).bind fun mod =>
        if msg.ty ∈ Target.Inbox then
          s.post c caller (c.envelope mod.kTypeId Target.kTypeId msg)
        else none
  | .reply_to i msg =>
      (c.ModuleList[i]?).bind fun mod =>
        (s.envelope_ i).bind fun env =>
          if !s.runtime.mayCall .loop then none
          else if env.from_ = kNoSender then
            some { s with runtime :=
              s.runtime.fail "reply_to called on envelope with sentinel from" }
          else s.post c .loop (c.envelope mod.kTypeId env.from_ msg)
  | .fanout subscriber_id msg => s.post c .loop (c.envelope kNoSender subscriber_id msg)
  | .arm caller delay from_ to_ msg owner_name type_name =>
      s.arm c caller delay (c.envelope from_ to_ msg) owner_name type_name
  | .arm_target caller delay Target msg owner_name type_name =>
      s.arm c caller delay (c.envelope kNoSender Target.kTypeId msg) owner_name type_name

def machine (V : T → Type*) (τ : Type*) [DecidableEq τ] (c : Composition T) :
    Machine (State V τ) (Event V τ) where
  init := init
  step := step c

end State

end Routing

end CortexFlow
