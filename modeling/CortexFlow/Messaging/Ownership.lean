import CortexFlow.Lib.HeapMoves
import CortexFlow.Messaging.Basic
import CortexFlow.Runtime.Pending
import CortexFlow.Routing.Basic

namespace CortexFlow

open Lib

namespace TimerService

open Messaging

variable {T α : Type*}

-- An entry of the timer heap as its implicit move members treat it.
def Entry.movable (types : Types T α) : Movable (Entry (Messaging.Payload T α)) (Block T α) where
  husk := fun entry => { entry with envelope := entry.envelope.husk }
  held := fun entry => entry.envelope.held types
  held_husk := fun _ => rfl

-- What `fire_due` destructs under its lock: what the moves of `pop_heap` release,
-- and the entries that were cancelled.
def reaped (types : Types T α) (now : Int) :
    Nat → TimerService (Messaging.Payload T α) → List (Block T α)
  | 0, _ => []
  | fuel + 1, service =>
      match service.heap_.front? with
      | none => []
      | some entry =>
          if entry.due ≤ now then
            Heap.popReleased (Entry.movable types) service.heap_ ++
              (if entry.seq ∈ service.live_seqs_ then [] else entry.envelope.held types) ++
              reaped types now fuel service.reap
          else []

-- What `arm` destructs when it puts its entry on the heap.
def pushed (types : Types T α) (service : TimerService (Messaging.Payload T α)) (due : Int)
    (env : Envelope (Messaging.Payload T α)) (owner_name type_name : String) : List (Block T α) :=
  Heap.pushReleased (Entry.movable types) service.heap_
    ⟨due, service.next_seq_, env, owner_name, type_name⟩

def held (types : Types T α) (service : TimerService (Messaging.Payload T α)) : List (Block T α) :=
  service.heap_.toList.flatMap fun entry => entry.envelope.held types

end TimerService

namespace Messaging

-- An object of a program. It is borrowed while a thread is in a `post` of it or in
-- the `fire_due` whose local it is; nobody else may touch it until then.
structure Slot (T α : Type*) where
  object : Object T α
  borrowed : Bool
deriving DecidableEq

def slotHeld {T α : Type*} (types : Types T α) : Option (Slot T α) → List (Block T α)
  | none => []
  | some slot => slot.object.held types

def queueHeld {T α τ : Type*} (types : Types T α) (queue : List (Runtime.Post (Payload T α) τ)) :
    List (Block T α) :=
  queue.flatMap fun post => post.env.held types

-- A runtime and the objects of the threads that use it, by number; an object that
-- was destructed leaves `none`. `frames` has the object that a thread's call works
-- on, and `env` the envelope that is being dispatched. `made` and `freed` have all
-- payloads constructed, and all destructed and deallocated, so far.
structure State (T α τ : Type*) where
  runtime : Runtime.State (Payload T α) τ
  destroyed : Bool
  objects : List (Option (Slot T α))
  frames : Runtime.Caller τ → Option Nat
  env : Option Nat
  made : List (Block T α)
  freed : List (Block T α)

inductive Event (T α τ : Type*)
  | make_message (ty : T)
  | make_message_with (ty : T) (alloc : α)
  | construct (ty : T)
  | move (src : Nat)
  | assign (dst src : Nat)
  | enclose (from_ to_ : type_id_t) (src : Nat)
  | destroy (i : Nat)
  | post (caller : Runtime.Caller τ) (i : Nat)
  | arm (caller : Runtime.Caller τ) (delay : Int) (i : Nat) (owner_name type_name : String)
  | runtime (event : Runtime.Event (Payload T α) τ)
  | destroy_runtime

namespace State

variable {T α τ : Type*}

def init : State T α τ := ⟨.init, false, [], fun _ => none, none, [], []⟩

-- An object that is free to be used.
def get? (s : State T α τ) (i : Nat) : Option (Object T α) :=
  match s.objects[i]? with
  | some (some ⟨object, false⟩) => some object
  | _ => none

def put (s : State T α τ) (i : Nat) (slot : Option (Slot T α)) : State T α τ :=
  { s with objects := s.objects.set i slot }

def add (s : State T α τ) (slot : Slot T α) : State T α τ :=
  { s with objects := s.objects ++ [some slot] }

def release (s : State T α τ) (blocks : List (Block T α)) : State T α τ :=
  { s with freed := s.freed ++ blocks }

def adopt (s : State T α τ) (made : Block T α × MessagePtr T α) : State T α τ :=
  { s.add ⟨.ptr made.2, false⟩ with made := s.made ++ [made.1] }

def move (s : State T α τ) (src : Nat) : Option (State T α τ) :=
  (s.get? src).bind fun object =>
    object.move.map fun moved => (s.put src (some ⟨moved.2, false⟩)).add ⟨moved.1, false⟩

def enclose (s : State T α τ) (types : Types T α) (from_ to_ : type_id_t) (src : Nat) :
    Option (State T α τ) :=
  (s.get? src).bind fun object =>
    (object.enclose types from_ to_).map fun made =>
      (s.put src (some ⟨made.2, false⟩)).add ⟨made.1, false⟩

def assign [DecidableEq T] (s : State T α τ) (types : Types T α) (dst src : Nat) :
    Option (State T α τ) :=
  (s.get? dst).bind fun self =>
    (s.get? src).bind fun other =>
      if dst = src then some s
      else (self.assign types other).map fun assigned =>
        ((s.put src (some ⟨assigned.1.2, false⟩)).put dst (some ⟨assigned.1.1, false⟩)).release
          assigned.2

-- The envelope of `run_one` and `shutdown` is theirs to destruct.
def destroy (s : State T α τ) (types : Types T α) (i : Nat) : Option (State T α τ) :=
  if s.env = some i then none
  else (s.get? i).map fun object => (s.put i none).release (object.held types)

-- The envelope of the call's object with `left` more after it goes into the queue.
def give (s : State T α τ) (caller : Runtime.Caller τ) (left : Nat) : State T α τ :=
  match s.frames caller with
  | none => s
  | some i =>
      match s.objects[i]? with
      | some (some slot) => s.put i (some { slot with object := slot.object.give left })
      | _ => s

variable [DecidableEq τ]

def setFrame (s : State T α τ) (caller : Runtime.Caller τ) (frame : Option Nat) : State T α τ :=
  { s with frames := Function.update s.frames caller frame }

-- The call returns: an object of its own is destructed, another is free again.
def close (s : State T α τ) (types : Types T α) (caller : Runtime.Caller τ) : State T α τ :=
  match s.frames caller with
  | none => s
  | some i =>
      match s.objects[i]? with
      | some (some ⟨.to_fire envs, _⟩) =>
          ((s.put i none).release ((Object.to_fire envs).held types)).setFrame caller none
      | some (some slot) => (s.put i (some { slot with borrowed := false })).setFrame caller none
      | _ => s

def post (s : State T α τ) (config : Runtime.Config) (caller : Runtime.Caller τ) (i : Nat) :
    Option (State T α τ) :=
  match s.get? i with
  | some (.envelope env origin) =>
      (s.runtime.step config (.call caller (.post env))).map fun runtime =>
        { s.put i (some ⟨.envelope env origin, true⟩) with runtime := runtime }.setFrame caller
          (some i)
  | _ => none

-- `arm` takes its envelope by value.
def arm (s : State T α τ) (types : Types T α) (config : Runtime.Config)
    (caller : Runtime.Caller τ) (delay : Int) (i : Nat) (owner_name type_name : String) :
    Option (State T α τ) :=
  match s.get? i with
  | some (.envelope other origin) =>
      let env := other.move.1
      let s := s.put i (some ⟨.envelope other.move.2 .moved_from, false⟩)
      (s.runtime.step config (.call caller (.arm delay env owner_name type_name))).map
        fun runtime =>
          if delay < 0 then { s.add ⟨.envelope env origin, true⟩ with runtime := runtime }
          else
            { s with runtime := runtime }.release
              (s.runtime.timers_.pushed types (wrapTicks (s.runtime.now + delay)) env owner_name
                type_name)
  | _ => none

-- The thread has called `fire_due`, which was to `runtime` as before.
def fired (s : State T α τ) (types : Types T α) (runtime : Runtime.State (Payload T α) τ)
    (caller : Runtime.Caller τ) : State T α τ :=
  let fuel := runtime.timers_.heap_.toList.length
  let s := s.release (runtime.timers_.reaped types runtime.now fuel)
  match (TimerService.collect runtime.now fuel runtime.timers_).2 with
  | [] => s
  | record :: records =>
      let envs := (record :: records).map TimerService.FiringRecord.envelope
      (s.add ⟨.to_fire envs, true⟩).setFrame caller (some s.objects.length)

-- What a step of its call, which was at `before`, means for the thread's object.
def settle (s : State T α τ) (types : Types T α) (caller : Runtime.Caller τ)
    (before : Runtime.Call (Payload T α)) : State T α τ :=
  match before, s.runtime.calls caller with
  | .post_lock _ rest, .post_notify _ => s.give caller rest.length
  | _, .outside => s.close types caller
  | _, _ => s

def advance (s : State T α τ) (types : Types T α) (config : Runtime.Config)
    (caller : Runtime.Caller τ) : Option (State T α τ) :=
  (s.runtime.step config (.advance caller)).map fun runtime =>
    { s with runtime := runtime }.settle types caller (s.runtime.calls caller)

omit [DecidableEq τ] in
-- The envelope taken off the queue becomes that of the loop.
def enter (s : State T α τ) (env : Envelope (Payload T α)) : State T α τ :=
  { s.add ⟨.envelope env (if env.full then .message else .empty_message), false⟩ with
    env := some s.objects.length }

omit [DecidableEq τ] in
-- The body of the loop ends, which nobody's `post` of its envelope may outlast.
def leave (s : State T α τ) (types : Types T α) : Option (State T α τ) :=
  match s.env with
  | none => some s
  | some i => (s.get? i).map fun object =>
      { (s.put i none).release (object.held types) with env := none }

def loop (s : State T α τ) (types : Types T α) (config : Runtime.Config) :
    Option (State T α τ) :=
  (s.runtime.step config .loop).bind fun runtime =>
    let next : State T α τ := { s with runtime := runtime }
    match s.runtime.pc with
    | .take drain =>
        if Runtime.State.budgetSpent config drain then some next
        else
          match s.runtime.queue_ with
          | [] => some next
          | post :: _ => some (next.enter post.env)
    | .handle _ => next.leave types
    | .discard => some (next.release (queueHeld types s.runtime.queue_))
    | .clear_timers => some (next.release (s.runtime.timers_.held types))
    | .fire => some (next.fired types s.runtime .loop)
    | _ => some next

-- `~Runtime` destructs the queue, then the timers.
def destroy_runtime (s : State T α τ) (types : Types T α) : Option (State T α τ) :=
  if s.runtime.atTop && s.objects.all fun slot => !(slot.any Slot.borrowed) then
    some ({ s with
      destroyed := true
      runtime := { s.runtime with queue_ := [], timers_ := s.runtime.timers_.clear } }.release
        (queueHeld types s.runtime.queue_ ++ s.runtime.timers_.held types))
  else none

-- What a runtime does without an envelope of its caller.
def runtimeStep (s : State T α τ) (types : Types T α) (config : Runtime.Config)
    (event : Runtime.Event (Payload T α) τ) : Option (State T α τ) :=
  match event with
  | .loop => s.loop types config
  | .advance caller => s.advance types config caller
  | .call caller .fire_due =>
      (s.runtime.step config (.call caller .fire_due)).map fun runtime =>
        { s with runtime := runtime }.fired types s.runtime caller
  | event =>
      if event.carries then none
      else (s.runtime.step config event).map fun runtime => { s with runtime := runtime }

def step [DecidableEq T] (types : Types T α) (config : Runtime.Config) (s : State T α τ) :
    Event T α τ → Option (State T α τ)
  | .make_message ty => some (s.adopt (Messaging.make_message types ty s.made.length))
  | .make_message_with ty alloc =>
      some (s.adopt (Messaging.make_message_with types ty alloc s.made.length))
  | .construct ty => some (s.add ⟨.ptr (.empty ty), false⟩)
  | .move src => s.move src
  | .assign dst src => s.assign types dst src
  | .enclose from_ to_ src => s.enclose types from_ to_ src
  | .destroy i => s.destroy types i
  | .post caller i => if s.destroyed then none else s.post config caller i
  | .arm caller delay i owner_name type_name =>
      if s.destroyed then none else s.arm types config caller delay i owner_name type_name
  | .runtime event => if s.destroyed then none else s.runtimeStep types config event
  | .destroy_runtime => if s.destroyed then none else s.destroy_runtime types

def machine (T α τ : Type*) [DecidableEq T] [DecidableEq τ] (types : Types T α)
    (config : Runtime.Config) : Machine (State T α τ) (Event T α τ) where
  init := init
  step := step types config

end State

end Messaging

end CortexFlow
