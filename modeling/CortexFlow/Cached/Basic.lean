import CortexFlow.Cache.Store
import CortexFlow.Runtime.Basic

namespace CortexFlow

-- What the messages of a runtime with a cache carry. `serial` notes for which
-- subscription a notification was posted.
inductive Payload {κ : Type*} (V : κ → Type*) (π : Type*)
  | key_changed (serial : Nat) (change : Cache.Change V)
  | other (payload : π)

def Envelope.map {π ρ : Type*} (f : π → ρ) (env : Envelope π) : Envelope ρ :=
  ⟨env.from_, env.to_, env.type_id_, f env.payload_⟩

namespace Runtime

variable {π ρ τ : Type*}

def Op.map (f : π → ρ) : Op π → Op ρ
  | .post env => .post (env.map f)
  | .stop => .stop
  | .arm delay env owner_name type_name => .arm delay (env.map f) owner_name type_name
  | .cancel seq => .cancel seq
  | .fire_due => .fire_due

def Event.map (f : π → ρ) : Event π τ → Event ρ τ
  | .tick now => .tick now
  | .call caller op => .call caller (op.map f)
  | .advance caller => .advance caller
  | .start => .start
  | .run => .run
  | .run_one => .run_one
  | .shutdown => .shutdown
  | .loop => .loop
  | .wake => .wake
  | .timeout => .timeout

-- The events that bring the runtime to its end.
def Event.ends : Event π τ → Bool
  | .call _ .stop | .shutdown => true
  | _ => false

end Runtime

namespace Cached

open Lib

-- A runtime and the cache in it. The handles are those of all its subscriptions.
structure State {κ : Type*} (V : κ → Type*) (π τ : Type*) (n : Nat) (ι : Type*) where
  runtime : Runtime.State (Payload V π) τ
  cache : Cache.State V n ι

inductive Event {κ : Type*} (V : κ → Type*) (π τ ι : Type*)
  | runtime (event : Runtime.Event π τ)
  | subscribe (dst : ι) (k : κ) (subscriber_id : type_id_t)
  | handle (op : Handle.Op ι)
  | set (k : κ) (value : V k)

def Event.ends {κ : Type*} {V : κ → Type*} {π τ ι : Type*} : Event V π τ ι → Bool
  | .runtime event => event.ends
  | _ => false

-- The notification as it goes through the queue.
def mark {κ : Type*} {V : κ → Type*} {π : Type*} (env : Envelope (Cache.Change V)) (serial : Nat) :
    Envelope (Payload V π) :=
  env.map (.key_changed serial)

namespace State

variable {κ : Type*} {V : κ → Type*} {π τ : Type*} {n : Nat} {ι : Type*}

def init : State V π τ n ι := ⟨.init, .init⟩

-- `start` puts a new cache in the place of the old one and binds its post sink.
def emplace (cache : Cache.State V n ι) : Cache.State V n ι :=
  ⟨fun _ => none, { cache.session with pool := .empty n }, true⟩

-- The live subscriptions for a key in registration order.
def addressed (keys : Cache.Keys κ V) (s : State V π τ n ι) (k : κ) :
    List (Cache.Registration type_id_t) :=
  s.cache.session.registry.live.filter fun registration => registration.key = keys.type_id k

variable [DecidableEq τ] [DecidableEq κ] [DecidableEq ι]

-- The owning thread runs code of the program, and there is a cache.
def ready (s : State V π τ n ι) : Bool := s.runtime.free && s.runtime.cache_

def step (keys : Cache.Keys κ V) (config : Runtime.Config) (s : State V π τ n ι) :
    Event V π τ ι → Option (State V π τ n ι)
  | .runtime event =>
      (s.runtime.step config (event.map .other)).map fun runtime =>
        match event with
        | .start =>
            if s.runtime.started_ then { s with runtime := runtime }
            else ⟨runtime, emplace s.cache⟩
        | _ => { s with runtime := runtime }
  | .subscribe dst k subscriber_id =>
      if s.ready then
        (s.cache.step keys (.subscribe dst k subscriber_id)).map fun cache =>
          { s with cache := cache }
      else none
  | .handle op =>
      if s.ready then (s.cache.step keys (.handle op)).map fun cache => { s with cache := cache }
      else none
  | .set k value =>
      if s.ready then
        match s.cache.set keys k value with
        | .fault written reason => some ⟨s.runtime.fail reason, written.cache⟩
        | .ok written _ =>
            some ⟨s.runtime.post_next .loop
              (List.zipWith mark written.posted ((s.addressed keys k).map fun registration =>
                registration.serial)), written.cache⟩
      else none

def machine (π τ : Type*) [DecidableEq τ] (keys : Cache.Keys κ V) (config : Runtime.Config)
    (n : Nat) (ι : Type*) [DecidableEq ι] : Machine (State V π τ n ι) (Event V π τ ι) where
  init := init
  step := step keys config

end State

end Cached

end CortexFlow
