import CortexFlow.Cached.Basic
import CortexFlow.Owner.Basic

namespace CortexFlow

namespace App

open Lib

-- What the code of a module asks of the runtime around it, one call at a time.
-- `ι` are the places of the `Timer` and `Subscription` objects in the Locals.
inductive Act {κ : Type*} (V : κ → Type*) (π ι : Type*)
  | send (env : Envelope π)
  | arm (dst : ι) (timer : Owner.LocalTimer π)
  -- The destructors of the two kinds of object.
  | cancel (dst : ι)
  | release (dst : ι)
  | subscribe (dst : ι) (k : κ) (subscriber_id : type_id_t)
  | set (k : κ) (value : V k)

abbrev Slots {κ : Type*} (V : κ → Type*) := (k : κ) → Option (V k)

-- An application: its composition, and the code of its modules by their index.
-- That code reads the cache before it writes to it. `M` is what the module
-- objects hold, `fresh` what they hold when constructed; `input` tells the
-- envelopes that are posted from outside the modules.
structure Program {κ : Type*} (V : κ → Type*) (π ι M : Type*) where
  keys : Cache.Keys κ V
  config : Runtime.Config
  fresh : M
  on_start : Nat → Slots V → M → Outcome M (List (Act V π ι))
  handle : Nat → Envelope (Payload V π) → Slots V → M → Outcome M (List (Act V π ι))
  destroy : Nat → M → List (Act V π ι)
  input : Envelope π → Bool

-- A runtime with its cache and modules. `timers` are the `Timer` objects, by the
-- number of the timer they hold; `todo` is what the module that the runtime has
-- called has still to ask for before it returns.
structure State {κ : Type*} (V : κ → Type*) (π τ : Type*) (n : Nat) (ι M : Type*) where
  cached : Cached.State V π τ n ι
  timers : ι → Option Nat
  objects : M
  todo : List (Act V π ι)

inductive Event (π τ : Type*)
  | runtime (event : Runtime.Event π τ)
  | act

namespace State

variable {κ : Type*} {V : κ → Type*} {π τ : Type*} {n : Nat} {ι M : Type*}

def init (program : Program V π ι M) : State V π τ n ι M :=
  ⟨.init, fun _ => none, program.fresh, []⟩

-- What the program around the modules does. Only the owning thread, between its
-- calls of the runtime, moves a clock that fires timers.
def admits (program : Program V π ι M) (s : State V π τ n ι M) : Runtime.Event π τ → Bool
  | .call caller (.post env) =>
      program.input env && (caller matches .foreign _ || s.cached.runtime.pc = .idle)
  | .call caller .stop => caller matches .foreign _ || s.cached.runtime.pc = .idle
  | .call caller .fire_due => caller matches .loop && s.cached.runtime.pc = .idle
  | .call _ _ => false
  | .loop => s.todo.isEmpty
  | _ => true

def fail (s : State V π τ n ι M) (reason : String) : State V π τ n ι M :=
  { s with cached := { s.cached with runtime := s.cached.runtime.fail reason } }

def react (s : State V π τ n ι M) : Outcome M (List (Act V π ι)) → State V π τ n ι M
  | .ok objects acts => { s with objects := objects, todo := acts }
  | .fault objects reason => { s with objects := objects }.fail reason

-- The module that the runtime has just called takes over.
def enter (program : Program V π ι M) (s : State V π τ n ι M) : State V π τ n ι M :=
  match s.cached.runtime.pc with
  | .on_start i => s.react (program.on_start i s.cached.cache.slots_ s.objects)
  | .handle _ =>
      match s.cached.runtime.log.getLast? with
      | some (.dispatch post i) =>
          s.react (program.handle i post.env s.cached.cache.slots_ s.objects)
      | _ => s
  | .destroy i => { s with todo := program.destroy i s.objects }
  | _ => s

variable [DecidableEq τ] [DecidableEq κ] [DecidableEq ι]

def call (program : Program V π ι M) (s : State V π τ n ι M) (event : Cached.Event V π τ ι) :
    Option (State V π τ n ι M) :=
  (s.cached.step program.keys program.config event).map fun cached => { s with cached := cached }

def perform (program : Program V π ι M) (s : State V π τ n ι M) :
    Act V π ι → Option (State V π τ n ι M)
  | .send env => s.call program (.runtime (.call .loop (.post env)))
  | .arm dst timer =>
      { s with
        timers := Function.update s.timers dst (some s.cached.runtime.timers_.next_seq_) }.call
          program (.runtime (.call .loop
            (.arm timer.delay timer.env timer.owner_name timer.type_name)))
  | .cancel dst =>
      match s.timers dst with
      | none => some s
      | some seq =>
          { s with timers := Function.update s.timers dst none }.call program
            (.runtime (.call .loop (.cancel seq)))
  | .release dst => s.call program (.handle (.destroy dst))
  | .subscribe dst k subscriber_id =>
      match s.cached.cache.session.pool.subscribe (program.keys.type_name k)
        (program.keys.type_id k) subscriber_id with
      | .fault _ reason => some (s.fail reason)
      | .ok _ _ => s.call program (.subscribe dst k subscriber_id)
  | .set k value => s.call program (.set k value)

def step (program : Program V π ι M) (s : State V π τ n ι M) :
    Event π τ → Option (State V π τ n ι M)
  | .runtime event =>
      if s.admits program event then
        (s.call program (.runtime event)).map fun t =>
          match event with
          | .start =>
              { t with
                objects := if s.cached.runtime.started_ then s.objects else program.fresh }.enter
                  program
          | .loop => t.enter program
          | _ => t
      else none
  | .act =>
      match s.todo with
      | [] => none
      | act :: todo =>
          if s.cached.ready then (s.perform program act).map fun t => { t with todo := todo }
          else none

def machine (τ : Type*) [DecidableEq τ] (program : Program V π ι M) (n : Nat) :
    Machine (State V π τ n ι M) (Event π τ) where
  init := init program
  step := step program

end State

end App

end CortexFlow
