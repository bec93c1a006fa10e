import CortexFlow.App.Basic
import CortexFlow.Cached.Convergence

namespace CortexFlow

namespace Atomic

open Lib Cache App

-- How far the lifecycle has come, with the number of modules whose `on_start` has
-- been called, or whose destructor has.
inductive Phase
  | down
  | running (started : Nat)
  | closing (destroyed : Nat)
  | cleared
deriving DecidableEq

-- A timer that has not gone off. The code that armed it was called at `since`.
structure Armed (π : Type*) where
  since : Int
  delay : Int
  env : Envelope π
deriving DecidableEq

-- What the code of modules works on. `outbox` are the envelopes that the owning
-- thread has still to bring into the queue.
structure World {κ : Type*} (V : κ → Type*) (π ι : Type*) where
  slots : Slots V
  registry : Registry type_id_t ι
  timers : ι → Option (Armed π)
  outbox : List (Envelope (Payload V π))

-- An application whose modules run to their end at once when they are called.
-- `dispatched` is the history of the lifecycle; `draining` says that the queue
-- has not been found empty since, or that the lifecycle is coming to its end.
structure State {κ : Type*} (V : κ → Type*) (π ι M : Type*) extends World V π ι where
  objects : M
  queue : List (Envelope (Payload V π))
  dispatched : List (Envelope (Payload V π))
  draining : Bool
  stopping : Bool
  now : Int
  phase : Phase

-- The due time has passed, or cannot be told from the past any more.
def Armed.due {π : Type*} (armed : Armed π) (now : Int) : Prop :=
  armed.since + armed.delay ≤ now ∨ 2 ^ 63 ≤ now + armed.delay

namespace World

variable {κ : Type*} {V : κ → Type*} {π ι : Type*}

def holds (keys : Keys κ V) (w : World V π ι) (k : κ) (value : V k) : Bool :=
  (w.slots k).any fun current => keys.eq k current value

def notices (keys : Keys κ V) (w : World V π ι) (k : κ) (value : V k) :
    List (Envelope (Payload V π)) :=
  (w.registry.live.filter fun registration => registration.key = keys.type_id k).map
    fun registration => Cached.message keys k registration ⟨w.slots k, value⟩

variable [DecidableEq κ] [DecidableEq ι]

-- What one request does. `none` says that it fails an assertion, or asks for
-- something of an object that is not there.
def apply (keys : Keys κ V) (n : Nat) (since : Int) (w : World V π ι) :
    Act V π ι → Option (World V π ι)
  | .send env => some { w with outbox := w.outbox ++ [env.map .other] }
  | .arm dst timer =>
      match w.timers dst with
      | some _ => none
      | none =>
          if timer.delay < 0 then none
          else
            some { w with
              timers := Function.update w.timers dst (some ⟨since, timer.delay, timer.env⟩) }
  | .cancel dst => some { w with timers := Function.update w.timers dst none }
  | .release dst =>
      (w.registry.step n (.handle (.destroy dst))).map fun registry =>
        { w with registry := registry }
  | .subscribe dst k subscriber_id =>
      if n ≤ w.registry.live.length then none
      else
        (w.registry.step n (.subscribe dst (keys.type_id k) subscriber_id)).map fun registry =>
          { w with registry := registry }
  | .set k value =>
      if w.holds keys k value then some w
      else
        some { w with
          slots := Function.update w.slots k (some value)
          outbox := w.outbox ++ w.notices keys k value }

def applyAll (keys : Keys κ V) (n : Nat) (since : Int) (w : World V π ι)
    (acts : List (Act V π ι)) : Option (World V π ι) :=
  acts.foldlM (apply keys n since) w

end World

namespace State

variable {κ : Type*} {V : κ → Type*} {π ι M : Type*}

def init (program : Program V π ι M) : State V π ι M where
  slots := fun _ => none
  registry := .init
  timers := fun _ => none
  outbox := []
  objects := program.fresh
  queue := []
  dispatched := []
  draining := false
  stopping := false
  now := 0
  phase := .down

variable [DecidableEq κ] [DecidableEq ι]

def react (program : Program V π ι M) (n : Nat) (a : State V π ι M) :
    Outcome M (List (Act V π ι)) → Option (State V π ι M)
  | .ok objects acts =>
      (a.applyAll program.keys n a.now acts).map fun world =>
        { a with toWorld := world, objects := objects }
  | .fault _ _ => none

-- The first envelope goes to the first module with its target id.
def dispatch (program : Program V π ι M) (n : Nat) (a : State V π ι M)
    (env : Envelope (Payload V π)) (rest : List (Envelope (Payload V π))) :
    Option (State V π ι M) :=
  match program.config.modules.findIdx? fun id => id = env.to_ with
  | none => none
  | some i =>
      { a with queue := rest, dispatched := a.dispatched ++ [env], draining := true }.react program
        n (program.handle i env a.slots a.objects)

theorem dispatch_eq {program : Program V π ι M} {n i : Nat} {a : State V π ι M}
    {env : Envelope (Payload V π)} {rest : List (Envelope (Payload V π))}
    (hfind : (program.config.modules.findIdx? fun id => id = env.to_) = some i) {objects : M}
    {acts : List (Act V π ι)}
    (hhandle : program.handle i env a.slots a.objects = .ok objects acts) {world : World V π ι}
    (hw : a.toWorld.applyAll program.keys n a.now acts = some world) :
    a.dispatch program n env rest = some { a with
      toWorld := world
      queue := rest
      dispatched := a.dispatched ++ [env]
      draining := true
      objects := objects } := by
  simp only [dispatch, hfind, hhandle, react]
  exact congrArg (Option.map _) hw

-- A new cache, which takes the subscriptions of the old one for its own if there
-- are any left.
def start (program : Program V π ι M) (a : State V π ι M) : State V π ι M :=
  { a with
    slots := fun _ => none
    registry := { a.registry with live := [] }
    objects := program.fresh
    phase := .running 0 }

-- What can happen next; `none` for the failure of an assertion. The modules have
-- the owning thread for themselves, so that it has posted all when it goes on.
inductive Step (program : Program V π ι M) (n : Nat) (a : State V π ι M) :
    Option (State V π ι M) → Prop
  | tick (now : Int) : a.now ≤ now → Step program n a (some { a with now := now })
  | foreign (env : Envelope π) : program.input env = true → a.stopping = false →
      Step program n a (some { a with queue := a.queue ++ [env.map .other] })
  | own (env : Envelope π) : program.input env = true → a.outbox = [] → a.draining = false →
      Step program n a (some { a with outbox := [env.map .other] })
  | accept (env : Envelope (Payload V π)) (rest : List (Envelope (Payload V π))) :
      a.outbox = env :: rest → a.stopping = false →
      Step program n a (some { a with outbox := rest, queue := a.queue ++ [env] })
  | drop (env : Envelope (Payload V π)) (rest : List (Envelope (Payload V π))) :
      a.outbox = env :: rest → a.stopping = true →
      Step program n a (some { a with outbox := rest })
  | stop : Step program n a (some { a with stopping := true })
  -- Timers go off between the drains of the queue.
  | fire (fired : List (ι × Armed π)) : a.outbox = [] → a.draining = false →
      (fired.map Prod.fst).Nodup →
      (∀ timer ∈ fired, a.timers timer.1 = some timer.2 ∧ timer.2.due a.now) →
      Step program n a (some { a with
        timers := fun dst => if dst ∈ fired.map Prod.fst then none else a.timers dst
        outbox := fired.map fun timer => timer.2.env.map .other })
  | dispatch (env : Envelope (Payload V π)) (rest : List (Envelope (Payload V π))) :
      a.phase = .running program.config.modules.length → a.outbox = [] → a.queue = env :: rest →
      Step program n a (a.dispatch program n env rest)
  | pause : a.phase = .running program.config.modules.length → a.outbox = [] → a.queue = [] →
      Step program n a (some { a with draining := false })
  | start : a.phase = .down → a.outbox = [] →
      (∀ dst slot, ¬Handle.Owns a.registry.handles dst slot) →
      Step program n a (some (a.start program))
  -- The cache that takes over would let go of slots that are not its own.
  | stale : a.phase = .down → (∃ dst slot, Handle.Owns a.registry.handles dst slot) →
      Step program n a none
  | on_start (i : Nat) : a.phase = .running i → i < program.config.modules.length →
      a.outbox = [] →
      Step program n a ({ a with phase := .running (i + 1) }.react program n
        (program.on_start i a.slots a.objects))
  | discard : a.phase = .running program.config.modules.length → a.outbox = [] →
      Step program n a (some { a with queue := [], draining := true, phase := .closing 0 })
  | destroy (i : Nat) : a.phase = .closing i → i < program.config.modules.length →
      a.outbox = [] →
      Step program n a ({ a with phase := .closing (i + 1) }.react program n
        (.ok a.objects (program.destroy i a.objects)))
  | clear : a.phase = .closing program.config.modules.length → a.outbox = [] →
      Step program n a (some { a with timers := fun _ => none, phase := .cleared })
  | finish : a.phase = .cleared → a.outbox = [] →
      Step program n a (some { a with
        dispatched := [], draining := false, stopping := false, phase := .down })

omit [DecidableEq κ] [DecidableEq ι] in
-- What is going to be dispatched if nothing is posted any more.
def coming (a : State V π ι M) : List (Envelope (Payload V π)) :=
  a.queue ++ if a.stopping then [] else a.outbox

-- A property that every step keeps and that excludes the failures.
def Preserved (program : Program V π ι M) (n : Nat) (I : State V π ι M → Prop) : Prop :=
  ∀ a o, I a → Step program n a o → ∃ b, o = some b ∧ I b

end State

end Atomic

end CortexFlow
