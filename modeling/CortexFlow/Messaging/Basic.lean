import CortexFlow.Core
import Mathlib

namespace CortexFlow

namespace Messaging

-- `T` is the type of message types, `α` that of allocators.
structure Types (T α : Type*) where
  type_id : T → type_id_t
  sizeof : T → Nat
  alignof : T → Nat
  default_allocator : α

-- A payload with what is needed to get rid of it: the type whose destructor is to
-- run, and the arguments of `deallocate`. `ptr` tells payloads apart, also where
-- an allocator hands out an address again.
structure Block (T α : Type*) where
  ptr : Nat
  ty : T
  allocator : Option α
  size : Nat
  alignment : Nat
deriving DecidableEq

-- `MessagePtr<ty>`
structure MessagePtr (T α : Type*) where
  ty : T
  ptr_ : Option Nat
  allocator_ : Option α
deriving DecidableEq

-- What an `Envelope` has besides its ids. `destroy_fn_` is `destroy_impl` of that
-- type.
structure Payload (T α : Type*) where
  payload_ : Option Nat
  allocator_ : Option α
  destroy_fn_ : T
deriving DecidableEq

variable {T α : Type*}

def destroy_impl (types : Types T α) (ty : T) (alloc : Option α) (ptr : Nat) : Block T α :=
  ⟨ptr, ty, alloc, types.sizeof ty, types.alignof ty⟩

namespace MessagePtr

def empty (ty : T) : MessagePtr T α := ⟨ty, none, none⟩

-- What `destroy` destructs and deallocates.
def held (types : Types T α) (self : MessagePtr T α) : List (Block T α) :=
  (self.ptr_.map (destroy_impl types self.ty self.allocator_)).toList

def destroy (types : Types T α) (self : MessagePtr T α) : MessagePtr T α × List (Block T α) :=
  ({ self with ptr_ := none }, self.held types)

-- The move constructor: the new object and what becomes of `other`.
def move (other : MessagePtr T α) : MessagePtr T α × MessagePtr T α :=
  (⟨other.ty, other.ptr_, other.allocator_⟩, { other with ptr_ := none, allocator_ := none })

-- The move assignment of another object.
def assign (types : Types T α) (self other : MessagePtr T α) :
    (MessagePtr T α × MessagePtr T α) × List (Block T α) :=
  let destroyed := self.destroy types
  (({ destroyed.1 with ptr_ := other.ptr_, allocator_ := other.allocator_ },
    { other with ptr_ := none, allocator_ := none }), destroyed.2)

end MessagePtr

-- Allocates and constructs a message in `alloc`, as the payload `ptr`.
def make_message_with (types : Types T α) (ty : T) (alloc : α) (ptr : Nat) :
    Block T α × MessagePtr T α :=
  (⟨ptr, ty, some alloc, types.sizeof ty, types.alignof ty⟩, ⟨ty, some ptr, some alloc⟩)

def make_message (types : Types T α) (ty : T) (ptr : Nat) : Block T α × MessagePtr T α :=
  make_message_with types ty types.default_allocator ptr

end Messaging

namespace Envelope

open Messaging

variable {T α : Type*}

-- The constructor, and what becomes of `msg`.
def construct (types : Types T α) (from_ to_ : type_id_t) (msg : MessagePtr T α) :
    Envelope (Messaging.Payload T α) × MessagePtr T α :=
  (⟨from_, to_, types.type_id msg.ty, ⟨msg.ptr_, msg.allocator_, msg.ty⟩⟩,
    { msg with ptr_ := none, allocator_ := none })

def held (types : Types T α) (self : Envelope (Messaging.Payload T α)) : List (Block T α) :=
  (self.payload_.payload_.map
    (destroy_impl types self.payload_.destroy_fn_ self.payload_.allocator_)).toList

-- An envelope that was moved from loses its payload and nothing else.
def husk (self : Envelope (Messaging.Payload T α)) : Envelope (Messaging.Payload T α) :=
  { self with payload_ := { self.payload_ with payload_ := none } }

def move (other : Envelope (Messaging.Payload T α)) :
    Envelope (Messaging.Payload T α) × Envelope (Messaging.Payload T α) :=
  (other, other.husk)

def assign (types : Types T α) (self other : Envelope (Messaging.Payload T α)) :
    (Envelope (Messaging.Payload T α) × Envelope (Messaging.Payload T α)) × List (Block T α) :=
  ((other, other.husk), self.held types)

def full (self : Envelope (Messaging.Payload T α)) : Bool := self.payload_.payload_.isSome

end Envelope

namespace Messaging

variable {T α : Type*}

-- How an envelope came to be as it is.
inductive Origin
  | message
  | empty_message
  | moved_from
deriving DecidableEq

-- The objects of a program that own payloads: its pointers and envelopes, and the
-- vector of a `fire_due`.
inductive Object (T α : Type*)
  | ptr (msg : MessagePtr T α)
  | envelope (env : Envelope (Payload T α)) (origin : Origin)
  | to_fire (envs : List (Envelope (Payload T α)))
deriving DecidableEq

namespace Object

-- What the destructor of the object destructs and deallocates.
def held (types : Types T α) : Object T α → List (Block T α)
  | ptr msg => msg.held types
  | envelope env _ => env.held types
  | to_fire envs => envs.flatMap (Envelope.held types)

def envelopes : Object T α → List (Envelope (Payload T α))
  | ptr _ => []
  | envelope env _ => [env]
  | to_fire envs => envs

-- The move constructors.
def move : Object T α → Option (Object T α × Object T α)
  | ptr msg => some (ptr msg.move.1, ptr msg.move.2)
  | envelope env origin => some (envelope env.move.1 origin, envelope env.move.2 .moved_from)
  | to_fire _ => none

-- The move assignments of another object of the same type.
def assign [DecidableEq T] (types : Types T α) :
    Object T α → Object T α → Option ((Object T α × Object T α) × List (Block T α))
  | ptr self, ptr other =>
      if self.ty = other.ty then
        let assigned := self.assign types other
        some ((ptr assigned.1.1, ptr assigned.1.2), assigned.2)
      else none
  | envelope self _, envelope other origin =>
      let assigned := self.assign types other
      some ((envelope assigned.1.1 origin, envelope assigned.1.2 .moved_from), assigned.2)
  | _, _ => none

-- The constructor of `Envelope`.
def enclose (types : Types T α) (from_ to_ : type_id_t) :
    Object T α → Option (Object T α × Object T α)
  | ptr msg =>
      let made := Envelope.construct types from_ to_ msg
      some (envelope made.1 (if msg.ptr_.isSome then .message else .empty_message), ptr made.2)
  | _ => none

-- The envelope with `left` more after it was moved from.
def giveAt (left : Nat) : List (Envelope (Payload T α)) → List (Envelope (Payload T α))
  | [] => []
  | env :: envs => if envs.length = left then env.husk :: envs else env :: giveAt left envs

def give (left : Nat) : Object T α → Object T α
  | ptr msg => ptr msg
  | envelope env _ => envelope env.husk .moved_from
  | to_fire envs => to_fire (giveAt left envs)

-- An envelope has a payload if it came from a message and was not moved from.
def Sound : Object T α → Prop
  | ptr _ => True
  | envelope env origin => env.full = true ↔ origin = .message
  | to_fire _ => True

end Object

@[simp] theorem held_husk (types : Types T α) (env : Envelope (Payload T α)) :
    env.husk.held types = [] := rfl

-- Whoever moves from an object takes over what it held, and leaves it with
-- nothing; an assignment releases what the target held.
theorem move_held (types : Types T α) {object new left : Object T α}
    (h : object.move = some (new, left)) :
    new.held types = object.held types ∧ left.held types = [] := by
  cases object with
  | ptr msg =>
      obtain ⟨rfl, rfl⟩ := Prod.mk.inj (Option.some.inj h)
      exact ⟨rfl, rfl⟩
  | envelope env origin =>
      obtain ⟨rfl, rfl⟩ := Prod.mk.inj (Option.some.inj h)
      exact ⟨rfl, rfl⟩
  | to_fire envs => exact nomatch h

theorem assign_held [DecidableEq T] (types : Types T α) {self other new left : Object T α}
    {released : List (Block T α)}
    (h : self.assign types other = some ((new, left), released)) :
    new.held types = other.held types ∧ left.held types = [] ∧
      released = self.held types := by
  cases self with
  | to_fire => exact nomatch h
  | ptr msg =>
      cases other with
      | envelope | to_fire => exact nomatch h
      | ptr msg' =>
          simp only [Object.assign] at h
          split_ifs at h with hty
          obtain ⟨rfl, rfl⟩ := Prod.mk.inj (Prod.mk.inj (Option.some.inj h)).1
          obtain rfl := (Prod.mk.inj (Option.some.inj h)).2
          refine ⟨?_, rfl, rfl⟩
          simp only [Object.held, MessagePtr.held, MessagePtr.assign, MessagePtr.destroy, hty]
  | envelope env origin =>
      cases other with
      | ptr | to_fire => exact nomatch h
      | envelope env' origin' =>
          obtain ⟨rfl, rfl⟩ := Prod.mk.inj (Prod.mk.inj (Option.some.inj h)).1
          obtain rfl := (Prod.mk.inj (Option.some.inj h)).2
          exact ⟨rfl, rfl, rfl⟩

theorem enclose_held (types : Types T α) {from_ to_ : type_id_t} {object new left : Object T α}
    (h : object.enclose types from_ to_ = some (new, left)) :
    new.held types = object.held types ∧ left.held types = [] := by
  cases object with
  | ptr msg =>
      obtain ⟨rfl, rfl⟩ := Prod.mk.inj (Option.some.inj h)
      exact ⟨rfl, rfl⟩
  | envelope | to_fire => exact nomatch h

theorem giveAt_append (envs rest : List (Envelope (Payload T α))) (env : Envelope (Payload T α)) :
    Object.giveAt rest.length (envs ++ env :: rest) = envs ++ env.husk :: rest := by
  induction envs with
  | nil => simp only [List.nil_append, Object.giveAt, ite_true]
  | cons first envs ih =>
      have hne : ¬(envs ++ env :: rest).length = rest.length := by
        simp only [List.length_append, List.length_cons]
        omega
      simp only [List.cons_append, Object.giveAt, hne, ite_false, ih]

theorem sound_move {object new left : Object T α} (h : object.move = some (new, left))
    (hs : object.Sound) : new.Sound ∧ left.Sound := by
  cases object with
  | ptr msg =>
      obtain ⟨rfl, rfl⟩ := Prod.mk.inj (Option.some.inj h)
      exact ⟨trivial, trivial⟩
  | envelope env origin =>
      obtain ⟨rfl, rfl⟩ := Prod.mk.inj (Option.some.inj h)
      exact ⟨hs, iff_of_false nofun nofun⟩
  | to_fire envs => exact nomatch h

theorem sound_assign [DecidableEq T] {types : Types T α} {self other new left : Object T α}
    {released : List (Block T α)} (h : self.assign types other = some ((new, left), released))
    (hs : other.Sound) : new.Sound ∧ left.Sound := by
  cases self with
  | to_fire => exact nomatch h
  | ptr msg =>
      cases other with
      | envelope | to_fire => exact nomatch h
      | ptr msg' =>
          simp only [Object.assign] at h
          split_ifs at h
          obtain ⟨rfl, rfl⟩ := Prod.mk.inj (Prod.mk.inj (Option.some.inj h)).1
          exact ⟨trivial, trivial⟩
  | envelope env origin =>
      cases other with
      | ptr | to_fire => exact nomatch h
      | envelope env' origin' =>
          obtain ⟨rfl, rfl⟩ := Prod.mk.inj (Prod.mk.inj (Option.some.inj h)).1
          exact ⟨hs, iff_of_false nofun nofun⟩

theorem sound_enclose {types : Types T α} {from_ to_ : type_id_t} {object new left : Object T α}
    (h : object.enclose types from_ to_ = some (new, left)) : new.Sound ∧ left.Sound := by
  cases object with
  | envelope | to_fire => exact nomatch h
  | ptr msg =>
      obtain ⟨rfl, rfl⟩ := Prod.mk.inj (Option.some.inj h)
      refine ⟨?_, trivial⟩
      cases hptr : msg.ptr_ with
      | none => simp [Object.Sound, Envelope.construct, Envelope.full, hptr]
      | some ptr => simp [Object.Sound, Envelope.construct, Envelope.full, hptr]

theorem sound_give (left : Nat) {object : Object T α} (hs : object.Sound) :
    (object.give left).Sound := by
  cases object with
  | ptr | to_fire => exact trivial
  | envelope env origin => exact iff_of_false nofun nofun

end Messaging

end CortexFlow
