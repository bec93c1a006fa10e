import Mathlib

namespace CortexFlow.Lib

-- An object by what its destructor releases: nothing; what a handle holds; its
-- members, in the order of their declaration; or what a buffer holds in which an
-- object is placed by hand, as long as the buffer is in use.
inductive Object (κ : Type*)
  | plain
  | handle (held : Option κ)
  | members (first rest : Object κ)
  | buffer (in_use : Bool) (content : Object κ)
deriving DecidableEq

namespace Object

variable {κ : Type*}

-- The calls of the destructor. Members are destructed in reverse order.
def destruct : Object κ → List κ
  | plain => []
  | handle held => held.toList
  | members first rest => rest.destruct ++ first.destruct
  | buffer in_use content => if in_use then content.destruct else []

-- What the handles in the object hold.
def Holds : Object κ → κ → Prop
  | plain, _ => False
  | handle held, k => held = some k
  | members first rest, k => first.Holds k ∨ rest.Holds k
  | buffer in_use content, k => in_use = true ∧ content.Holds k

instance decidableHolds [DecidableEq κ] : (object : Object κ) → (k : κ) →
    Decidable (object.Holds k)
  | plain, _ => isFalse id
  | handle held, k => inferInstanceAs (Decidable (held = some k))
  | members first rest, k =>
      have := decidableHolds first k
      have := decidableHolds rest k
      inferInstanceAs (Decidable (first.Holds k ∨ rest.Holds k))
  | buffer in_use content, k =>
      have := decidableHolds content k
      inferInstanceAs (Decidable (in_use = true ∧ content.Holds k))

-- The destructor releases what the object holds and nothing else.
theorem mem_destruct (object : Object κ) (k : κ) : k ∈ object.destruct ↔ object.Holds k := by
  induction object with
  | plain => exact List.mem_nil_iff k
  | handle held => exact Option.mem_toList
  | members first rest ihf ihr =>
      unfold destruct Holds
      rw [List.mem_append, ihf, ihr, or_comm]
  | buffer in_use content ih =>
      unfold destruct Holds
      cases in_use with
      | false => simp
      | true => simpa using ih

end Object

end CortexFlow.Lib
