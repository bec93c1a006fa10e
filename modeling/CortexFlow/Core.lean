import Mathlib

namespace CortexFlow

-- Module and message types are told apart by a 64-bit id.
abbrev type_id_t := UInt64

def kNoSender : type_id_t := 0

def kSystemSender : type_id_t := ~~~0

-- `π` is the type of message payloads.
structure Envelope (π : Type*) where
  from_ : type_id_t
  to_ : type_id_t
  type_id_ : type_id_t
  payload_ : π
deriving DecidableEq

inductive TraceLevel
  | Off
  | Error
  | Warn
  | Info
  | Dispatch
  | Full
deriving DecidableEq

-- One call of the trace sink.
structure TraceRecord where
  level : TraceLevel
  kind : String
  sender : String
  target : String
  type_name : String
  message : String
deriving DecidableEq

-- What a call came to: it returned a value, or an assertion failed. Either way
-- `state` is what the call had made of the object by then.
inductive Outcome (σ α : Type*)
  | ok (state : σ) (value : α)
  | fault (state : σ) (reason : String)
deriving DecidableEq

-- `Clock::duration` counts nanoseconds in a signed 64-bit integer.
def Representable (ticks : Int) : Prop := -2 ^ 63 ≤ ticks ∧ ticks < 2 ^ 63

instance (ticks : Int) : Decidable (Representable ticks) := instDecidableAnd

-- The value a 64-bit duration holds after arithmetic that came to `ticks`.
def wrapTicks (ticks : Int) : Int := ticks.bmod (2 ^ 64)

theorem wrapTicks_of_representable {ticks : Int} (h : Representable ticks) :
    wrapTicks ticks = ticks := by
  obtain ⟨hl, hu⟩ := h
  exact Int.bmod_eq_of_le (by omega) (by omega)

theorem representable_wrapTicks (ticks : Int) : Representable (wrapTicks ticks) := by
  have hl := Int.le_bmod (x := ticks) (m := 2 ^ 64) (by omega)
  have hu := Int.bmod_lt (x := ticks) (m := 2 ^ 64) (by omega)
  unfold Representable wrapTicks
  omega

end CortexFlow
