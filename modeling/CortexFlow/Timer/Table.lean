import CortexFlow.Core
import CortexFlow.Lib.Handle
import CortexFlow.Lib.Machine
import Mathlib

namespace CortexFlow

namespace Timer

-- What happens to a timer service. Objects of class `Timer` live at addresses
-- `ι`, and `φ` tells apart the calls of `fire_due` that are under way.
inductive Event (π ι φ : Type*)
  | tick (now : Int)
  | bind_post
  | clear
  | arm (dst : ι) (delay : Int) (env : Envelope π) (owner_name type_name : String)
  | handle (op : Lib.Handle.Op ι)
  -- `fire_due` takes the lock and collects, then posts what it collected.
  | fire_due (call : φ)
  | post (call : φ)

structure Armed (π : Type*) where
  id : Nat
  due : Int
  envelope : Envelope π

-- The timers armed and not yet fired, cancelled or cleared. `issued` holds the
-- ids of all timers there have been.
structure Table (π ι φ : Type*) where
  now : Int
  bound : Bool
  armed : Set (Armed π)
  issued : Set Nat
  holders : Lib.Handle.Store ι Nat
  firing : φ → List (Armed π)
  posted : List (φ × Armed π)

namespace Table

open Lib

variable {π ι φ : Type*} [DecidableEq ι] [DecidableEq φ]

def init : Table π ι φ := ⟨0, false, ∅, ∅, fun _ => none, fun _ => [], []⟩

inductive Next : Table π ι φ → Event π ι φ → Table π ι φ → Prop
  | tick (t : Table π ι φ) (now : Int) : t.now ≤ now → Next t (.tick now) { t with now := now }
  | bind_post (t : Table π ι φ) : Next t .bind_post { t with bound := true }
  | clear (t : Table π ι φ) : Next t .clear { t with armed := ∅, bound := false }
  -- A timer gets an id that no timer had before.
  | arm (t : Table π ι φ) (dst : ι) (delay : Int) (env : Envelope π)
      (owner_name type_name : String) (id : Nat) (holders : Handle.Store ι Nat) :
      id ∉ t.issued → t.holders.adopt dst id = some holders →
      Next t (.arm dst delay env owner_name type_name)
        { t with
          armed := insert ⟨id, t.now + delay, env⟩ t.armed
          issued := insert id t.issued
          holders := holders }
  -- Only the timer whose handle let go of it leaves the table.
  | handle (t : Table π ι φ) (op : Handle.Op ι) (holders : Handle.Store ι Nat)
      (released : Option Nat) :
      t.holders.apply op = some (holders, released) →
      Next t (.handle op)
        { t with
          armed := {a | a ∈ t.armed ∧ released ≠ some a.id}
          holders := holders }
  -- All timers that are due leave the table together, and the call is to post
  -- these and no others, each once, in the order they fell due.
  | fire_due (t : Table π ι φ) (call : φ) (due : List (Armed π)) :
      t.firing call = [] → due.Nodup → due.Pairwise (fun a b => a.due ≤ b.due) →
      (∀ a, a ∈ due ↔ a ∈ t.armed ∧ a.due ≤ t.now) →
      Next t (.fire_due call)
        { t with
          armed := {a | a ∈ t.armed ∧ t.now < a.due}
          firing := Function.update t.firing call due }
  | post (t : Table π ι φ) (call : φ) (a : Armed π) (rest : List (Armed π)) :
      t.firing call = a :: rest →
      Next t (.post call)
        { t with
          firing := Function.update t.firing call rest
          posted := t.posted ++ [(call, a)] }

-- Ids tell the armed timers apart, and none of them is still to be issued.
structure Distinct (t : Table π ι φ) : Prop where
  unique : Set.InjOn Armed.id t.armed
  issued : ∀ a ∈ t.armed, a.id ∈ t.issued

omit [DecidableEq ι] [DecidableEq φ] in
theorem distinct_init : (init : Table π ι φ).Distinct :=
  ⟨by simp [init], by simp [init]⟩

theorem next_distinct {t u : Table π ι φ} {event : Event π ι φ} (h : Next t event u)
    (ht : t.Distinct) : u.Distinct := by
  have hsub {armed : Set (Armed π)} (hs : armed ⊆ t.armed) :
      Set.InjOn Armed.id armed ∧ ∀ a ∈ armed, a.id ∈ t.issued :=
    ⟨ht.unique.mono hs, fun a ha => ht.issued a (hs ha)⟩
  cases h with
  | tick | bind_post | post => exact ⟨ht.unique, ht.issued⟩
  | clear => exact ⟨by simp, by simp⟩
  | arm dst delay env owner_name type_name id holders hid =>
      refine ⟨?_, fun a ha => ?_⟩
      · refine (Set.injOn_insert fun ha => hid (ht.issued _ ha)).mpr ⟨ht.unique, fun hm => ?_⟩
        obtain ⟨a, ha, he⟩ := hm
        have he : a.id = id := he
        exact hid (he ▸ ht.issued a ha)
      · cases ha with
        | inl ha => exact Or.inl (congrArg Armed.id ha)
        | inr ha => exact Or.inr (ht.issued a ha)
  | handle op holders released => exact ⟨(hsub fun a ha => ha.1).1, (hsub fun a ha => ha.1).2⟩
  | fire_due call due => exact ⟨(hsub fun a ha => ha.1).1, (hsub fun a ha => ha.1).2⟩

-- A timer that has left the table does not come back.
theorem next_retired {t u : Table π ι φ} {event : Event π ι φ} (h : Next t event u) {id : Nat}
    (hi : id ∈ t.issued) (hn : ∀ a ∈ t.armed, a.id ≠ id) :
    id ∈ u.issued ∧ ∀ a ∈ u.armed, a.id ≠ id := by
  cases h with
  | tick | bind_post | post => exact ⟨hi, hn⟩
  | clear => exact ⟨hi, by simp⟩
  | arm dst delay env owner_name type_name fresh holders hf =>
      refine ⟨Or.inr hi, fun a ha => ?_⟩
      cases ha with
      | inl ha =>
          intro he
          have hid : a.id = fresh := congrArg Armed.id ha
          exact hf (hid ▸ he ▸ hi)
      | inr ha => exact hn a ha
  | handle op holders released => exact ⟨hi, fun a ha => hn a ha.1⟩
  | fire_due call due => exact ⟨hi, fun a ha => hn a ha.1⟩

theorem steps_distinct {t u : Table π ι φ} {events : List (Event π ι φ)}
    (h : Machine.Steps Next t events u) (ht : t.Distinct) : u.Distinct := by
  induction h with
  | nil => exact ht
  | cons hn _ ih => exact ih (next_distinct hn ht)

theorem steps_retired {t u : Table π ι φ} {events : List (Event π ι φ)}
    (h : Machine.Steps Next t events u) {id : Nat} (hi : id ∈ t.issued)
    (hn : ∀ a ∈ t.armed, a.id ≠ id) : id ∈ u.issued ∧ ∀ a ∈ u.armed, a.id ≠ id := by
  induction h with
  | nil => exact ⟨hi, hn⟩
  | cons hs _ ih =>
      obtain ⟨hi, hn⟩ := next_retired hs hi hn
      exact ih hi hn

end Table

end Timer

end CortexFlow
