import CortexFlow.Timer.Service
import CortexFlow.Lib.Machine
import Mathlib

namespace CortexFlow

open Lib

-- The functions the framework installs on a clock.
inductive AdvanceHandler
  | fire_due_trampoline
deriving DecidableEq

-- `κ` is the type of object addresses.
structure ManualClock (κ : Type*) where
  now_ : Int
  advance_handler_ : Option AdvanceHandler
  advance_ctx_ : Option κ

namespace ManualClock

variable {κ : Type*}

def init (initial : Int) : ManualClock κ := ⟨initial, none, none⟩

def install_advance_handler (clock : ManualClock κ) (fn : AdvanceHandler) (ctx : κ) :
    ManualClock κ :=
  { clock with advance_handler_ := some fn, advance_ctx_ := some ctx }

-- Returns the call of the installed handler, if there is one.
def advance (clock : ManualClock κ) (delta : Int) :
    Outcome (ManualClock κ) (Option (AdvanceHandler × Option κ)) :=
  if delta < 0 then .fault clock "ManualClock::advance called with negative duration"
  else
    .ok { clock with now_ := wrapTicks (clock.now_ + delta) }
      (clock.advance_handler_.map fun fn => (fn, clock.advance_ctx_))

end ManualClock

-- One clock and the timer services constructed on it: `services` holds those
-- whose lifetime has begun and not ended, by address.
structure Bench (π κ : Type*) where
  clock : ManualClock κ
  services : κ → Option (TimerService π)
  posted : List (κ × TimerService.FiringRecord π)

namespace Bench

variable {π κ : Type*}

-- The calls a runtime, its modules and its handles make on a live service.
inductive Op (π : Type*)
  | bind_post
  | arm (delay : Int) (env : Envelope π) (owner_name type_name : String)
  | cancel_by_seq (seq : Nat)
  | fire_due
  | clear

-- `construct` and `destroy` are those of a `TimerService`, which is a member of
-- its `Runtime`.
inductive Event (π κ : Type*)
  | construct (this : κ)
  | destroy (this : κ)
  | call (this : κ) (op : Op π)
  | advance (delta : Int)

def init (initial : Int) : Bench π κ := ⟨.init initial, fun _ => none, []⟩

def Alive (s : Bench π κ) (this : κ) : Prop := (s.services this).isSome

instance (s : Bench π κ) (this : κ) : Decidable (s.Alive this) :=
  inferInstanceAs (Decidable ((s.services this).isSome = true))

-- The objects that `advance(delta)` calls `fire_due` on.
def calls (s : Bench π κ) (delta : Int) : List (Option κ) :=
  match s.clock.advance delta with
  | .fault _ _ => []
  | .ok _ none => []
  | .ok _ (some (.fire_due_trampoline, ctx)) => [ctx]

variable [DecidableEq κ]

def apply (s : Bench π κ) (this : κ) (service : TimerService π) : Op π → Option (Bench π κ)
  | .bind_post => some { s with services := Function.update s.services this service.bind_post }
  | .arm delay env owner_name type_name =>
      match service.arm s.clock.now_ delay env owner_name type_name with
      | .fault _ _ => none
      | .ok service _ =>
          some { s with services := Function.update s.services this service }
  | .cancel_by_seq seq =>
      some { s with services := Function.update s.services this (service.cancel_by_seq seq).1 }
  | .fire_due =>
      match service.fire_due s.clock.now_ with
      | .fault _ _ => none
      | .ok service to_fire =>
          some { s with
            services := Function.update s.services this service
            posted := s.posted ++ to_fire.map (this, ·) }
  | .clear => some { s with services := Function.update s.services this service.clear }

-- A failed assertion ends the program, and a call on a destroyed object has no
-- meaning: neither is a step.
def step (s : Bench π κ) : Event π κ → Option (Bench π κ)
  | .construct this =>
      match s.services this with
      | some _ => none
      | none =>
          some { s with
            clock := s.clock.install_advance_handler .fire_due_trampoline this
            services := Function.update s.services this (TimerService.init : TimerService π) }
  | .destroy this =>
      (s.services this).map fun _ => { s with services := Function.update s.services this none }
  | .call this op => (s.services this).bind fun service => s.apply this service op
  | .advance delta =>
      match s.clock.advance delta with
      | .fault _ _ => none
      | .ok clock none => some { s with clock := clock }
      | .ok _ (some (.fire_due_trampoline, none)) => none
      | .ok clock (some (.fire_due_trampoline, some this)) =>
          (s.services this).bind fun service =>
            apply { s with clock := clock } this service .fire_due

def machine (π κ : Type*) [DecidableEq κ] (initial : Int) : Machine (Bench π κ) (Event π κ) where
  init := init initial
  step := step

-- `advance(delta)` calls `fire_due` on the live services and on nothing else, and
-- what is due in a live service comes out.
structure Drives (s : Bench π κ) (delta : Int) : Prop where
  live : ∀ this, s.Alive this → some this ∈ s.calls delta
  only : ∀ ctx ∈ s.calls delta, ∃ this, ctx = some this ∧ s.Alive this
  fires : ∀ t, s.step (.advance delta) = some t → ∀ this service,
    s.services this = some service → ∃ next to_fire,
      service.fire_due t.clock.now_ = .ok next to_fire ∧ t.services this = some next ∧
        ∀ rec ∈ to_fire, (this, rec) ∈ t.posted

-- The service constructed last, whether it still exists or not.
def newest (last : Option κ) : Event π κ → Option κ
  | .construct this => some this
  | _ => last

def lastConstructed (history : List (Event π κ)) : Option κ := history.foldl newest none

-- The handler on the clock is the one this service installed.
structure Installed (clock : ManualClock κ) (last : Option κ) : Prop where
  fn : clock.advance_handler_ = last.map fun _ => .fire_due_trampoline
  ctx : clock.advance_ctx_ = last

theorem clock_apply {s t : Bench π κ} {this : κ} {service : TimerService π} {op : Op π}
    (hs : s.apply this service op = some t) : t.clock = s.clock := by
  cases op with
  | bind_post => exact Option.some.inj hs ▸ rfl
  | arm delay env owner_name type_name =>
      simp only [apply] at hs
      split at hs
      · exact nomatch hs
      · exact Option.some.inj hs ▸ rfl
  | cancel_by_seq seq => exact Option.some.inj hs ▸ rfl
  | fire_due =>
      simp only [apply] at hs
      split at hs
      · exact nomatch hs
      · exact Option.some.inj hs ▸ rfl
  | clear => exact Option.some.inj hs ▸ rfl

-- What a step of `advance` is: the clock moves on and the installed service, if
-- any, fires at the new time.
theorem advance_cases {s t : Bench π κ} {delta : Int} (hs : s.step (.advance delta) = some t) :
    ∃ clock, clock = { s.clock with now_ := wrapTicks (s.clock.now_ + delta) } ∧
      (s.calls delta = [] ∧ t = { s with clock := clock } ∨
        ∃ this service, s.calls delta = [some this] ∧ s.services this = some service ∧
          apply { s with clock := clock } this service .fire_due = some t) := by
  refine ⟨_, rfl, ?_⟩
  simp only [step, calls, ManualClock.advance] at hs ⊢
  split_ifs at hs ⊢
  cases hfn : s.clock.advance_handler_ with
  | none =>
      simp only [hfn, Option.map_none] at hs
      exact Or.inl ⟨rfl, (Option.some.inj hs).symm⟩
  | some fn =>
      cases fn
      cases hctx : s.clock.advance_ctx_ with
      | none => simp only [hfn, hctx, Option.map_some, reduceCtorEq] at hs
      | some this =>
          simp only [hfn, hctx, Option.map_some] at hs
          obtain ⟨service, hservice, happly⟩ := Option.bind_eq_some_iff.mp hs
          exact Or.inr ⟨this, service, rfl, hservice, hctx ▸ happly⟩

theorem installed_step {s t : Bench π κ} {last : Option κ} {event : Event π κ}
    (h : Installed s.clock last) (hs : s.step event = some t) :
    Installed t.clock (newest last event) := by
  cases event with
  | construct this =>
      simp only [step] at hs
      split at hs
      · exact nomatch hs
      · obtain rfl := Option.some.inj hs
        exact ⟨rfl, rfl⟩
  | destroy this =>
      obtain ⟨_, _, rfl⟩ := Option.map_eq_some_iff.mp hs
      exact h
  | call this op =>
      obtain ⟨service, _, happly⟩ := Option.bind_eq_some_iff.mp hs
      rw [clock_apply happly]
      exact h
  | advance delta =>
      obtain ⟨clock, rfl, ⟨_, rfl⟩ | ⟨this, service, _, _, happly⟩⟩ := advance_cases hs
      · exact ⟨h.fn, h.ctx⟩
      · rw [clock_apply happly]
        exact ⟨h.fn, h.ctx⟩

theorem installed_run {s t : Bench π κ} {last : Option κ} {history : List (Event π κ)}
    {initial : Int} (h : Installed s.clock last)
    (hr : (machine π κ initial).run s history = some t) :
    Installed t.clock (history.foldl newest last) := by
  induction history generalizing s last with
  | nil => exact Option.some.inj hr ▸ h
  | cons event rest ih =>
      obtain ⟨next, hn, hrest⟩ := Machine.run_cons_some hr
      exact ih (installed_step h hn) hrest

omit [DecidableEq κ] in
theorem calls_of_installed {s : Bench π κ} {last : Option κ} (h : Installed s.clock last)
    {delta : Int} (hd : 0 ≤ delta) : s.calls delta = (last.map some).toList := by
  have hneg : ¬delta < 0 := by omega
  simp only [calls, ManualClock.advance, if_neg hneg, h.fn, h.ctx]
  cases last <;> rfl

theorem fires_of_called {s t : Bench π κ} {delta : Int} (hs : s.step (.advance delta) = some t)
    {this : κ} {service : TimerService π} (hservice : s.services this = some service)
    (hcall : some this ∈ s.calls delta) :
    ∃ next to_fire, service.fire_due t.clock.now_ = .ok next to_fire ∧
      t.services this = some next ∧ ∀ rec ∈ to_fire, (this, rec) ∈ t.posted := by
  obtain ⟨clock, rfl, ⟨hnone, _⟩ | ⟨other, found, hone, hfound, happly⟩⟩ := advance_cases hs
  · rw [hnone] at hcall
    exact absurd hcall List.not_mem_nil
  · rw [hone] at hcall
    obtain rfl : this = other := Option.some.inj (List.mem_singleton.mp hcall)
    obtain rfl := Option.some.inj (hfound.symm.trans hservice)
    rw [clock_apply happly]
    simp only [apply] at happly
    split at happly
    · exact nomatch happly
    · rename_i next to_fire hfire
      obtain rfl := Option.some.inj happly
      refine ⟨next, to_fire, hfire, Function.update_self .., fun rec hrec => ?_⟩
      exact List.mem_append_right _ (List.mem_map.mpr ⟨rec, hrec, rfl⟩)

-- `advance` drives the live services exactly as long as the service constructed
-- last is the only one alive, or none was ever constructed.
theorem drives_iff {initial : Int} {history : List (Event π κ)} {s : Bench π κ}
    (hr : (machine π κ initial).run (init initial) history = some s) {delta : Int}
    (hd : 0 ≤ delta) :
    s.Drives delta ↔ ∀ this, s.Alive this ↔ lastConstructed history = some this := by
  have hinit : Installed (init initial : Bench π κ).clock none := ⟨rfl, rfl⟩
  have hinstalled : Installed s.clock (lastConstructed history) := installed_run hinit hr
  have hcalls := calls_of_installed hinstalled hd
  have hmem (this : κ) : some this ∈ s.calls delta ↔ lastConstructed history = some this := by
    rw [hcalls, Option.mem_toList, Option.map_eq_some_iff]
    simp only [Option.some.injEq, exists_eq_right]
  constructor
  · intro h this
    constructor
    · intro halive
      exact (hmem this).mp (h.live this halive)
    · intro hlast
      obtain ⟨other, hother, halive⟩ := h.only _ ((hmem this).mpr hlast)
      exact Option.some.inj hother ▸ halive
  · intro h
    refine ⟨fun this halive => (hmem this).mpr ((h this).mp halive), fun ctx hctx => ?_,
      fun t ht this service hservice => ?_⟩
    · rw [hcalls, Option.mem_toList] at hctx
      obtain ⟨this, hlast, rfl⟩ := Option.map_eq_some_iff.mp hctx
      exact ⟨this, rfl, (h this).mpr hlast⟩
    · have halive : s.Alive this := by simp [Alive, hservice]
      exact fires_of_called ht hservice ((hmem this).mpr ((h this).mp halive))

-- One runtime after the other, the second with a timer that comes due.
def successors : List (Event Unit Bool) :=
  [.construct false, .destroy false, .construct true, .call true .bind_post,
    .call true (.arm 5 ⟨0, 1, 2, ()⟩ "M" "T")]

theorem drives_iff_successors :
    ∃ s : Bench Unit Bool, (machine Unit Bool 0).run (init 0) successors = some s ∧
      s.Drives 5 := by
  have hrun : ((machine Unit Bool 0).run (init 0) successors).isSome = true := by decide +kernel
  obtain ⟨s, hs⟩ := Option.isSome_iff_exists.mp hrun
  have halive : ((machine Unit Bool 0).run (init 0) successors).map
      (fun s => (decide (s.Alive false), decide (s.Alive true))) = some (false, true) := by
    decide +kernel
  rw [hs, Option.map_some, Option.some.injEq, Prod.mk.injEq] at halive
  refine ⟨s, hs, (drives_iff hs (by decide)).mpr fun this => ?_⟩
  cases this with
  | false => exact iff_of_false (of_decide_eq_false halive.1) (by decide)
  | true => exact iff_of_true (of_decide_eq_true halive.2) (by decide)

-- After the only runtime is gone, `advance` calls into it.
theorem not_always_drives :
    ¬∀ (initial : Int) (history : List (Event Unit Bool)) (s : Bench Unit Bool) (delta : Int),
      (machine Unit Bool initial).run (init initial) history = some s → 0 ≤ delta →
      s.Drives delta := by
  intro hall
  have hrun : ((machine Unit Bool 0).run (init 0) [.construct true, .destroy true]).isSome =
      true := by decide +kernel
  obtain ⟨s, hs⟩ := Option.isSome_iff_exists.mp hrun
  have hdead : ((machine Unit Bool 0).run (init 0) [.construct true, .destroy true]).map
      (fun s => (s.calls 1, decide (s.Alive true))) = some ([some true], false) := by
    decide +kernel
  rw [hs, Option.map_some, Option.some.injEq, Prod.mk.injEq] at hdead
  obtain ⟨this, hthis, halive⟩ := (hall 0 _ s 1 hs (by decide)).only (some true)
    (hdead.1 ▸ List.mem_singleton_self _)
  obtain rfl := Option.some.inj hthis
  exact absurd halive (of_decide_eq_false hdead.2)

end Bench

end CortexFlow
