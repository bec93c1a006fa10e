import CortexFlow.Flow.Basic
import CortexFlow.Lib.Slot

namespace CortexFlow

namespace Flow

open Lib

variable {S ε : Type*}

-- What happens to the buffer that holds the Locals.
def Effect.lifetime : Effect S ε → Option (Lifetime S)
  | .construct tag => some (.construct tag)
  | .destruct tag => some (.destruct tag)
  | _ => none

def lifetimes (effects : List (Effect S ε)) : List (Lifetime S) :=
  effects.filterMap Effect.lifetime

-- A state is only ever called while its own Locals are live and the context
-- points at them.
def Attended (effects : List (Effect S ε)) : Prop :=
  ∀ front tag locals_bound env back, effects = front ++ .handle tag locals_bound env :: back →
    locals_bound = true ∧ Disciplined (lifetimes front) (some tag)

-- The buffer has been used properly, and holds the Locals of `live`.
structure Kept (effects : List (Effect S ε)) (live : Option S) : Prop where
  disciplined : Disciplined (lifetimes effects) live
  attended : Attended effects

theorem lifetimes_concat (effects : List (Effect S ε)) (effect : Effect S ε) :
    lifetimes (effects ++ [effect]) = lifetimes effects ++ effect.lifetime.toList := by
  unfold lifetimes
  rw [List.filterMap_append]
  cases h : effect.lifetime <;> simp [h]

theorem attended_concat {effects : List (Effect S ε)} (h : Attended effects)
    (effect : Effect S ε)
    (he : ∀ tag locals_bound env, effect = .handle tag locals_bound env →
      locals_bound = true ∧ Disciplined (lifetimes effects) (some tag)) :
    Attended (effects ++ [effect]) := by
  intro front tag locals_bound env back hsplit
  cases List.eq_nil_or_concat back with
  | inl hback =>
      rw [hback] at hsplit
      obtain ⟨rfl, hlast⟩ := List.append_inj' hsplit rfl
      exact he tag locals_bound env (List.cons.inj hlast).1
  | inr hback =>
      obtain ⟨init, last, rfl⟩ := hback
      rw [List.concat_eq_append, ← List.cons_append, ← List.append_assoc] at hsplit
      exact h front tag locals_bound env init (List.append_inj' hsplit rfl).1

theorem kept_nil : Kept ([] : List (Effect S ε)) none :=
  ⟨.nil, fun _ _ _ _ _ h => absurd h (by simp)⟩

theorem Kept.construct {effects : List (Effect S ε)} (h : Kept effects none) (tag : S) :
    Kept (effects ++ [.construct tag]) (some tag) := by
  refine ⟨?_, attended_concat h.attended _ nofun⟩
  rw [lifetimes_concat]
  exact h.disciplined.construct tag

theorem Kept.destruct {effects : List (Effect S ε)} {tag : S} (h : Kept effects (some tag)) :
    Kept (effects ++ [.destruct tag]) none := by
  refine ⟨?_, attended_concat h.attended _ nofun⟩
  rw [lifetimes_concat]
  exact h.disciplined.destruct tag

theorem Kept.handle {effects : List (Effect S ε)} {tag : S} (h : Kept effects (some tag))
    (env : ε) : Kept (effects ++ [.handle tag true env]) (some tag) := by
  refine ⟨?_, attended_concat h.attended _ fun other locals_bound env' he => ?_⟩
  · rw [lifetimes_concat]
    exact (List.append_nil (lifetimes effects)).symm ▸ h.disciplined
  · cases he
    exact ⟨rfl, h.disciplined⟩

theorem Kept.aside {effects : List (Effect S ε)} {live : Option S} (h : Kept effects live)
    (effect : Effect S ε) (hl : effect.lifetime = none)
    (hh : ∀ tag locals_bound env, effect ≠ .handle tag locals_bound env) :
    Kept (effects ++ [effect]) live := by
  refine ⟨?_, attended_concat h.attended _ fun tag locals_bound env he => absurd he (hh _ _ _)⟩
  rw [lifetimes_concat, hl]
  exact (List.append_nil (lifetimes effects)).symm ▸ h.disciplined

namespace Run

-- Whose Locals the buffer holds: those of the current state of an active flow.
def live (s : Run S ε) : Option S := if s.active_ && !s.destroyed then some s.current_ else none

-- While `step` is under way a state is running, innermost of all calls; the
-- others are calls of `on_flow_done`.
def Nested (s : Run S ε) : Prop :=
  if s.in_step_ then
    ∃ env rest, s.stack = .handling env :: rest ∧ ∀ frame ∈ rest, frame = .flow_done
  else ∀ frame ∈ s.stack, frame = .flow_done

structure Invariant (s : Run S ε) : Prop where
  kept : Kept s.effects s.live
  bound : s.locals_bound = s.active_
  active : s.in_step_ = true → s.active_ = true
  nested : s.Nested
  quiet : s.destroyed = true → s.in_step_ = false

theorem live_active {s : Run S ε} (ha : s.active_ = true) (hd : s.destroyed = false) :
    s.live = some s.current_ := by
  simp [live, ha, hd]

theorem live_inactive {s : Run S ε} (ha : s.active_ = false) : s.live = none := by
  simp [live, ha]

theorem nested_idle {s : Run S ε} (hi : s.in_step_ = false) :
    s.Nested ↔ ∀ frame ∈ s.stack, frame = .flow_done := by
  simp [Nested, hi]

theorem nested_running {s : Run S ε} (hi : s.in_step_ = true) :
    s.Nested ↔
      ∃ env rest, s.stack = .handling env :: rest ∧ ∀ frame ∈ rest, frame = .flow_done := by
  simp [Nested, hi]

theorem Invariant.idle {s : Run S ε} (h : s.Invariant) (ha : s.active_ = false) :
    s.in_step_ = false := by
  cases hi : s.in_step_ with
  | false => rfl
  | true => exact absurd (ha.symm.trans (h.active hi)) Bool.false_ne_true

theorem invariant_init (params : Params S ε) : (init params).Invariant where
  kept := kept_nil
  bound := rfl
  active := nofun
  nested := (nested_idle rfl).mpr nofun
  quiet := fun _ => rfl

-- The states a loop round can start from: a state has just returned.
structure Returned (s : Run S ε) : Prop where
  kept : Kept s.effects (some s.current_)
  bound : s.locals_bound = true
  active : s.active_ = true
  in_step : s.in_step_ = true
  stack : ∀ frame ∈ s.stack, frame = .flow_done
  alive : s.destroyed = false

theorem Returned.change {s : Run S ε} (h : s.Returned) (params : Params S ε) (next : S) :
    (s.change params next).Returned where
  kept := ((h.kept.aside _ rfl fun _ _ _ => by simp).destruct).construct next
  bound := rfl
  active := h.active
  in_step := h.in_step
  stack := h.stack
  alive := h.alive

theorem Returned.exit {s : Run S ε} (h : s.Returned) :
    Invariant { s with in_step_ := false } where
  kept := live_active (s := { s with in_step_ := false }) h.active h.alive ▸ h.kept
  bound := h.bound.trans h.active.symm
  active := nofun
  nested := (nested_idle rfl).mpr h.stack
  quiet := fun _ => rfl

theorem Returned.invoke {s : Run S ε} (h : s.Returned) (env : ε) : (s.invoke env).Invariant where
  kept := by
    rw [live_active (s := s.invoke env) h.active h.alive]
    simp only [Run.invoke, emit, h.bound]
    exact h.kept.handle env
  bound := h.bound.trans h.active.symm
  active := fun _ => h.active
  nested := (nested_running (s := s.invoke env) h.in_step).mpr ⟨env, s.stack, rfl, h.stack⟩
  quiet := fun hd => absurd (h.alive.symm.trans hd) Bool.false_ne_true

theorem Returned.finish {s : Run S ε} (h : s.Returned) :
    Invariant { { s.leave with in_step_ := false }.emit .on_flow_done with
      stack := .flow_done :: s.stack } where
  kept := (h.kept.destruct).aside _ rfl fun _ _ _ => by simp
  bound := rfl
  active := nofun
  nested := (nested_idle rfl).mpr (List.forall_mem_cons.mpr ⟨rfl, h.stack⟩)
  quiet := fun _ => rfl

theorem step_invariant {s s' : Run S ε} {env : ε} (h : s.Invariant) (hd : s.destroyed = false)
    (hs : s.step env = .ok s' ()) : s'.Invariant := by
  unfold step at hs
  split_ifs at hs with ha hi
  simp only [Outcome.ok.injEq, and_true] at hs
  have hactive : s.active_ = true := by simpa using ha
  have hidle : s.in_step_ = false := by simpa using hi
  have hready : Returned { s with in_step_ := true } :=
    ⟨live_active hactive hd ▸ h.kept, h.bound.trans hactive, hactive, rfl,
      (nested_idle hidle).mp h.nested, hd⟩
  exact hs ▸ hready.invoke env

theorem leave_invariant {s : Run S ε} (h : s.Invariant) (ha : s.active_ = true)
    (hd : s.destroyed = false) (hi : s.in_step_ = false) :
    s.leave.Invariant ∧ s.leave.active_ = false ∧ s.leave.destroyed = false := by
  have hkept := h.kept
  rw [live_active ha hd] at hkept
  refine ⟨⟨hkept.destruct, rfl, fun he => ?_, ?_, fun _ => hi⟩, rfl, hd⟩
  · exact absurd (hi.symm.trans he) Bool.false_ne_true
  · exact (nested_idle (s := s.leave) hi).mpr ((nested_idle hi).mp h.nested)

theorem enter_initial_invariant {s s' : Run S ε} {params : Params S ε} (h : s.Invariant)
    (ha : s.active_ = false) (hd : s.destroyed = false)
    (hs : s.enter_initial_ params = .ok s' ()) : s'.Invariant := by
  have hi := h.idle ha
  have hkept := h.kept
  rw [live_inactive ha] at hkept
  unfold enter_initial_ at hs
  refine step_invariant (s := { s with active_ := true }.enter params.initial_)
    ⟨?_, rfl, fun _ => rfl, ?_, fun _ => hi⟩ hd hs
  · exact live_active (s := { s with active_ := true }.enter params.initial_) rfl hd ▸
      hkept.construct params.initial_
  · exact (nested_idle hi).mpr ((nested_idle hi).mp h.nested)

theorem start_invariant {s s' : Run S ε} {params : Params S ε} (h : s.Invariant)
    (hd : s.destroyed = false) (hs : s.start params = .ok s' ()) : s'.Invariant := by
  unfold start at hs
  split_ifs at hs with ha
  have hbind : Invariant { s with owner_bound := true } :=
    ⟨h.kept, h.bound, h.active, h.nested, h.quiet⟩
  exact enter_initial_invariant hbind (by simpa using ha) hd hs

theorem terminate_invariant {s s' : Run S ε} (h : s.Invariant) (hd : s.destroyed = false)
    (hs : s.terminate = .ok s' ()) : s'.Invariant := by
  unfold terminate at hs
  split_ifs at hs with hi <;> simp only [Outcome.ok.injEq, and_true] at hs <;> subst hs
  · exact (leave_invariant h ‹_› hd (by simpa using hi)).1
  · exact h

theorem restart_invariant {s s' : Run S ε} {params : Params S ε} (h : s.Invariant)
    (hd : s.destroyed = false) (hs : s.restart params = .ok s' ()) : s'.Invariant := by
  unfold restart at hs
  split_ifs at hs with hi ho ha
  · obtain ⟨hl, hla, hld⟩ := leave_invariant h ha hd (by simpa using hi)
    exact enter_initial_invariant hl hla hld hs
  · exact enter_initial_invariant h (by simpa using ha) hd hs

theorem resume_invariant {s s' : Run S ε} {params : Params S ε} {env : ε} {dir : StateDirective S}
    (h : s.Returned) (hs : s.resume params env dir = .ok s' ()) : s'.Invariant := by
  unfold resume at hs
  split at hs
  · simp only [Outcome.ok.injEq, and_true] at hs
    exact hs ▸ h.exit
  · split at hs <;> simp only [reduceCtorEq, Outcome.ok.injEq, and_true] at hs
    exact hs ▸ (h.change params _).exit
  · split at hs <;> simp only [reduceCtorEq, Outcome.ok.injEq, and_true] at hs
    exact hs ▸ (h.change params _).invoke env
  · simp only at hs
    split_ifs at hs
    simp only [Outcome.ok.injEq, and_true] at hs
    exact hs ▸ h.finish

theorem Invariant.returned {s : Run S ε} (h : s.Invariant) (hd : s.destroyed = false) {env : ε}
    {stack : List (Frame ε)} (hs : s.stack = .handling env :: stack) :
    Returned { s with stack := stack } := by
  cases hi : s.in_step_ with
  | false =>
      have hdone := (nested_idle hi).mp h.nested (.handling env) (by simp [hs])
      exact nomatch hdone
  | true =>
      obtain ⟨env', rest, hstack, hrest⟩ := (nested_running hi).mp h.nested
      obtain ⟨_, rfl⟩ := List.cons.inj (hs.symm.trans hstack)
      have ha := h.active hi
      exact ⟨live_active ha hd ▸ h.kept, h.bound.trans ha, ha, rfl, hrest, hd⟩

theorem Invariant.done_returned {s : Run S ε} (h : s.Invariant) {stack : List (Frame ε)}
    (hs : s.stack = .flow_done :: stack) : Invariant { s with stack := stack } := by
  have hi : s.in_step_ = false := by
    cases hi : s.in_step_ with
    | false => rfl
    | true =>
        obtain ⟨env, rest, hstack, _⟩ := (nested_running hi).mp h.nested
        exact nomatch (List.cons.inj (hs.symm.trans hstack)).1
  have hall := (nested_idle hi).mp h.nested
  rw [hs] at hall
  exact ⟨h.kept, h.bound, h.active,
    (nested_idle (s := { s with stack := stack }) hi).mpr (List.forall_mem_cons.mp hall).2,
    h.quiet⟩

theorem Invariant.destroyed {s : Run S ε} (h : s.Invariant) (hd : s.destroyed = false)
    (hs : s.stack = []) :
    Invariant { (if s.active_ then s.emit (.destruct s.current_) else s) with
      destroyed := true } := by
  have hi : s.in_step_ = false := by
    cases hi : s.in_step_ with
    | false => rfl
    | true =>
        obtain ⟨env, rest, hstack, _⟩ := (nested_running hi).mp h.nested
        exact nomatch hs.symm.trans hstack
  have hkept := h.kept
  have hall := (nested_idle hi).mp h.nested
  cases ha : s.active_ with
  | true =>
      rw [live_active ha hd] at hkept
      refine ⟨?_, h.bound, h.active, (nested_idle hi).mpr hall, fun _ => hi⟩
      simpa [live, emit] using hkept.destruct
  | false =>
      rw [live_inactive ha] at hkept
      refine ⟨?_, h.bound, h.active, (nested_idle hi).mpr hall, fun _ => hi⟩
      simpa [live] using hkept

theorem completed_eq_some {outcome : Outcome (Run S ε) Unit} {s : Run S ε}
    (h : completed outcome = some s) : outcome = .ok s () := by
  cases outcome with
  | ok => exact congrArg (Outcome.ok · ()) (Option.some.inj h)
  | fault => exact nomatch h

theorem next_invariant {params : Params S ε} {s s' : Run S ε} {event : Event S ε}
    (h : s.Invariant) (hs : next params s event = some s') : s'.Invariant := by
  unfold next at hs
  have hd : s.destroyed = false := by
    by_contra hdestroyed
    simp [hdestroyed] at hs
  rw [if_neg (by simp [hd])] at hs
  cases event with
  | start => exact start_invariant h hd (completed_eq_some hs)
  | step env => exact step_invariant h hd (completed_eq_some hs)
  | terminate => exact terminate_invariant h hd (completed_eq_some hs)
  | restart => exact restart_invariant h hd (completed_eq_some hs)
  | returns dir =>
      simp only at hs
      split at hs
      · rename_i env stack hstack
        exact resume_invariant (h.returned hd hstack) (completed_eq_some hs)
      · exact nomatch hs
  | done_returns =>
      simp only at hs
      split at hs
      · rename_i stack hstack
        exact Option.some.inj hs ▸ h.done_returned hstack
      · exact nomatch hs
  | destroy =>
      cases hstack : s.stack with
      | nil =>
          simp only [hstack, List.isEmpty_nil, ite_true, Option.some.injEq] at hs
          exact hs ▸ h.destroyed hd hstack
      | cons => simp [hstack] at hs

theorem reachable_invariant {params : Params S ε} {s : Run S ε}
    (h : (machine params).Reachable s) : s.Invariant :=
  h.invariant (invariant_init params) fun _ _ _ hi hs => next_invariant hi hs

-- Locals are constructed and destructed in turn, an active flow holds those of
-- its current state and no other flow holds any, states only run with their own
-- Locals in the buffer, and a destroyed flow has destructed all it constructed.
theorem locals_discipline [DecidableEq S] {params : Params S ε} {s : Run S ε}
    (hr : (machine params).Reachable s) :
    (∃ tags, lifetimes s.effects = Disciplined.cycles tags ++
      if s.active_ && !s.destroyed then [.construct s.current_] else []) ∧
    (∀ front back, lifetimes s.effects = front ++ back → ∃ held, Disciplined front held) ∧
    Attended s.effects ∧
    (∀ env stack, s.stack = .handling env :: stack →
      s.locals_bound = true ∧ s.active_ = true ∧ s.destroyed = false) ∧
    (s.destroyed = true → ∀ tag,
      (lifetimes s.effects).count (.construct tag) =
        (lifetimes s.effects).count (.destruct tag)) := by
  have h := reachable_invariant hr
  have hdisciplined := h.kept.disciplined
  refine ⟨?_, fun front back hsplit => ?_, h.kept.attended, fun env stack hstack => ?_,
    fun hd tag => ?_⟩
  · obtain ⟨tags, htags⟩ := hdisciplined.alternates
    refine ⟨tags, htags.trans (congrArg _ ?_)⟩
    unfold live
    split_ifs <;> rfl
  · exact (hsplit ▸ hdisciplined).of_append
  · have hi : s.in_step_ = true := by
      by_contra hidle
      have hdone := (nested_idle (by simpa using hidle)).mp h.nested (.handling env)
        (by simp [hstack])
      exact nomatch hdone
    have hd : s.destroyed = false := by
      by_contra hd
      exact absurd (hi.symm.trans (h.quiet (by simpa using hd))) nofun
    exact ⟨h.bound.trans (h.active hi), h.active hi, hd⟩
  · have hnone : s.live = none := by simp [live, hd]
    exact (hnone ▸ hdisciplined).count_eq tag

-- Two states; the flow ends from within a step, is restarted from the callback,
-- and is terminated and destroyed at last.
def restartedRun : List (Event Bool Unit) :=
  [.start, .returns (transition_to_now true), .returns done, .restart, .returns stay,
    .done_returns, .step (), .returns (transition_to true), .terminate, .destroy]

theorem locals_discipline_restartedRun :
    ∃ s : Run Bool Unit, s.destroyed = true ∧
      lifetimes s.effects = Disciplined.cycles [false, true, false, true] ∧
      .handle false true () ∈ s.effects ∧ .handle true true () ∈ s.effects ∧
      Attended s.effects := by
  let params : Params Bool Unit := ⟨false, "M", toString, ()⟩
  have hrun : ((machine params).run (init params) restartedRun).map
      (fun s => (s.destroyed, lifetimes s.effects,
        decide (.handle false true () ∈ s.effects ∧ .handle true true () ∈ s.effects))) =
      some (true, Disciplined.cycles [false, true, false, true], true) := by
    decide +kernel
  obtain ⟨s, hs, hp⟩ := Option.map_eq_some_iff.mp hrun
  obtain ⟨hd, hread⟩ := Prod.mk.inj hp
  obtain ⟨hl, hhandled⟩ := Prod.mk.inj hread
  obtain ⟨hfalse, htrue⟩ := of_decide_eq_true hhandled
  exact ⟨s, hd, hl, hfalse, htrue, (locals_discipline ⟨restartedRun, hs⟩).2.2.1⟩

end Run

end Flow

end CortexFlow
