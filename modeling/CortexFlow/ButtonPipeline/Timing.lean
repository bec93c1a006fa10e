import CortexFlow.ButtonPipeline.Pipeline

namespace CortexFlow

namespace ButtonPipeline

namespace Pipeline

variable {g : Pipeline}

theorem lapsed_of_le {place : Place} {start since now latter : Int}
    (h : place.Lapsed since now) (hs : start ≤ since) (hn : now ≤ latter) :
    place.Lapsed start latter := by
  unfold Place.Lapsed at *
  omega

-- The timer at the place has not been armed since before `start`, and its message
-- is on its way only if the delay has passed.
structure Since (g : Pipeline) (place : Place) (start : Int) : Prop where
  started : start ≤ g.now
  armed : ∀ since, g.timers place = some since → start ≤ since
  message : .expired place ∈ g.coming → place.Lapsed start g.now

theorem Since.post {place : Place} {start : Int} (h : g.Since place start) {signals : List Signal}
    (hs : .expired place ∉ signals) : (g.post signals).Since place start where
  started := h.started
  armed := h.armed
  message hm := by
    refine h.message ((List.mem_append.mp hm).resolve_right fun hnew => ?_)
    split at hnew
    · exact List.not_mem_nil hnew
    · exact hs hnew

theorem Since.move {place : Place} {start : Int} (h : g.Since place start)
    (next : Option ClickClassifier.State) : (g.move next).Since place start := by
  cases next with
  | none => exact h
  | some next =>
      refine ⟨h.started, fun since hs => ?_, h.message⟩
      simp only [Pipeline.move] at hs
      split_ifs at hs
      · obtain rfl := Option.some.inj hs
        exact h.started
      · exact h.armed since hs

theorem Since.take {place : Place} {start : Int} (h : g.Since place start) {signal : Signal}
    {rest : List Signal} (hc : g.coming = signal :: rest) :
    (g.take signal rest).Since place start :=
  ⟨h.started, h.armed, fun hm => h.message (hc ▸ List.mem_cons_of_mem _ hm)⟩

theorem Since.receive {place : Place} {start : Int} (h : g.Since place start) (signal : Signal) :
    (g.receive signal).Since place start := by
  have hsends (made : List Gesture) : Signal.expired place ∉ made.map Signal.gesture := by simp
  unfold Pipeline.receive
  split
  · split
    · refine ⟨h.started, fun since hs => ?_, h.message⟩
      by_cases hplace : place = .timer
      · simp only [hplace, Function.update_self, reduceCtorEq] at hs
      · exact h.armed since (by simpa [hplace] using hs)
    · exact h
  · exact ⟨h.started, h.armed, h.message⟩
  · exact (h.post (hsends _)).move _

theorem Since.sample {place : Place} {start : Int} (h : g.Since place start) (pressed : Bool) :
    (g.sample pressed).Since place start := by
  unfold Pipeline.sample
  split
  · have hnone : Signal.expired place ∉ [Signal.edge pressed] := fun hm =>
      nomatch List.mem_singleton.mp hm
    refine Since.post ?_ hnone
    refine ⟨h.started, fun since hs => ?_, h.message⟩
    by_cases hplace : place = .timer
    · simp only [hplace, Function.update_self] at hs
      obtain rfl := Option.some.inj hs
      exact h.started
    · exact h.armed since (by simpa [hplace] using hs)
  · exact h

theorem Since.step {place : Place} {start : Int} (h : g.Since place start) {next : Pipeline}
    (hs : Step g next) : next.Since place start := by
  cases hs with
  | tick now hle =>
      exact ⟨h.started.trans hle, h.armed, fun hm => lapsed_of_le (h.message hm) le_rfl hle⟩
  | rest hc => exact ⟨h.started, h.armed, h.message⟩
  | stop coming hc => exact ⟨h.started, h.armed, fun hm => h.message (hc.subset hm)⟩
  | fire fired hd hf hsince =>
      refine ⟨h.started, fun since hs => ?_, fun hm => ?_⟩
      · refine h.armed since ?_
        simp only [Pipeline.post] at hs
        split_ifs at hs
        exact hs
      · cases List.mem_append.mp hm with
        | inl hold => exact h.message hold
        | inr hnew =>
            split at hnew
            · exact absurd hnew List.not_mem_nil
            · obtain ⟨other, hmem, hother⟩ := List.mem_map.mp hnew
              obtain rfl := Signal.expired.inj hother
              obtain ⟨since, hsince, hlapsed⟩ := hsince other hmem
              exact lapsed_of_le hlapsed (h.armed since hsince) le_rfl
  | sample pressed =>
      exact Since.sample (g := { g with draining := true }) ⟨h.started, h.armed, h.message⟩ pressed
  | deliver signal rest hc => exact (h.take hc).receive signal

-- Nothing is known of a timer that is neither armed nor has its message on its way.
theorem Sound.since (h : Sound g) {place : Place} (harms : g.arms place = false) :
    g.Since place g.now where
  started := le_rfl
  armed _ hs := nomatch (h.unarmed harms).symm.trans hs
  message hm := nomatch (h.expired hm).1.symm.trans harms

theorem lasting_since (place : Place) (start : Int) :
    Lasting fun g => g.Sound ∧ g.Since place start where
  sound _ h := h.1
  step _ _ h hs := ⟨h.1.step hs, h.2.step hs⟩
  restart g first h hf hle := by
    refine ⟨sound_fresh hf, h.2.started.trans hle, fun _ hs => ?_, fun hm => ?_⟩
    · exact nomatch (hf.timers place).symm.trans hs
    · exact absurd (hf.coming ▸ hm) List.not_mem_nil

-- The contact has been committed at `start`, and `Debouncer` does not listen before
-- the window has passed.
structure Lockout (g : Pipeline) (start : Int) : Prop where
  since : g.Since .timer start
  settled : g.debouncer = .Settled → Place.timer.Lapsed start g.now

theorem Lockout.step {start : Int} (h : g.Lockout start) {next : Pipeline} (hs : Step g next) :
    next.Lockout start := by
  refine ⟨h.since.step hs, ?_⟩
  cases hs with
  | tick now hle => exact fun hd => lapsed_of_le (h.settled hd) le_rfl hle
  | rest hc => exact h.settled
  | stop coming hc => exact h.settled
  | fire fired hd hf hsince => exact h.settled
  | sample pressed =>
      unfold Pipeline.sample
      split
      · exact nofun
      · exact h.settled
  | deliver signal rest hc =>
      unfold Pipeline.receive
      split
      · split
        · exact fun _ => h.since.message (hc ▸ List.mem_cons_self)
        · exact h.settled
      · exact h.settled
      · obtain ⟨-, -, -, -, -, -, hdebouncer, -, hnow⟩ := move_fields
          ((g.take signal rest).post (((g.take signal rest).classifier.sends signal).map .gesture))
          ((g.take signal rest).classifier.next signal)
        rw [hdebouncer, hnow]
        exact h.settled

end Pipeline

end ButtonPipeline

end CortexFlow
