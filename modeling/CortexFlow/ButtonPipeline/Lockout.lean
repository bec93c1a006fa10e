import CortexFlow.ButtonPipeline.Theorems

namespace CortexFlow

namespace ButtonPipeline

open App Lib CortexFlow.Flow

-- The window that began at `start` is respected, or the pipeline has been shut down.
def Locked (start : Int) (a : Atomic.State Key.value_type Message Place Objects) : Prop :=
  (∃ g, Shows a g ∧ g.Sound ∧ g.Lockout start) ∨ Aside a ∧ ∀ k, a.phase ≠ .running k

variable {a b : Atomic.State Key.value_type Message Place Objects} {start : Int}

theorem Locked.inv (h : Locked start a) : Inv Pipeline.Sound a := by
  cases h with
  | inl hshows =>
      obtain ⟨g, hshows, hsound, -⟩ := hshows
      exact Or.inr ⟨g, hshows, hsound⟩
  | inr haside =>
      exact Or.inl ⟨haside.1, .first false a.now, Pipeline.sound_fresh (fresh_first _ _), le_rfl⟩

theorem Locked.step (h : Locked start a)
    (hs : Atomic.State.Step program kMaxSubscriptions a (some b)) :
    Locked start b ∨ a.phase = .down ∧ b.phase = .running 0 := by
  cases h with
  | inl hshows =>
      obtain ⟨g, hshows, hsound, hlockout⟩ := hshows
      refine Or.inl ?_
      cases step_shows hshows hsound hs with
      | inl hmoves =>
          obtain ⟨c, hc, hnext⟩ := hmoves
          obtain rfl := Option.some.inj hc
          cases hnext with
          | inl hsame => exact Or.inl ⟨g, hsame, hsound, hlockout⟩
          | inr hmove =>
              obtain ⟨next, hstep, hnext⟩ := hmove
              exact Or.inl ⟨next, hnext, hsound.step hstep, hlockout.step hstep⟩
      | inr hleaves =>
          obtain ⟨c, hc, hphase, -, -, haside⟩ := hleaves
          obtain rfl := Option.some.inj hc
          exact Or.inr ⟨haside, fun k hk => nomatch hphase.symm.trans hk⟩
  | inr haside =>
      obtain ⟨haside, hphase⟩ := haside
      cases hs.running hphase rfl with
      | inr hboots => exact Or.inr hboots
      | inl hnever =>
          obtain ⟨c, hc, -, hnext⟩ := step_outside haside.1 haside.2 hs
          obtain rfl := Option.some.inj hc
          cases hnext with
          | inl haside => exact Or.inl (Or.inr ⟨haside, hnever⟩)
          | inr hfirst => exact absurd hfirst.phase (hnever 4)

variable {τ : Type*} [DecidableEq τ]
  {s t u : App.State Key.value_type Message τ kMaxSubscriptions Place Objects}

theorem locked_next (href : Atomic.Refines program s a) (h : Locked start a)
    {event : App.Event Message τ} (hs : s.step program event = some t)
    (hne : event ≠ .runtime .start) :
    ∃ b, Atomic.Refines program t b ∧ (Locked start b ∨ t.cached.runtime.pc.faulted = true) := by
  obtain ⟨b, -, hab, hb⟩ := (inv_preserved Pipeline.lasting_sound).step h.inv href hs
  refine ⟨b, hb, ?_⟩
  cases hab with
  | inl heq => exact Or.inl (heq ▸ h)
  | inr hstep =>
      cases h.step hstep with
      | inl hlocked => exact Or.inl hlocked
      | inr hboots =>
          have hidle : s.cached.runtime.pc = .idle := by
            have hplaced := href.placed
            rw [hboots.1] at hplaced
            have hfault := Atomic.not_faulted href hs
            cases hp : s.cached.runtime.pc with
            | idle => rfl
            | fault reason =>
                rw [hp] at hfault
                exact nomatch hfault
            | construct | on_stop | clear_timers | clear_flags =>
                rw [hp] at hplaced
                exact nomatch hplaced
            | _ =>
                rw [hp] at hplaced
                exact nomatch hplaced.1
          have hplaced := hb.placed
          rw [hboots.2] at hplaced
          have hstarting := Atomic.idle_stays href hidle hs hne
          refine Or.inr ((Atomic.placed_booting hplaced nofun).resolve_left fun hpc => ?_)
          exact nomatch hstarting.symm.trans hpc

theorem locked_run {events : List (App.Event Message τ)} (href : Atomic.Refines program s a)
    (h : Locked start a) (hne : .runtime .start ∉ events)
    (hrun : (App.State.machine τ program kMaxSubscriptions).run s events = some u) :
    ∃ b, Atomic.Refines program u b ∧ (Locked start b ∨ u.cached.runtime.pc.faulted = true) := by
  induction events generalizing s a with
  | nil => exact ⟨a, Option.some.inj hrun ▸ href, Or.inl h⟩
  | cons event events ih =>
      obtain ⟨next, hnext, hrest⟩ := Machine.run_cons_some hrun
      have hevent : event ≠ .runtime .start := fun he => hne (he ▸ List.mem_cons_self)
      obtain ⟨b, hb, hlast⟩ := locked_next href h hnext hevent
      cases hlast with
      | inl hlocked => exact ih hb hlocked (fun hmem => hne (List.mem_cons_of_mem _ hmem)) hrest
      | inr hfault =>
          cases events with
          | nil => exact ⟨b, Option.some.inj hrest ▸ hb, Or.inr (Option.some.inj hrest ▸ hfault)⟩
          | cons later events =>
              obtain ⟨last, hstep, -⟩ := Machine.run_cons_some hrest
              exact nomatch (Atomic.not_faulted hb hstep).symm.trans hfault

-- The window begins with the step in which `Debouncer` leaves `Settled`.
theorem locked_of_commit (hr : (App.State.machine τ program kMaxSubscriptions).Reachable s)
    (hrunning : s.Running) {event : App.Event Message τ} (hs : s.step program event = some t)
    (hsettled : s.objects.debouncer.current_ = .Settled)
    (hcooling : t.objects.debouncer.current_ = .CoolingDown) :
    ∃ b, Atomic.Refines program t b ∧ Locked s.cached.runtime.now b := by
  obtain ⟨a, hI, href⟩ := reachable_inv Pipeline.lasting_sound (fun _ => Pipeline.sound_fresh) hr
  obtain ⟨g, hshows, hsound⟩ := shows_of_running hI href hrunning
  obtain ⟨b, -, hab, hb⟩ := (inv_preserved Pipeline.lasting_sound).step hI href hs
  rw [← href.objects] at hsettled
  rw [← hb.objects] at hcooling
  have hmoved : b.objects ≠ a.objects := fun he => by
    rw [he, hsettled] at hcooling
    exact nomatch hcooling
  cases hab with
  | inl heq => exact absurd (heq ▸ rfl) hmoved
  | inr hstep =>
      cases step_shows hshows hsound hstep with
      | inr hleaves =>
          obtain ⟨c, hc, -, hobjects, -⟩ := hleaves
          obtain rfl := Option.some.inj hc
          exact absurd hobjects hmoved
      | inl hmoves =>
          obtain ⟨c, hc, hnext⟩ := hmoves
          obtain rfl := Option.some.inj hc
          have hdebouncer : g.debouncer = .Settled := hshows.debouncer.current.symm.trans hsettled
          cases hnext with
          | inl hsame =>
              exact nomatch (hsame.debouncer.current.symm.trans hcooling).symm.trans hdebouncer
          | inr hmove =>
              obtain ⟨next, hnext, hafter⟩ := hmove
              have harms : g.arms .timer = false := by
                simp [Pipeline.arms, hdebouncer, Pipeline.place_ne_timer]
              have hcommitted : next.debouncer = .CoolingDown :=
                hafter.debouncer.current.symm.trans hcooling
              refine ⟨b, hb, Or.inl ⟨next, hafter, hsound.step hnext, ?_, fun hlast => ?_⟩⟩
              · rw [← href.now, hshows.now]
                exact (hsound.since harms).step hnext
              · exact nomatch hcommitted.symm.trans hlast

-- After `Debouncer` has committed an edge it is not in `Settled` again, and can commit
-- no other, before the window has passed, unless the runtime is started anew.
theorem lockout (hr : (App.State.machine τ program kMaxSubscriptions).Reachable s)
    (hrunning : s.Running) {event : App.Event Message τ} (hs : s.step program event = some t)
    (hsettled : s.objects.debouncer.current_ = .Settled)
    (hcooling : t.objects.debouncer.current_ = .CoolingDown)
    {events : List (App.Event Message τ)} (hne : .runtime .start ∉ events)
    (hrun : (App.State.machine τ program kMaxSubscriptions).run t events = some u)
    (hu : u.Running) (hlast : u.objects.debouncer.current_ = .Settled) :
    Place.timer.Lapsed s.cached.runtime.now u.cached.runtime.now := by
  obtain ⟨b, hb, hlocked⟩ := locked_of_commit hr hrunning hs hsettled hcooling
  obtain ⟨c, hc, hend⟩ := locked_run hb hlocked hne hrun
  cases hend with
  | inr hfault =>
      have hruns := hu.2
      cases hp : u.cached.runtime.pc with
      | fault reason =>
          rw [hp] at hruns
          exact nomatch hruns
      | _ =>
          rw [hp] at hfault
          exact nomatch hfault
  | inl hlocked =>
      have hplaced := hc.placed
      rw [hu.1] at hplaced
      cases hlocked with
      | inr haside => exact absurd (Atomic.placed_running hplaced hu.2) (haside.2 _)
      | inl hshows =>
          obtain ⟨g, hshows, -, hlockout⟩ := hshows
          rw [← hc.objects, hshows.debouncer.current] at hlast
          have hlapsed := hlockout.settled hlast
          rwa [← hshows.now, hc.now] at hlapsed

theorem lockout_windowRun :
    ∃ s u : App.State Key.value_type Message Nat kMaxSubscriptions Place Objects,
      (App.State.machine Nat program kMaxSubscriptions).Reachable s ∧
      s.objects.debouncer.current_ = .Settled ∧ u.objects.debouncer.current_ = .Settled ∧
      Place.timer.Lapsed s.cached.runtime.now u.cached.runtime.now := by
  have hfirst : (after program kMaxSubscriptions pressRun).map (fun s =>
      (s.cached.runtime.started_ && s.cached.runtime.pc.runs, s.objects.debouncer.current_)) =
      some (true, .Settled) := by
    decide +kernel
  have hthen : (after program kMaxSubscriptions (pressRun ++ steps 1)).map (fun s =>
      s.objects.debouncer.current_) = some .CoolingDown := by
    decide +kernel
  have hlast : (after program kMaxSubscriptions ((pressRun ++ steps 1) ++
      (commitRun.tail ++ windowRun ++ .runtime .run_one :: steps 1))).map (fun s =>
      (s.cached.runtime.started_ && s.cached.runtime.pc.runs, s.objects.debouncer.current_)) =
      some (true, .Settled) := by
    decide +kernel
  obtain ⟨u, hu, hlast⟩ := Option.map_eq_some_iff.mp hlast
  rw [after, Machine.run_append] at hu
  obtain ⟨t, ht, hrun⟩ := Option.bind_eq_some_iff.mp hu
  rw [after, ht] at hthen
  rw [Machine.run_append] at ht
  obtain ⟨s, hs, hstep⟩ := Option.bind_eq_some_iff.mp ht
  rw [after, hs] at hfirst
  obtain ⟨next, hnext, hsame⟩ := Machine.run_cons_some hstep
  obtain rfl := Option.some.inj hsame
  have hcommit : s.step program (.runtime .loop) = some next := hnext
  have hne : .runtime .start ∉ commitRun.tail ++ windowRun ++ .runtime .run_one :: steps 1 := by
    simp [commitRun, windowRun, steps, acts, posts, expired]
  obtain ⟨hrunning, hsettled⟩ := Prod.mk.inj (Option.some.inj hfirst)
  obtain ⟨hruns, hends⟩ := Prod.mk.inj hlast
  exact ⟨s, u, ⟨_, hs⟩, hsettled, hends,
    lockout ⟨_, hs⟩ ((Bool.and_eq_true _ _).mp hrunning) hcommit hsettled (Option.some.inj hthen)
      hne hrun ((Bool.and_eq_true _ _).mp hruns) hends⟩

end ButtonPipeline

end CortexFlow
