import CortexFlow.ButtonPipeline.Lifecycle

namespace CortexFlow

namespace ButtonPipeline

open App Lib CortexFlow.Flow

-- A flow is in the state whose Locals hold the timer at the place.
def Objects.Holds (m : Objects) (place : Place) : Prop :=
  (place = .timer ∧ m.debouncer.current_ = .CoolingDown) ∨
    m.classifier.current_.place = some place

variable {τ : Type*} {s t u : App.State Key.value_type Message τ kMaxSubscriptions Place Objects}
  {a : Atomic.State Key.value_type Message Place Objects} {g : Pipeline}

-- What has been dispatched in this lifecycle, and what waits in the queue.
def dispatched (s : App.State Key.value_type Message τ kMaxSubscriptions Place Objects) :
    List Signal :=
  signals (s.cached.runtime.dispatched.map Runtime.Post.env)

def queued (s : App.State Key.value_type Message τ kMaxSubscriptions Place Objects) :
    List Signal :=
  signals (s.cached.runtime.queue_.map Runtime.Post.env)

-- The service has a timer that is going to bring the message.
def Armed (s : App.State Key.value_type Message τ kMaxSubscriptions Place Objects)
    (place : Place) : Prop :=
  ∃ entry, s.cached.runtime.timers_.IsArmed entry ∧ signal entry.envelope = some (.expired place)

theorem shows_of_running {P : Pipeline → Prop} (hI : Inv P a) (h : Atomic.Refines program s a)
    (hrun : s.Running) : ∃ g, Shows a g ∧ P g := by
  have hplaced := h.placed
  rw [hrun.1] at hplaced
  cases hI with
  | inl haside => exact absurd (Atomic.placed_running hplaced hrun.2) haside.1.2.not_full
  | inr hshows => exact hshows

theorem prefix_of_queued (href : Atomic.Refines program s a) (h : Shows a g) :
    queued s <+: g.coming := by
  rw [← h.coming, signals_coming, href.queue]
  exact List.prefix_append _ _

theorem dispatched_eq (href : Atomic.Refines program s a) (h : Shows a g) :
    dispatched s = g.heard := by
  rw [← h.heard, href.dispatched]
  rfl

-- Nothing but what is in the queue is on its way when the owning thread is outside
-- its own calls.
theorem queued_eq (href : Atomic.Refines program s a) (h : Shows a g) (ht : s.todo = [])
    (hout : s.cached.runtime.calls .loop = .outside) : queued s = g.coming := by
  rw [← h.coming, signals_coming, href.queue, href.outbox_nil ht hout]
  simp [queued]

theorem queued_aside (href : Atomic.Refines program s a) (h : Aside a) : queued s = [] := by
  rw [queued, ← href.queue]
  exact signals_of_raw fun env he => h.1.inputs env (List.mem_append_left _ he)

theorem holds_iff (href : Atomic.Refines program s a) (h : Shows a g) (place : Place) :
    s.objects.Holds place ↔ g.arms place = true := by
  rw [← href.objects]
  simp [Objects.Holds, Pipeline.arms, h.debouncer.current, h.classifier.current]

theorem signal_armed {place : Place} {since : Int} {armed : Atomic.Armed Message}
    (h : place.armed since = some armed) :
    signal (armed.env.map .other) = some (.expired place) := by
  obtain ⟨timer, hexpiry, rfl⟩ := Option.map_eq_some_iff.mp h
  exact signal_expired hexpiry

theorem armed_iff (href : Atomic.Refines program s a) (h : Shows a g) (ht : s.todo = [])
    (hs : g.Sound) (place : Place) : Armed s place ↔ g.timers place ≠ none := by
  have htimed := (href.settled ht).timed
  constructor
  · rintro ⟨entry, hentry, hsignal⟩
    obtain ⟨dst, armed, hdst, hheld⟩ := htimed.owned entry hentry
    obtain ⟨other, hother, hseq, henv, -⟩ := htimed.armed dst armed hdst
    have hsame : other = entry :=
      TimerService.isArmed_unique hother hentry (Option.some.inj (hseq.symm.trans hheld))
    rw [h.timers] at hdst
    obtain ⟨since, hsince, harmed⟩ := Option.bind_eq_some_iff.mp hdst
    rw [← hsame, henv, signal_armed harmed] at hsignal
    obtain rfl := Signal.expired.inj (Option.some.inj hsignal)
    rw [hsince]
    exact nofun
  · intro hne
    obtain ⟨since, hsince⟩ := Option.ne_none_iff_exists'.mp hne
    have harms : place ≠ .sub := by
      rintro rfl
      exact hne (hs.unarmed (by simp [Pipeline.arms, Pipeline.place_ne_sub]))
    obtain ⟨armed, harmed⟩ : ∃ armed, place.armed since = some armed := by
      cases place with
      | sub => exact absurd rfl harms
      | _ => exact ⟨_, rfl⟩
    obtain ⟨entry, hentry, -, henv, -⟩ := htimed.armed place armed
      ((h.timers place).trans (by rw [hsince]; exact harmed))
    exact ⟨entry, hentry, henv ▸ signal_armed harmed⟩

variable [DecidableEq τ]

theorem reachable_inv {P : Pipeline → Prop} (hP : Pipeline.Lasting P) (hfresh : ∀ g, g.Fresh → P g)
    (hr : (App.State.machine τ program kMaxSubscriptions).Reachable s) :
    ∃ a, Inv P a ∧ Atomic.Refines program s a :=
  (inv_preserved hP).reachable (inv_init hfresh) hr

theorem running_shows (hr : (App.State.machine τ program kMaxSubscriptions).Reachable s)
    (hrun : s.Running) : ∃ a g, Atomic.Refines program s a ∧ Shows a g ∧ g.Sound := by
  obtain ⟨a, hI, href⟩ := reachable_inv Pipeline.lasting_sound (fun _ => Pipeline.sound_fresh) hr
  obtain ⟨g, hshows, hsound⟩ := shows_of_running hI href hrun
  exact ⟨a, g, href, hshows, hsound⟩

-- The runtime starts, and is told that the contact is closed; `Debouncer` commits it;
-- its window ends; it is told that the contact is open again, commits that and waits
-- until the click is classified.
def sampled (pressed : Bool) : List (App.Event Message Nat) :=
  .runtime (.call .loop (.post (message kNoSender kDebouncer (.RawTransition pressed)))) ::
    posts 1 ++ [.runtime .run_one]

def expired (now : Int) (count : Nat) : List (App.Event Message Nat) :=
  .runtime (.tick now) :: .runtime (.call .loop .fire_due) :: posts count

def pressRun : List (App.Event Message Nat) :=
  .runtime .start :: steps 6 ++ acts 1 ++ steps 1 ++ acts 1 ++ steps 1 ++ sampled true

def commitRun : List (App.Event Message Nat) := steps 1 ++ acts 1 ++ posts 1 ++ acts 1 ++ steps 2

def windowRun : List (App.Event Message Nat) := acts 3 ++ steps 2 ++ expired kDebounceWindow 1

def clickRun : List (App.Event Message Nat) :=
  pressRun ++ commitRun ++ windowRun ++ .runtime .run_one :: steps 1 ++ acts 1 ++ steps 2 ++
    sampled false ++ commitRun ++ acts 4 ++ steps 2 ++ expired kLongPressThreshold 2 ++
    .runtime .run_one :: steps 1 ++ acts 1 ++ steps 2 ++ acts 1 ++ posts 1 ++ acts 3 ++ steps 2 ++
    acts 1 ++ steps 2

def reads (s : App.State Key.value_type Message Nat kMaxSubscriptions Place Objects) :
    Bool × List Signal × List Signal :=
  (s.rests, dispatched s, queued s)

def clicked : List Signal :=
  [.edge true, .expired .timer, .edge false, .expired .timer, .expired .double_click_timer,
    .gesture .Click]

theorem clickRun_reads : (after program kMaxSubscriptions clickRun).map reads =
    some (true, clicked, []) := by
  decide +kernel

theorem windowRun_reads :
    (after program kMaxSubscriptions (pressRun ++ commitRun ++ windowRun)).map reads =
      some (true, [.edge true], [.expired .timer]) := by
  decide +kernel

theorem interleaving_atomic_clickRun :
    ∃ s, (App.State.machine Nat program kMaxSubscriptions).Reachable s ∧ dispatched s = clicked ∧
      (Atomic.CanFail program kMaxSubscriptions (.init program) ∨
        ∃ a, Atomic.Reaches program kMaxSubscriptions (.init program) a ∧
          Atomic.Refines program s a) := by
  obtain ⟨s, hr, -, -, -, -, hread⟩ := of_reads clickRun_reads
  obtain ⟨hheard, -⟩ := Prod.mk.inj hread
  exact ⟨s, hr, hheard, Atomic.interleaving_atomic hr⟩

-- The pipeline breaks no assertion, and nothing that its modules ask for is refused.
theorem never_fails (hr : (App.State.machine τ program kMaxSubscriptions).Reachable s) :
    (∀ reason, s.cached.runtime.pc = .fault reason → reason ∈ Atomic.misuses) ∧
      (s.todo ≠ [] → s.cached.ready = true → ∃ t, s.step program .act = some t) := by
  exact (inv_preserved Pipeline.lasting_sound).safe
    (inv_init fun _ => Pipeline.sound_fresh) hr

theorem never_fails_clickRun :
    ∃ s, (App.State.machine Nat program kMaxSubscriptions).Reachable s ∧ dispatched s = clicked ∧
      ∀ reason, s.cached.runtime.pc = .fault reason → reason ∈ Atomic.misuses := by
  obtain ⟨s, hr, -, -, -, -, hread⟩ := of_reads clickRun_reads
  obtain ⟨hheard, -⟩ := Prod.mk.inj hread
  exact ⟨s, hr, hheard, (never_fails hr).1⟩

-- The edges that the classifier is told of come in turns, the first of them a press,
-- and end with the level in the cache.
theorem edges_alternate (hr : (App.State.machine τ program kMaxSubscriptions).Reachable s)
    (hrun : s.Running) :
    (false :: edges (dispatched s ++ queued s)).IsChain (· ≠ ·) ∧
      (s.todo = [] → s.cached.runtime.calls .loop = .outside →
        s.cached.runtime.stop_requested_ = false →
          (edges (dispatched s ++ queued s)).getLastD false =
            (s.cached.cache.slots_ .DebouncedButtonState).getD false) := by
  obtain ⟨a, g, href, hshows, hsound⟩ := running_shows hr hrun
  refine ⟨?_, fun ht hout hstop => ?_⟩
  · rw [dispatched_eq href hshows]
    refine hsound.alternate.prefix ((List.prefix_cons_inj _).mpr (List.IsPrefix.filterMap _ ?_))
    exact (List.prefix_append_right_inj _).mpr (prefix_of_queued href hshows)
  · rw [dispatched_eq href hshows, queued_eq href hshows ht hout, ← (href.settled ht).slots]
    have hstopping : g.stopping = false := by
      rw [← hshows.stopping, href.stopping, hstop]
    exact (hsound.level hstopping).trans hshows.level.symm

theorem edges_alternate_clickRun :
    ∃ s, (App.State.machine Nat program kMaxSubscriptions).Reachable s ∧ dispatched s = clicked ∧
      [false, true, false].IsChain (· ≠ ·) ∧
      (s.cached.cache.slots_ .DebouncedButtonState).getD false = false := by
  obtain ⟨s, hr, hrun, ht, hout, hstop, hread⟩ := of_reads clickRun_reads
  obtain ⟨hheard, hcoming⟩ := Prod.mk.inj hread
  have halternate := edges_alternate hr hrun
  rw [hheard, hcoming] at halternate
  exact ⟨s, hr, hheard, halternate.1, (halternate.2 ht hout hstop).symm⟩

-- The first message that is on its way finds the classifier in a state that waits for
-- it: the branches that are called impossible are never taken.
theorem head_expected (hr : (App.State.machine τ program kMaxSubscriptions).Reachable s)
    (hrun : s.Running) {told : Signal} {rest : List Signal} (hq : queued s = told :: rest) :
    (∀ value, told = .edge value → s.objects.classifier.current_.level ≠ some value) ∧
      ∀ place, .expired place ∈ queued s → s.objects.Holds place := by
  obtain ⟨a, g, href, hshows, hsound⟩ := running_shows hr hrun
  obtain ⟨more, hmore⟩ := prefix_of_queued href hshows
  refine ⟨fun value hvalue => ?_, fun place hmem => ?_⟩
  · subst hvalue
    rw [hq, List.cons_append] at hmore
    have hexpects := hsound.expects hmore.symm nofun rfl
    rw [← href.objects, hshows.classifier.current]
    exact hexpects
  · rw [holds_iff href hshows]
    exact (hsound.expired (hmore ▸ List.mem_append_left _ hmem)).1

theorem head_expected_windowRun :
    ∃ s, (App.State.machine Nat program kMaxSubscriptions).Reachable s ∧
      queued s = [.expired .timer] ∧ s.objects.Holds .timer := by
  obtain ⟨s, hr, hrun, -, -, -, hread⟩ := of_reads windowRun_reads
  obtain ⟨-, hcoming⟩ := Prod.mk.inj hread
  exact ⟨s, hr, hcoming, (head_expected hr hrun hcoming).2 .timer (hcoming ▸ List.mem_cons_self)⟩

-- Between the calls of the modules, a timer is armed or has its message in the queue,
-- and never both, only while the state that armed it lasts; as long as posts are
-- accepted it is one of the two.
theorem timer_or_message (hr : (App.State.machine τ program kMaxSubscriptions).Reachable s)
    (hrun : s.Running) (ht : s.todo = []) (hout : s.cached.runtime.calls .loop = .outside)
    (place : Place) :
    (Armed s place ∨ .expired place ∈ queued s → s.objects.Holds place) ∧
      ¬(Armed s place ∧ .expired place ∈ queued s) ∧
      (s.cached.runtime.stop_requested_ = false → s.objects.Holds place →
        Armed s place ∨ .expired place ∈ queued s) := by
  obtain ⟨a, g, href, hshows, hsound⟩ := running_shows hr hrun
  rw [armed_iff href hshows ht hsound, queued_eq href hshows ht hout, holds_iff href hshows]
  refine ⟨fun hor => ?_, fun hboth => hboth.1 (hsound.expired hboth.2).2.1, fun hstop harms => ?_⟩
  · cases hor with
    | inl harmed =>
        cases harms : g.arms place with
        | true => rfl
        | false => exact absurd (hsound.unarmed harms) harmed
    | inr hmem => exact (hsound.expired hmem).1
  · have hstopping : g.stopping = false := by
      rw [← hshows.stopping, href.stopping, hstop]
    have hle := hsound.le_tokens hstopping place
    rw [harms, Bool.toNat_true] at hle
    by_cases hmem : .expired place ∈ g.coming
    · exact Or.inr hmem
    · refine Or.inl fun hnone => ?_
      simp [Pipeline.tokens, hnone, List.count_eq_zero_of_not_mem hmem] at hle

theorem timer_or_message_windowRun :
    ∃ s, (App.State.machine Nat program kMaxSubscriptions).Reachable s ∧ s.objects.Holds .timer ∧
      ¬Armed s .timer := by
  obtain ⟨s, hr, hrun, ht, hout, -, hread⟩ := of_reads windowRun_reads
  obtain ⟨-, hcoming⟩ := Prod.mk.inj hread
  have hmem : .expired .timer ∈ queued s := hcoming ▸ List.mem_cons_self
  obtain ⟨hholds, hnever, -⟩ := timer_or_message hr hrun ht hout .timer
  exact ⟨s, hr, hholds (Or.inr hmem), fun harmed => hnever ⟨harmed, hmem⟩⟩

-- No press is lost and none counts twice: those that the classifier has been told of
-- are in the gestures it has made, or in the one that its state is about.
theorem presses_accounted (hr : (App.State.machine τ program kMaxSubscriptions).Reachable s)
    (hrun : s.Running) (ht : s.todo = []) (hout : s.cached.runtime.calls .loop = .outside) :
    accounted (dispatched s ++ queued s) + s.objects.classifier.current_.owed ≤
        (edges (dispatched s)).count true ∧
      (s.cached.runtime.stop_requested_ = false → (edges (dispatched s)).count true =
        accounted (dispatched s ++ queued s) + s.objects.classifier.current_.owed) := by
  obtain ⟨a, g, href, hshows, hsound⟩ := running_shows hr hrun
  rw [dispatched_eq href hshows, queued_eq href hshows ht hout, ← href.objects,
    hshows.classifier.current]
  refine ⟨hsound.accounted_le, fun hstop => ?_⟩
  have hstopping : g.stopping = false := by
    rw [← hshows.stopping, href.stopping, hstop]
  exact le_antisymm (hsound.le_accounted hstopping) hsound.accounted_le

theorem presses_accounted_clickRun :
    ∃ s, (App.State.machine Nat program kMaxSubscriptions).Reachable s ∧ dispatched s = clicked ∧
      1 = 1 + s.objects.classifier.current_.owed := by
  obtain ⟨s, hr, hrun, ht, hout, hstop, hread⟩ := of_reads clickRun_reads
  obtain ⟨hheard, hcoming⟩ := Prod.mk.inj hread
  have haccounted := (presses_accounted hr hrun ht hout).2 hstop
  rw [hheard, hcoming] at haccounted
  exact ⟨s, hr, hheard, haccounted⟩

-- `UiMode_Key` shows where the gestures dispatched so far lead to.
theorem mode_shown (hr : (App.State.machine τ program kMaxSubscriptions).Reachable s)
    (hrun : s.Running) (ht : s.todo = []) :
    s.cached.cache.slots_ .UiMode_Key =
      some ((gestures (dispatched s)).foldl UiController.State.next .Idle).mode := by
  obtain ⟨a, g, href, hshows, hsound⟩ := running_shows hr hrun
  rw [dispatched_eq href hshows, ← (href.settled ht).slots, ← hsound.ui]
  exact hshows.mode

theorem mode_shown_clickRun :
    ∃ s, (App.State.machine Nat program kMaxSubscriptions).Reachable s ∧ dispatched s = clicked ∧
      s.cached.cache.slots_ .UiMode_Key = some (UiController.State.Idle.next .Click).mode := by
  obtain ⟨s, hr, hrun, ht, -, -, hread⟩ := of_reads clickRun_reads
  obtain ⟨hheard, -⟩ := Prod.mk.inj hread
  have hmode := mode_shown hr hrun ht
  rw [hheard] at hmode
  exact ⟨s, hr, hheard, hmode⟩

-- Between the calls of the modules there is one subscription, that of the classifier.
theorem one_subscription (hr : (App.State.machine τ program kMaxSubscriptions).Reachable s)
    (hrun : s.Running) (ht : s.todo = []) :
    s.cached.cache.session.pool.num_active_ = 1 ∧
      ∃ serial, s.cached.cache.session.registry.live =
        [⟨serial, Keys.type_id .DebouncedButtonState, kClickClassifier⟩] := by
  obtain ⟨a, g, href, hshows, -⟩ := running_shows hr hrun
  obtain ⟨serial, next, hregistry⟩ := hshows.registry
  have hmirrors := href.settled ht
  have hlive : s.cached.cache.session.registry.live =
      [⟨serial, Keys.type_id .DebouncedButtonState, kClickClassifier⟩] := by
    rw [← hmirrors.registry, hregistry]
    rfl
  refine ⟨?_, serial, hlive⟩
  have hlength := congrArg List.length hlive
  rw [Cache.Session.registry, List.length_map,
    Cache.Pool.length_live hmirrors.session.wellFormed] at hlength
  exact hlength

theorem one_subscription_clickRun :
    ∃ s, (App.State.machine Nat program kMaxSubscriptions).Reachable s ∧ dispatched s = clicked ∧
      s.cached.cache.session.pool.num_active_ = 1 := by
  obtain ⟨s, hr, hrun, ht, -, -, hread⟩ := of_reads clickRun_reads
  obtain ⟨hheard, -⟩ := Prod.mk.inj hread
  exact ⟨s, hr, hheard, (one_subscription hr hrun ht).1⟩

-- The message of a timer is not in the queue before its delay has passed since the
-- state was entered that armed it: none of them can be early.
theorem expiry_waits (hr : (App.State.machine τ program kMaxSubscriptions).Reachable s)
    {place : Place} (hs : ¬s.objects.Holds place) {events : List (App.Event Message τ)}
    (hrun : (App.State.machine τ program kMaxSubscriptions).run s events = some u)
    (hq : .expired place ∈ queued u) :
    place.Lapsed s.cached.runtime.now u.cached.runtime.now := by
  obtain ⟨a, hI, href⟩ := reachable_inv Pipeline.lasting_sound (fun _ => Pipeline.sound_fresh) hr
  have hstart : Inv (fun g => g.Sound ∧ g.Since place a.now) a := by
    cases hI with
    | inl haside =>
        have hsound := Pipeline.sound_fresh (fresh_first false a.now)
        refine Or.inl ⟨haside.1, .first false a.now, ⟨hsound, ?_⟩, le_rfl⟩
        exact hsound.since (by cases place <;> rfl)
    | inr hshows =>
        obtain ⟨g, hshows, hsound⟩ := hshows
        have harms : g.arms place = false := by
          rw [holds_iff href hshows] at hs
          simpa using hs
        exact Or.inr ⟨g, hshows, hsound, hshows.now ▸ hsound.since harms⟩
  obtain ⟨b, hb, hlast⟩ :=
    (inv_preserved (Pipeline.lasting_since place a.now)).run hstart href hrun
  cases hb with
  | inl haside =>
      rw [queued_aside hlast haside.1] at hq
      exact absurd hq List.not_mem_nil
  | inr hshows =>
      obtain ⟨g, hshows, -, hsince⟩ := hshows
      have hlapsed := hsince.message ((prefix_of_queued hlast hshows).subset hq)
      rwa [href.now, ← hshows.now, hlast.now] at hlapsed

theorem expiry_waits_windowRun :
    ∃ u, (App.State.machine Nat program kMaxSubscriptions).Reachable u ∧
      queued u = [.expired .timer] ∧ Place.timer.Lapsed 0 u.cached.runtime.now := by
  obtain ⟨u, ⟨events, hrun⟩, -, -, -, -, hread⟩ := of_reads windowRun_reads
  obtain ⟨-, hcoming⟩ := Prod.mk.inj hread
  have hs : ¬(App.State.machine Nat program kMaxSubscriptions).init.objects.Holds .timer := by
    unfold Objects.Holds
    decide
  exact ⟨u, ⟨events, hrun⟩, hcoming,
    expiry_waits ⟨[], rfl⟩ hs hrun (hcoming ▸ List.mem_cons_self)⟩

end ButtonPipeline

end CortexFlow
