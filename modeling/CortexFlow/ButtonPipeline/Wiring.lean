import CortexFlow.App.Simulation
import CortexFlow.ButtonPipeline.Timing

namespace CortexFlow

namespace ButtonPipeline

open App Lib CortexFlow.Flow

-- The timer that the Locals at the place arm.
def Place.expiry : Place → Option (Owner.LocalTimer Message)
  | .timer => some Debouncer.expiry
  | .sub => none
  | .long_press_timer =>
      some (ClickClassifier.carried (ClickClassifier.armed kLongPressThreshold .LongPressExpired
        "button_pipeline::ClickClassifier::LongPressExpired"))
  | .double_click_timer =>
      some (ClickClassifier.carried (ClickClassifier.armed kDoubleClickWindow .DoubleClickExpired
        "button_pipeline::ClickClassifier::DoubleClickExpired"))

def Place.armed (place : Place) (since : Int) : Option (Atomic.Armed Message) :=
  place.expiry.map fun timer => ⟨since, timer.delay, timer.env⟩

def Gesture.payload : Gesture → Payload
  | .Click => .Click
  | .LongPress => .LongPress
  | .DoubleClick => .DoubleClick

def Gesture.message (made : Gesture) : Envelope Message :=
  (make_message kClickClassifier kUiController made.payload).map .of

def notice (serial : Nat) (old : Option Bool) (value : Bool) : Envelope Carried :=
  ⟨kNoSender, kClickClassifier, Keys.changed_type_id .DebouncedButtonState,
    .key_changed serial ⟨.DebouncedButtonState, old, value⟩⟩

-- All that is ever posted while the pipeline runs.
inductive Posted : Envelope Carried → Prop
  | raw (from_ : type_id_t) (pressed : Bool) :
      Posted ((message from_ kDebouncer (.RawTransition pressed)).map .other)
  | expired (place : Place) (timer : Owner.LocalTimer Message) : place.expiry = some timer →
      Posted (timer.env.map .other)
  | edge (serial : Nat) (old : Option Bool) (value : Bool) : Posted (notice serial old value)
  | gesture (made : Gesture) : Posted (made.message.map .other)

def signal (env : Envelope Carried) : Option Signal :=
  match env.payload_ with
  | .key_changed _ ⟨.DebouncedButtonState, change⟩ => some (.edge change.new_value)
  | .other .DebounceExpired => some (.expired .timer)
  | .other (.of .LongPressExpired) => some (.expired .long_press_timer)
  | .other (.of .DoubleClickExpired) => some (.expired .double_click_timer)
  | .other (.of .Click) => some (.gesture .Click)
  | .other (.of .LongPress) => some (.gesture .LongPress)
  | .other (.of .DoubleClick) => some (.gesture .DoubleClick)
  | _ => none

def signals (envs : List (Envelope Carried)) : List Signal := envs.filterMap signal

@[simp] theorem signals_nil : signals [] = [] := rfl

@[simp] theorem signals_append (front back : List (Envelope Carried)) :
    signals (front ++ back) = signals front ++ signals back :=
  List.filterMap_append

theorem signal_expired {place : Place} {timer : Owner.LocalTimer Message}
    (h : place.expiry = some timer) : signal (timer.env.map .other) = some (.expired place) := by
  cases place with
  | sub => exact nomatch h
  | _ =>
      obtain rfl := Option.some.inj h
      rfl

theorem signal_gesture (made : Gesture) :
    signal (made.message.map .other) = some (.gesture made) := by
  cases made <;> rfl

theorem expiry_delay {place : Place} {timer : Owner.LocalTimer Message}
    (h : place.expiry = some timer) : timer.delay = place.delay := by
  cases place with
  | sub => exact nomatch h
  | _ =>
      obtain rfl := Option.some.inj h
      rfl

-- The subscriptions when the classifier has none, and when it has its one.
def bare (next : Nat) : Cache.Registry type_id_t Place := ⟨[], fun _ => none, next⟩

def subscribed (serial next : Nat) : Cache.Registry type_id_t Place :=
  ⟨[⟨serial, Keys.type_id .DebouncedButtonState, kClickClassifier⟩],
    Function.update (fun _ => none) .sub (some ⟨some serial⟩), next⟩

theorem release_subscribed (serial next : Nat) :
    (subscribed serial next).step kMaxSubscriptions (.handle (.destroy .sub)) =
      some (bare next) := by
  simp [subscribed, Cache.Registry.step, Handle.Store.apply, bare]

theorem subscribe_bare (next : Nat) :
    (bare next).step kMaxSubscriptions
      (.subscribe .sub (Keys.type_id .DebouncedButtonState) kClickClassifier) =
        some (subscribed next (next + 1)) := by
  simp [subscribed, Cache.Registry.step, Handle.Store.adopt, bare, kMaxSubscriptions]

abbrev World := Atomic.World Key.value_type Message Place

theorem applyAll_append {keys : Cache.Keys Key Key.value_type} {n : Nat} {since : Int}
    {w v : World} {front : Asked} (h : w.applyAll keys n since front = some v) (back : Asked) :
    w.applyAll keys n since (front ++ back) = v.applyAll keys n since back := by
  unfold Atomic.World.applyAll at *
  rw [List.foldlM_append, h]
  rfl

variable {w : World} (since : Int) {serial next : Nat}

theorem apply_destruct (hr : w.registry = subscribed serial next) (tag : ClickClassifier.State) :
    w.applyAll Keys kMaxSubscriptions since tag.destruct =
      some { w with
        registry := bare next
        timers := fun place => if tag.place = some place then none else w.timers place } := by
  have hrelease := release_subscribed serial next
  rw [← hr] at hrelease
  cases hplace : tag.place with
  | none =>
      simp [ClickClassifier.State.destruct, hplace, Atomic.World.applyAll, Atomic.World.apply,
        hrelease]
  | some place =>
      have hcancel : Function.update w.timers place none =
          fun other => if some place = some other then none else w.timers other := by
        funext other
        by_cases ho : other = place
        · simp [ho]
        · simp [ho, Ne.symm ho]
      simp [ClickClassifier.State.destruct, hplace, Atomic.World.applyAll, Atomic.World.apply,
        hrelease, hcancel]

theorem construct_eq {tag : ClickClassifier.State} {place : Place} (h : tag.place = some place) :
    ∃ timer, place.expiry = some timer ∧ ¬timer.delay < 0 ∧
      tag.construct =
        [.subscribe .sub .DebouncedButtonState kClickClassifier, .arm place timer] := by
  cases tag with
  | Idle => exact nomatch h
  | SecondPressed => exact nomatch h
  | _ =>
      obtain rfl := Option.some.inj h
      exact ⟨_, rfl, by decide, rfl⟩

theorem apply_construct (hr : w.registry = bare next) (tag : ClickClassifier.State)
    (hfree : ∀ place, tag.place = some place → w.timers place = none) :
    w.applyAll Keys kMaxSubscriptions since tag.construct =
      some { w with
        registry := subscribed next (next + 1)
        timers := fun place =>
          if tag.place = some place then place.armed since else w.timers place } := by
  have hsubscribe := subscribe_bare next
  rw [← hr] at hsubscribe
  have hroom : ¬kMaxSubscriptions ≤ w.registry.live.length := by
    rw [hr]
    exact Nat.not_succ_le_zero 7
  cases hplace : tag.place with
  | none =>
      simp [ClickClassifier.State.construct, hplace, Atomic.World.applyAll, Atomic.World.apply,
        hroom, hsubscribe]
  | some place =>
      obtain ⟨timer, hexpiry, hneg, hconstruct⟩ := construct_eq hplace
      have harm : Function.update w.timers place (some ⟨since, timer.delay, timer.env⟩) =
          fun other => if some place = some other then other.armed since else w.timers other := by
        funext other
        by_cases ho : other = place
        · simp [ho, Place.armed, hexpiry]
        · simp [ho, Ne.symm ho]
      simp [hconstruct, Atomic.World.applyAll, Atomic.World.apply, hroom, hsubscribe,
        hfree place hplace, hneg, harm]

theorem apply_sends (w : World) (envs : List (Envelope Message)) :
    w.applyAll Keys kMaxSubscriptions since (envs.map .send) =
      some { w with outbox := w.outbox ++ envs.map fun env => env.map .other } := by
  induction envs generalizing w with
  | nil => simp [Atomic.World.applyAll]
  | cons env envs ih =>
      have := ih { w with outbox := w.outbox ++ [env.map .other] }
      simpa [Atomic.World.applyAll, Atomic.World.apply] using this

theorem apply_commit (hr : w.registry = subscribed serial next) {value : Bool}
    (hv : value ≠ (w.slots .DebouncedButtonState).getD false) :
    w.applyAll Keys kMaxSubscriptions since [.set .DebouncedButtonState value] =
      some { w with
        slots := Function.update w.slots .DebouncedButtonState (some value)
        outbox := w.outbox ++ [notice serial (w.slots .DebouncedButtonState) value] } := by
  have hholds : w.holds Keys .DebouncedButtonState value = false := by
    unfold Atomic.World.holds
    cases hslot : w.slots .DebouncedButtonState with
    | none => rfl
    | some current =>
        rw [hslot] at hv
        exact beq_false_of_ne hv.symm
  have hnotices : w.notices Keys .DebouncedButtonState value =
      [notice serial (w.slots .DebouncedButtonState) value] := by
    unfold Atomic.World.notices
    rw [hr]
    simp [subscribed]
    rfl
  simp [Atomic.World.applyAll, Atomic.World.apply, hholds, hnotices]

theorem apply_cooling (hfree : w.timers .timer = none) :
    w.applyAll Keys kMaxSubscriptions since [.arm .timer Debouncer.expiry] =
      some { w with
        timers := Function.update w.timers .timer (Place.timer.armed since) } := by
  have hneg : ¬Debouncer.expiry.delay < 0 := by decide
  simp [Atomic.World.applyAll, Atomic.World.apply, hfree, hneg, Place.armed, Place.expiry]

theorem apply_mode (hr : w.registry.live.filter (fun registration =>
      registration.key = Keys.type_id .UiMode_Key) = []) (mode : UiMode) :
    w.applyAll Keys kMaxSubscriptions since [.set .UiMode_Key mode] =
      some { w with slots := Function.update w.slots .UiMode_Key (some mode) } := by
  cases hholds : w.holds Keys .UiMode_Key mode with
  | true =>
      obtain ⟨current, hslot, heq⟩ := (Option.any_eq_true _ _).mp hholds
      obtain rfl : current = mode := of_decide_eq_true heq
      have hsame : Function.update w.slots .UiMode_Key (some current) = w.slots := by
        rw [← hslot]
        exact Function.update_eq_self _ _
      simp [Atomic.World.applyAll, Atomic.World.apply, hholds, hsame]
  | false =>
      simp [Atomic.World.applyAll, Atomic.World.apply, hholds, Atomic.World.notices, hr]

-- The flows are in their states, their Locals are live, and what is on its way is what
-- the signals say.
structure Shows (a : Atomic.State Key.value_type Message Place Objects) (g : Pipeline) : Prop where
  phase : a.phase = .running 4
  debouncer : FlowModule.Rests a.objects.debouncer g.debouncer
  classifier : FlowModule.Rests a.objects.classifier g.classifier
  ui : FlowModule.Rests a.objects.ui g.ui
  registry : ∃ serial next, a.registry = subscribed serial next
  level : (a.slots .DebouncedButtonState).getD false = g.level
  mode : a.slots .UiMode_Key = some g.ui.mode
  timers : ∀ place, a.timers place = (g.timers place).bind place.armed
  posted : ∀ env ∈ a.queue ++ a.outbox, Posted env
  coming : signals a.coming = g.coming
  heard : signals a.dispatched = g.heard
  draining : a.draining = g.draining
  stopping : a.stopping = g.stopping
  now : a.now = g.now

-- A step of the atomic application is one of the pipeline, or none.
def Moves (g : Pipeline) (o : Option (Atomic.State Key.value_type Message Place Objects)) : Prop :=
  ∃ b, o = some b ∧ (Shows b g ∨ ∃ next, Pipeline.Step g next ∧ Shows b next)

theorem input_eq {env : Envelope Message} (h : input env = true) :
    ∃ from_ pressed, env = message from_ kDebouncer (.RawTransition pressed) := by
  unfold input at h
  split at h
  · exact ⟨_, _, of_decide_eq_true h⟩
  · exact nomatch h

@[simp] theorem signals_raw (from_ : type_id_t) (pressed : Bool) (rest : List (Envelope Carried)) :
    signals ((message from_ kDebouncer (.RawTransition pressed)).map .other :: rest) =
      signals rest := rfl

variable {a : Atomic.State Key.value_type Message Place Objects} {g : Pipeline}

theorem signals_coming (a : Atomic.State Key.value_type Message Place Objects) :
    signals a.coming = signals a.queue ++ if a.stopping then [] else signals a.outbox := by
  unfold Atomic.State.coming
  cases a.stopping <;> simp

theorem Shows.foreign (h : Shows a g) {env : Envelope Message} (hin : input env = true) :
    Shows { a with queue := a.queue ++ [env.map .other] } g := by
  obtain ⟨from_, pressed, rfl⟩ := input_eq hin
  refine { h with posted := fun env he => ?_, coming := ?_ }
  · rw [List.append_assoc] at he
    cases List.mem_append.mp he with
    | inl hold => exact h.posted env (List.mem_append_left _ hold)
    | inr hnew =>
        cases List.mem_cons.mp hnew with
        | inl heq => exact heq ▸ .raw from_ pressed
        | inr hout => exact h.posted env (List.mem_append_right _ hout)
  · rw [← h.coming]
    simp [Atomic.State.coming]

theorem Shows.own (h : Shows a g) {env : Envelope Message} (hin : input env = true)
    (hout : a.outbox = []) : Shows { a with outbox := [env.map .other] } g := by
  obtain ⟨from_, pressed, rfl⟩ := input_eq hin
  refine { h with posted := fun env he => ?_, coming := ?_ }
  · cases List.mem_append.mp he with
    | inl hold => exact h.posted env (List.mem_append_left _ hold)
    | inr hnew => exact List.mem_singleton.mp hnew ▸ .raw from_ pressed
  · rw [← h.coming]
    cases hstop : a.stopping <;> simp [Atomic.State.coming, hout, hstop]

theorem Shows.accept (h : Shows a g) {env : Envelope Carried} {rest : List (Envelope Carried)}
    (hout : a.outbox = env :: rest) (hstop : a.stopping = false) :
    Shows { a with outbox := rest, queue := a.queue ++ [env] } g := by
  refine { h with posted := fun other he => h.posted other ?_, coming := ?_ }
  · rw [hout]
    simpa using he
  · rw [← h.coming]
    simp [Atomic.State.coming, hout, hstop]

theorem Shows.drop (h : Shows a g) {env : Envelope Carried} {rest : List (Envelope Carried)}
    (hout : a.outbox = env :: rest) (hstop : a.stopping = true) :
    Shows { a with outbox := rest } g := by
  refine { h with posted := fun other he => h.posted other ?_, coming := ?_ }
  · rw [hout]
    cases List.mem_append.mp he with
    | inl hold => exact List.mem_append_left _ hold
    | inr hnew => exact List.mem_append_right _ (List.mem_cons_of_mem _ hnew)
  · rw [← h.coming]
    simp [Atomic.State.coming, hstop]

theorem Shows.fire (h : Shows a g) {fired : List (Place × Atomic.Armed Message)}
    (hout : a.outbox = []) (hdrain : a.draining = false) (hnodup : (fired.map Prod.fst).Nodup)
    (hfired : ∀ timer ∈ fired, a.timers timer.1 = some timer.2 ∧ timer.2.due a.now) :
    Moves g (some { a with
      timers := fun dst => if dst ∈ fired.map Prod.fst then none else a.timers dst
      outbox := fired.map fun timer => timer.2.env.map .other }) := by
  have harmed : ∀ timer ∈ fired, ∃ since expiry, g.timers timer.1 = some since ∧
      timer.1.expiry = some expiry ∧ timer.2 = ⟨since, expiry.delay, expiry.env⟩ := by
    intro timer ht
    have htimer := (hfired timer ht).1
    rw [h.timers] at htimer
    obtain ⟨since, hsince, harmed⟩ := Option.bind_eq_some_iff.mp htimer
    obtain ⟨expiry, hexpiry, heq⟩ := Option.map_eq_some_iff.mp harmed
    exact ⟨since, expiry, hsince, hexpiry, heq.symm⟩
  have hsignals : signals (fired.map fun timer => timer.2.env.map .other) =
      (fired.map Prod.fst).map .expired := by
    unfold signals
    rw [List.filterMap_map, List.map_map, ← List.filterMap_eq_map]
    refine List.filterMap_congr fun timer ht => ?_
    obtain ⟨since, expiry, _, hexpiry, heq⟩ := harmed timer ht
    simp only [Function.comp_apply, heq]
    exact signal_expired hexpiry
  refine ⟨_, rfl, Or.inr ⟨_, .fire (fired.map Prod.fst) (h.draining ▸ hdrain) hnodup ?_, ?_⟩⟩
  · intro place hp
    obtain ⟨timer, ht, rfl⟩ := List.mem_map.mp hp
    obtain ⟨since, expiry, hsince, hexpiry, heq⟩ := harmed timer ht
    refine ⟨since, hsince, ?_⟩
    have hdue := (hfired timer ht).2
    rw [heq, h.now] at hdue
    unfold Place.Lapsed
    rw [← expiry_delay hexpiry]
    exact hdue
  · refine { h with timers := fun place => ?_, posted := fun env he => ?_, coming := ?_ }
    · by_cases hp : place ∈ fired.map Prod.fst
      · simp only [Pipeline.post, hp, ite_true]
        rfl
      · simp only [Pipeline.post, hp, ite_false]
        exact h.timers place
    · cases List.mem_append.mp he with
      | inl hold => exact h.posted env (List.mem_append_left _ hold)
      | inr hnew =>
          obtain ⟨timer, ht, rfl⟩ := List.mem_map.mp hnew
          obtain ⟨since, expiry, _, hexpiry, heq⟩ := harmed timer ht
          rw [heq]
          exact .expired timer.1 expiry hexpiry
    · have hcoming := h.coming
      rw [Pipeline.post, ← hcoming, ← h.stopping]
      cases hstop : a.stopping <;> simp [Atomic.State.coming, hout, hstop, hsignals]

-- What is on its way once the first envelope has been taken from the queue.
theorem Shows.taken (h : Shows a g) {env : Envelope Carried} {rest : List (Envelope Carried)}
    (hq : a.queue = env :: rest) (hout : a.outbox = []) :
    g.coming = (signal env).toList ++ signals rest ∧ Posted env ∧ ∀ env ∈ rest, Posted env := by
  refine ⟨?_, h.posted env (by simp [hq]), fun other ho => h.posted other (by simp [hq, ho])⟩
  rw [← h.coming]
  have hcoming : a.coming = env :: rest := by
    cases hstop : a.stopping <;> simp [Atomic.State.coming, hq, hout, hstop]
  rw [hcoming]
  cases hs : signal env <;> simp [signals, hs]

section Dispatch

variable {env : Envelope Carried} {rest : List (Envelope Carried)} {acts : Asked} {world : World}

theorem dispatch_debouncer (hto : env.to_ = kDebouncer)
    {run : FlowRun Key.value_type Message Debouncer.State}
    (hrun : Debouncer.flow.step a.slots a.objects.debouncer env = .ok run acts)
    (hw : a.toWorld.applyAll Keys kMaxSubscriptions a.now acts = some world) :
    a.dispatch program kMaxSubscriptions env rest = some { a with
      toWorld := world
      queue := rest
      dispatched := a.dispatched ++ [env]
      draining := true
      objects := { a.objects with debouncer := run } } := by
  have hfind : (program.config.modules.findIdx? fun id => id = env.to_) = some 1 := by
    rw [hto]
    rfl
  have hhandle : program.handle 1 env a.slots a.objects =
      .ok { a.objects with debouncer := run } acts := congrArg a.objects.on_debouncer hrun
  exact Atomic.State.dispatch_eq hfind hhandle hw

theorem dispatch_classifier (hto : env.to_ = kClickClassifier)
    {run : FlowRun Key.value_type Message ClickClassifier.State}
    (hrun : ClickClassifier.flow.step a.slots a.objects.classifier env = .ok run acts)
    (hw : a.toWorld.applyAll Keys kMaxSubscriptions a.now acts = some world) :
    a.dispatch program kMaxSubscriptions env rest = some { a with
      toWorld := world
      queue := rest
      dispatched := a.dispatched ++ [env]
      draining := true
      objects := { a.objects with classifier := run } } := by
  have hfind : (program.config.modules.findIdx? fun id => id = env.to_) = some 2 := by
    rw [hto]
    rfl
  have hhandle : program.handle 2 env a.slots a.objects =
      .ok { a.objects with classifier := run } acts := congrArg a.objects.on_classifier hrun
  exact Atomic.State.dispatch_eq hfind hhandle hw

theorem dispatch_ui (hto : env.to_ = kUiController)
    {run : FlowRun Key.value_type Message UiController.State}
    (hrun : UiController.flow.step a.slots a.objects.ui env = .ok run acts)
    (hw : a.toWorld.applyAll Keys kMaxSubscriptions a.now acts = some world) :
    a.dispatch program kMaxSubscriptions env rest = some { a with
      toWorld := world
      queue := rest
      dispatched := a.dispatched ++ [env]
      draining := true
      objects := { a.objects with ui := run } } := by
  have hfind : (program.config.modules.findIdx? fun id => id = env.to_) = some 3 := by
    rw [hto]
    rfl
  have hhandle : program.handle 3 env a.slots a.objects =
      .ok { a.objects with ui := run } acts := congrArg a.objects.on_ui hrun
  exact Atomic.State.dispatch_eq hfind hhandle hw

end Dispatch

-- `Debouncer` is called.
theorem Shows.sample (h : Shows a g) {from_ : type_id_t} {pressed : Bool}
    {rest : List (Envelope Carried)}
    (hq : a.queue = (message from_ kDebouncer (.RawTransition pressed)).map .other :: rest)
    (hout : a.outbox = []) (hs : g.Sound) :
    Moves g (a.dispatch program kMaxSubscriptions
      ((message from_ kDebouncer (.RawTransition pressed)).map .other) rest) := by
  obtain ⟨hcoming, -, hrest⟩ := h.taken hq hout
  obtain ⟨run, hrun, hrests⟩ := FlowModule.step_rests (m := Debouncer.flow) h.debouncer a.slots
    ((message from_ kDebouncer (.RawTransition pressed)).map .other)
  by_cases hcommit : g.debouncer = .Settled ∧ pressed ≠ g.level
  · have hreply : Debouncer.flow.handle a.slots g.debouncer
        ((message from_ kDebouncer (.RawTransition pressed)).map .other) =
          ([.set .DebouncedButtonState pressed], some .CoolingDown) := by
      rw [hcommit.1]
      exact if_pos (h.level.symm ▸ hcommit.2)
    rw [hreply, hcommit.1] at hrun
    rw [hreply] at hrests
    have hidle : g.timers .timer = none :=
      hs.unarmed (by simp [Pipeline.arms, hcommit.1, Pipeline.place_ne_timer])
    obtain ⟨serial, next, hregistry⟩ := h.registry
    have hwrite := apply_commit a.now hregistry (h.level.symm ▸ hcommit.2)
    have hw := (applyAll_append hwrite [.arm .timer Debouncer.expiry]).trans
      (apply_cooling _ ((h.timers .timer).trans (by rw [hidle]; rfl)))
    refine ⟨_, dispatch_debouncer rfl hrun hw, Or.inr ⟨_, .sample pressed, ?_⟩⟩
    rw [show Pipeline.sample { g with draining := true } pressed = _ from if_pos hcommit]
    refine { h with
      debouncer := hrests, registry := ⟨serial, next, hregistry⟩, draining := rfl
      level := ?_, mode := ?_, timers := fun place => ?_, posted := ?_, coming := ?_, heard := ?_ }
    · simp [Pipeline.post]
    · simpa [Pipeline.post] using h.mode
    · by_cases hplace : place = .timer
      · simp [Pipeline.post, hplace, h.now]
      · simpa [Pipeline.post, hplace] using h.timers place
    · rw [hout]
      exact List.forall_mem_append.mpr ⟨hrest, List.forall_mem_singleton.mpr (.edge _ _ _)⟩
    · rw [signals_coming, Pipeline.post, hcoming, ← h.stopping, hout]
      rfl
    · rw [signals_append]
      exact (List.append_nil _).trans h.heard
  · have hreply : Debouncer.flow.handle a.slots g.debouncer
        ((message from_ kDebouncer (.RawTransition pressed)).map .other) = ([], none) := by
      cases htag : g.debouncer with
      | CoolingDown => rfl
      | Settled =>
          have hsame : pressed = g.level := by simpa [htag] using hcommit
          refine if_neg fun hne => hne ?_
          rw [h.level, hsame]
    rw [hreply] at hrun hrests
    refine ⟨_, dispatch_debouncer rfl hrun rfl, Or.inr ⟨_, .sample pressed, ?_⟩⟩
    rw [show Pipeline.sample { g with draining := true } pressed = _ from if_neg hcommit]
    refine { h with debouncer := hrests, draining := rfl, posted := ?_, coming := ?_, heard := ?_ }
    · rw [hout, List.append_nil]
      exact hrest
    · rw [signals_coming, hcoming, hout]
      simp
      rfl
    · simpa using h.heard

-- The window of `Debouncer` is over.
theorem Shows.debounced (h : Shows a g) {rest : List (Envelope Carried)}
    (hq : a.queue = Debouncer.expiry.env.map .other :: rest) (hout : a.outbox = [])
    (hs : g.Sound) :
    Moves g (a.dispatch program kMaxSubscriptions (Debouncer.expiry.env.map .other) rest) := by
  obtain ⟨hcoming, -, hrest⟩ := h.taken hq hout
  have hhead : g.coming = .expired .timer :: signals rest := hcoming
  have hcooling : g.debouncer = .CoolingDown := by
    have harms := (hs.expired (hhead ▸ List.mem_cons_self)).1
    simpa [Pipeline.arms, Pipeline.place_ne_timer] using harms
  obtain ⟨run, hrun, hrests⟩ := FlowModule.step_rests (m := Debouncer.flow) h.debouncer a.slots
    (Debouncer.expiry.env.map .other)
  rw [hcooling] at hrun hrests
  refine ⟨_, dispatch_debouncer rfl hrun rfl, Or.inr ⟨_, .deliver _ _ hhead, ?_⟩⟩
  rw [show (g.take (.expired .timer) (signals rest)).receive (.expired .timer) = _ from
    if_pos hcooling]
  refine { h with
    debouncer := hrests, draining := rfl
    timers := fun place => ?_, posted := ?_, coming := ?_, heard := ?_ }
  · by_cases hplace : place = .timer
    · simp [hplace]
    · simpa [Pipeline.take, hplace] using h.timers place
  · rw [hout, List.append_nil]
    exact hrest
  · rw [signals_coming, hout]
    simp [Pipeline.take]
  · rw [signals_append, h.heard]
    rfl

-- What is posted to the classifier, and what it does about it.
theorem classifier_told {env : Envelope Carried} (hp : Posted env)
    (hto : env.to_ = kClickClassifier) :
    ∃ told, signal env = some told ∧ told ≠ .expired .timer ∧ told.gesture? = none ∧
      ∀ tag, ClickClassifier.answer tag env =
        (((ClickClassifier.State.sends tag told).map Gesture.message).map .send,
          tag.next told) := by
  cases hp with
  | raw from_ pressed => exact nomatch hto
  | edge serial old value =>
      refine ⟨.edge value, rfl, nofun, rfl, fun tag => ?_⟩
      cases value <;> cases tag <;> rfl
  | gesture made => exact nomatch hto
  | expired place timer hexpiry =>
      cases place with
      | sub => exact nomatch hexpiry
      | timer =>
          obtain rfl := Option.some.inj hexpiry
          exact nomatch hto
      | long_press_timer =>
          obtain rfl := Option.some.inj hexpiry
          refine ⟨.expired .long_press_timer, rfl, nofun, rfl, fun tag => ?_⟩
          cases tag <;> rfl
      | double_click_timer =>
          obtain rfl := Option.some.inj hexpiry
          refine ⟨.expired .double_click_timer, rfl, nofun, rfl, fun tag => ?_⟩
          cases tag <;> rfl

-- The classifier is called.
theorem Shows.classified (h : Shows a g) {env : Envelope Carried} {rest : List (Envelope Carried)}
    (hq : a.queue = env :: rest) (hout : a.outbox = []) (hs : g.Sound)
    (hto : env.to_ = kClickClassifier) :
    Moves g (a.dispatch program kMaxSubscriptions env rest) := by
  obtain ⟨hcoming, hposted, hrest⟩ := h.taken hq hout
  obtain ⟨told, hsignal, hne, hgesture, hanswer⟩ := classifier_told hposted hto
  have hhead : g.coming = told :: signals rest := by
    rw [hcoming, hsignal]
    rfl
  have hexpects := hs.expects hhead hne hgesture
  obtain ⟨run, hrun, hrests⟩ := FlowModule.step_rests (m := ClickClassifier.flow) h.classifier
    a.slots env
  rw [show ClickClassifier.flow.handle a.slots g.classifier env = _ from hanswer g.classifier]
    at hrun hrests
  obtain ⟨serial, next, hregistry⟩ := h.registry
  let sends := (g.classifier.sends told).map Gesture.message
  have hsends := apply_sends a.now a.toWorld sends
  have hposts : ∀ sent ∈ rest ++ sends.map fun env => env.map .other, Posted sent := by
    refine List.forall_mem_append.mpr ⟨hrest, fun sent hsent => ?_⟩
    rw [List.map_map] at hsent
    obtain ⟨made, -, rfl⟩ := List.mem_map.mp hsent
    exact .gesture made
  have hmade : signals (sends.map fun env => env.map .other) =
      (g.classifier.sends told).map .gesture := by
    unfold signals
    rw [List.map_map, List.filterMap_map, ← List.filterMap_eq_map]
    exact List.filterMap_congr fun made _ => signal_gesture made
  have hheard : signals (a.dispatched ++ [env]) = g.heard ++ [told] := by
    rw [signals_append, h.heard]
    simp [signals, hsignal]
  rw [Moves]
  have hreceive := (g.take told (signals rest)).receive_classifier hne hgesture
  cases hnext : g.classifier.next told with
  | none =>
      rw [hnext, FlowModule.asked_none] at hrun
      rw [hnext] at hrests
      refine ⟨_, dispatch_classifier hto hrun hsends, Or.inr ⟨_, .deliver _ _ hhead, ?_⟩⟩
      rw [hreceive, show (g.take told (signals rest)).classifier.next told = none from hnext]
      refine { h with
        classifier := hrests, draining := rfl, posted := ?_, coming := ?_, heard := hheard }
      · rw [hout]
        exact hposts
      · rw [signals_coming, hout, List.nil_append, hmade, h.stopping]
        rfl
  | some target =>
      rw [hnext, FlowModule.asked_some] at hrun
      rw [hnext] at hrests
      have hfree (place : Place) (hp : target.place = some place) :
          (if g.classifier.place = some place then none else a.timers place) = none := by
        split
        · rfl
        · rename_i hold
          have hne : place ≠ .timer := fun he => Pipeline.place_ne_timer target (he ▸ hp)
          rw [h.timers, hs.unarmed (by simp [Pipeline.arms, hne, hold])]
          rfl
      have hdestruct := apply_destruct a.now (w := { a.toWorld with
        outbox := a.outbox ++ sends.map fun env => env.map .other }) hregistry g.classifier
      have hw := (applyAll_append hsends _).trans ((applyAll_append hdestruct _).trans
        (apply_construct _ rfl target hfree))
      refine ⟨_, dispatch_classifier hto hrun hw, Or.inr ⟨_, .deliver _ _ hhead, ?_⟩⟩
      rw [hreceive, show (g.take told (signals rest)).classifier.next told = some target from hnext]
      refine { h with
        classifier := hrests, draining := rfl, registry := ⟨_, _, rfl⟩
        timers := fun place => ?_, posted := ?_, coming := ?_, heard := hheard }
      · have htimer := h.timers place
        simp only [Pipeline.move, Pipeline.post, Pipeline.take, ← h.now]
        split_ifs
        · rfl
        · rfl
        · exact htimer
      · rw [hout]
        exact hposts
      · rw [signals_coming, hout, List.nil_append, hmade, h.stopping]
        rfl

-- A gesture reaches `UiController`.
theorem Shows.gesture (h : Shows a g) {made : Gesture} {rest : List (Envelope Carried)}
    (hq : a.queue = made.message.map .other :: rest) (hout : a.outbox = []) :
    Moves g (a.dispatch program kMaxSubscriptions (made.message.map .other) rest) := by
  obtain ⟨hcoming, -, hrest⟩ := h.taken hq hout
  have hhead : g.coming = .gesture made :: signals rest := by
    rw [hcoming, signal_gesture]
    rfl
  obtain ⟨run, hrun, hrests⟩ := FlowModule.step_rests (m := UiController.flow) h.ui a.slots
    (made.message.map .other)
  have hnext : g.ui.next made = (g.ui.handle (made.message.map .other)).getD g.ui := by
    cases g.ui <;> cases made <;> rfl
  have hheard : signals (a.dispatched ++ [made.message.map .other]) =
      g.heard ++ [.gesture made] := by
    rw [signals_append, h.heard]
    simp [signals, signal_gesture]
  obtain ⟨serial, next, hregistry⟩ := h.registry
  rw [Moves]
  cases htarget : g.ui.handle (made.message.map .other) with
  | none =>
      rw [htarget] at hnext
      rw [show UiController.flow.handle a.slots g.ui (made.message.map .other) = ([], none) from
        congrArg (Prod.mk []) htarget] at hrun hrests
      have hrests : FlowModule.Rests run (g.ui.next made) := hnext.symm ▸ hrests
      refine ⟨_, dispatch_ui rfl hrun rfl, Or.inr ⟨_, .deliver _ _ hhead, ?_⟩⟩
      refine { h with
        ui := hrests, draining := rfl
        mode := ?_, posted := ?_, coming := ?_, heard := hheard }
      · simp only [Pipeline.receive, Pipeline.take, hnext]
        exact h.mode
      · rw [hout, List.append_nil]
        exact hrest
      · rw [signals_coming, hout]
        simp [Pipeline.receive, Pipeline.take]
  | some target =>
      rw [htarget] at hnext
      rw [show UiController.flow.handle a.slots g.ui (made.message.map .other) = ([], some target)
        from congrArg (Prod.mk []) htarget] at hrun hrests
      have hrests : FlowModule.Rests run (g.ui.next made) := hnext.symm ▸ hrests
      have hw := apply_mode (w := a.toWorld) a.now (by rw [hregistry]; rfl) target.mode
      refine ⟨_, dispatch_ui rfl hrun hw, Or.inr ⟨_, .deliver _ _ hhead, ?_⟩⟩
      refine { h with
        ui := hrests, draining := rfl
        level := ?_, mode := ?_, posted := ?_, coming := ?_, heard := hheard }
      · simpa [Pipeline.receive, Pipeline.take] using h.level
      · simp [Pipeline.receive, Pipeline.take, hnext]
      · rw [hout, List.append_nil]
        exact hrest
      · rw [signals_coming, hout]
        simp [Pipeline.receive, Pipeline.take]

theorem Shows.dispatch (h : Shows a g) {env : Envelope Carried} {rest : List (Envelope Carried)}
    (hq : a.queue = env :: rest) (hout : a.outbox = []) (hs : g.Sound) :
    Moves g (a.dispatch program kMaxSubscriptions env rest) := by
  have hposted := (h.taken hq hout).2.1
  cases hposted with
  | raw from_ pressed => exact h.sample hq hout hs
  | edge serial old value => exact h.classified hq hout hs rfl
  | gesture made => exact h.gesture hq hout
  | expired place timer hexpiry =>
      cases place with
      | sub => exact nomatch hexpiry
      | timer =>
          obtain rfl := Option.some.inj hexpiry
          exact h.debounced hq hout hs
      | long_press_timer =>
          obtain rfl := Option.some.inj hexpiry
          exact h.classified hq hout hs rfl
      | double_click_timer =>
          obtain rfl := Option.some.inj hexpiry
          exact h.classified hq hout hs rfl

end ButtonPipeline

end CortexFlow
