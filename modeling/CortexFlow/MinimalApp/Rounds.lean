import CortexFlow.App.Simulation
import CortexFlow.MinimalApp.Modules

namespace CortexFlow

namespace MinimalApp

open App Lib CortexFlow.Flow

-- How far the round is that `Producer` has begun: `Bump` is on its way, `KeyChanged`
-- is, the timer is armed, its message is on its way, or `Done` is.
inductive Round
  | bump
  | changed
  | processing
  | tick
  | done
deriving DecidableEq

def Round.state : Round → Consumer.State
  | .processing | .tick => .Processing
  | _ => .Idle

-- The writes that `Consumer` has not acknowledged.
def Round.unacked : Round → Int32
  | .bump => 0
  | _ => 1

def notice (serial : Nat) (old : Option Int32) (value : Int32) : Envelope Carried :=
  ⟨kNoSender, kConsumer, Keys.changed_type_id .Counter,
    .key_changed serial ⟨.Counter, old, value⟩⟩

-- What takes the round to its next part.
inductive Round.Brings : Round → Envelope Carried → Prop
  | bump : Brings .bump (Producer.bump.map .other)
  | changed (serial : Nat) (old : Option Int32) (value : Int32) :
      Brings .changed (notice serial old value)
  | tick : Brings .tick (Consumer.tick.env.map .other)
  | done : Brings .done ((message kConsumer kProducer .Done).map .other)

-- One envelope is on its way, or the timer is armed. An envelope is lost only to `stop`.
def Round.Coming (round : Round) (stopping : Bool) (envs : List (Envelope Carried)) : Prop :=
  (envs = [] ∧ (round = .processing ∨ stopping = true)) ∨ ∃ env, envs = [env] ∧ round.Brings env

abbrev Registry := Cache.Registry type_id_t Place

def bare (next : Nat) : Registry := ⟨[], fun _ => none, next⟩

def subscribed (serial next : Nat) : Registry :=
  ⟨[⟨serial, Keys.type_id .Counter, kConsumer⟩],
    Function.update (fun _ => none) .sub (some ⟨some serial⟩), next⟩

def Consumer.State.Registered : Consumer.State → Registry → Prop
  | .Idle, registry => ∃ serial next, registry = subscribed serial next
  | .Processing, registry => ∃ next, registry = bare next

abbrev Timers := Place → Option (Atomic.Armed Message)

def held (since : Int) : Timers :=
  Function.update (fun _ => none) .timer
    (some ⟨since, Consumer.tick.delay, Consumer.tick.env⟩)

def Round.Timed (round : Round) (timers : Timers) : Prop :=
  if round = .processing then ∃ since, timers = held since else timers = fun _ => none

abbrev Whole := Atomic.State Key.value_type Message Place Objects

-- Both modules run, and are in the round.
structure Shows (a : Whole) (round : Round) : Prop where
  phase : a.phase = .running 2
  counter : a.objects.counter_ = a.objects.acks_ + round.unacked
  shown : (a.slots .Counter).getD 0 = a.objects.counter_
  consumer : FlowModule.Rests a.objects.consumer round.state
  registry : round.state.Registered a.registry
  timers : round.Timed a.timers
  coming : round.Coming a.stopping (a.queue ++ a.outbox)

-- `start` has not come to its end.
structure Booting (a : Whole) : Prop where
  objects : a.objects = .fresh
  registry : ∃ next, a.registry = bare next
  slots : a.slots = fun _ => none
  timers : a.timers = fun _ => none

-- `shutdown` has dropped what was on its way.
structure Closing (a : Whole) (destroyed : Nat) : Prop where
  consumer : if destroyed ≤ 1 then
      ∃ tag, FlowModule.Rests a.objects.consumer tag ∧ tag.Registered a.registry
    else ∃ next, a.registry = bare next
  draining : a.draining = true
  coming : a.queue ++ a.outbox = []

-- No module is alive.
structure Down (a : Whole) : Prop where
  registry : ∃ next, a.registry = bare next
  timers : a.timers = fun _ => none
  coming : a.queue ++ a.outbox = []

def Aside (a : Whole) : Prop :=
  match a.phase with
  | .down => Down a
  | .running 0 => Booting a ∧ a.queue ++ a.outbox = []
  | .running 1 => Booting a ∧ Round.bump.Coming a.stopping (a.queue ++ a.outbox)
  | .running _ => False
  | .closing destroyed => Closing a destroyed
  | .cleared => Down a

def Inv (a : Whole) : Prop := Aside a ∨ ∃ round, Shows a round

variable {a : Whole} {round : Round}

theorem Round.Coming.stopped {stopping : Bool} {envs : List (Envelope Carried)}
    (h : round.Coming stopping envs) : round.Coming true envs :=
  h.imp_left fun hnone => ⟨hnone.1, Or.inr rfl⟩

theorem Round.Coming.dropped {queue rest : List (Envelope Carried)} {env : Envelope Carried}
    (h : round.Coming true (queue ++ env :: rest)) : round.Coming true (queue ++ rest) := by
  rcases h with ⟨hnone, -⟩ | ⟨other, hone, -⟩
  · simp at hnone
  · have hlength := congrArg List.length hone
    simp only [List.length_append, List.length_cons, List.length_nil] at hlength
    have hqueue : queue = [] := List.length_eq_zero_iff.mp (by omega)
    have hrest : rest = [] := List.length_eq_zero_iff.mp (by omega)
    exact Or.inl ⟨by rw [hqueue, hrest, List.append_nil], Or.inr rfl⟩

-- What is dispatched is all that was on its way.
theorem Round.Coming.head {stopping : Bool} {env : Envelope Carried}
    {rest : List (Envelope Carried)} (h : round.Coming stopping (env :: rest)) :
    round.Brings env ∧ rest = [] := by
  rcases h with ⟨hnone, -⟩ | ⟨other, hone, hbrings⟩
  · cases hnone
  · obtain ⟨rfl, hrest⟩ := List.cons.inj hone
    exact ⟨hbrings, hrest⟩

theorem Round.Timed.none (h : round.Timed a.timers) (hne : round ≠ .processing) :
    a.timers = fun _ => none := by
  unfold Round.Timed at h
  rwa [if_neg hne] at h

section Apply

variable {w : Atomic.World Key.value_type Message Place} (since : Int) {serial next : Nat}

theorem apply_write (hr : w.registry = subscribed serial next) {value : Int32}
    (hv : value ≠ (w.slots .Counter).getD 0) :
    w.applyAll Keys kMaxSubscriptions since [.set .Counter value] =
      some { w with
        slots := Function.update w.slots .Counter (some value)
        outbox := w.outbox ++ [notice serial (w.slots .Counter) value] } := by
  have hholds : w.holds Keys .Counter value = false := by
    unfold Atomic.World.holds
    cases hslot : w.slots .Counter with
    | none => rfl
    | some current =>
        rw [hslot] at hv
        exact beq_false_of_ne hv.symm
  have hnotices : w.notices Keys .Counter value = [notice serial (w.slots .Counter) value] := by
    unfold Atomic.World.notices
    rw [hr]
    simp [subscribed]
    rfl
  simp [Atomic.World.applyAll, Atomic.World.apply, hholds, hnotices]

theorem apply_process (hr : w.registry = subscribed serial next)
    (ht : w.timers = fun _ => none) :
    w.applyAll Keys kMaxSubscriptions since
        (Consumer.State.destruct .Idle ++ Consumer.State.construct .Processing) =
      some { w with registry := bare next, timers := held since } := by
  have hneg : ¬Consumer.tick.delay < 0 := by decide
  simp [Consumer.State.destruct, Consumer.State.construct, Atomic.World.applyAll,
    Atomic.World.apply, hr, ht, subscribed, Cache.Registry.step, Handle.Store.apply, bare, held,
    hneg]

theorem subscribe_bare (next : Nat) :
    (bare next).step kMaxSubscriptions
      (.subscribe .sub (Keys.type_id .Counter) kConsumer) = some (subscribed next (next + 1)) := by
  simp [subscribed, Cache.Registry.step, Handle.Store.adopt, bare, kMaxSubscriptions]

theorem apply_idle (hr : w.registry = bare next) :
    w.applyAll Keys kMaxSubscriptions since (Consumer.State.construct .Idle) =
      some { w with registry := subscribed next (next + 1) } := by
  have hroom : ¬kMaxSubscriptions ≤ w.registry.live.length := by
    rw [hr]
    exact Nat.not_succ_le_zero 3
  have hsubscribe := subscribe_bare next
  rw [← hr] at hsubscribe
  simp [Consumer.State.construct, Atomic.World.applyAll, Atomic.World.apply, hroom, hsubscribe]

theorem apply_finish (hr : w.registry = bare next) (ht : w.timers = fun _ => none) :
    w.applyAll Keys kMaxSubscriptions since
        (.send (message kConsumer kProducer .Done) ::
          (Consumer.State.destruct .Processing ++ Consumer.State.construct .Idle)) =
      some { w with
        registry := subscribed next (next + 1)
        outbox := w.outbox ++ [(message kConsumer kProducer .Done).map .other] } := by
  have hcancel : Function.update w.timers Place.timer none = w.timers := by
    rw [ht]
    exact Function.update_eq_self Place.timer _
  have hlast := apply_idle (w := { w with
    outbox := w.outbox ++ [(message kConsumer kProducer .Done).map .other] }) since hr
  simp only [Consumer.State.destruct, Atomic.World.applyAll, Atomic.World.apply,
    List.cons_append, List.nil_append, List.foldlM_cons, Option.bind_eq_bind, Option.bind_some,
    hcancel]
  exact hlast

end Apply

section Dispatch

variable {env : Envelope Carried} {rest : List (Envelope Carried)} {acts : Asked}
  {world : Atomic.World Key.value_type Message Place}

theorem dispatch_producer (hto : env.to_ = kProducer) {m : Objects}
    (hrun : Producer.handle env a.objects = .ok m acts)
    (hw : a.toWorld.applyAll Keys kMaxSubscriptions a.now acts = some world) :
    a.dispatch program kMaxSubscriptions env rest = some { a with
      toWorld := world
      queue := rest
      dispatched := a.dispatched ++ [env]
      draining := true
      objects := m } := by
  have hfind : (program.config.modules.findIdx? fun id => id = env.to_) = some 0 := by
    rw [hto]
    rfl
  have hhandle : program.handle 0 env a.slots a.objects = .ok m acts := hrun
  exact Atomic.State.dispatch_eq hfind hhandle hw

theorem dispatch_consumer (hto : env.to_ = kConsumer)
    {run : FlowRun Key.value_type Message Consumer.State}
    (hrun : Consumer.flow.step a.slots a.objects.consumer env = .ok run acts)
    (hw : a.toWorld.applyAll Keys kMaxSubscriptions a.now acts = some world) :
    a.dispatch program kMaxSubscriptions env rest = some { a with
      toWorld := world
      queue := rest
      dispatched := a.dispatched ++ [env]
      draining := true
      objects := { a.objects with consumer := run } } := by
  have hfind : (program.config.modules.findIdx? fun id => id = env.to_) = some 1 := by
    rw [hto]
    rfl
  have hhandle : program.handle 1 env a.slots a.objects =
      .ok { a.objects with consumer := run } acts := congrArg a.objects.on_consumer hrun
  exact Atomic.State.dispatch_eq hfind hhandle hw

-- The message that is dispatched takes the round to its next part.
theorem Shows.dispatch (h : Shows a round) (hq : a.queue = env :: rest) (hout : a.outbox = []) :
    ∃ b next, a.dispatch program kMaxSubscriptions env rest = some b ∧ Shows b next := by
  have hcoming := h.coming
  rw [hq, hout, List.append_nil] at hcoming
  obtain ⟨hbrings, rfl⟩ := hcoming.head
  cases hbrings with
  | bump =>
      obtain ⟨serial, next, hregistry⟩ := h.registry
      have hnew : a.objects.counter_ + 1 ≠ (a.slots .Counter).getD 0 := by
        rw [h.shown]
        grind
      have hw := apply_write (w := a.toWorld) a.now hregistry hnew
      refine ⟨_, .changed, dispatch_producer rfl rfl hw, ?_⟩
      refine { h with
        counter := ?_, shown := ?_, registry := ⟨serial, next, hregistry⟩
        timers := h.timers.none (by decide)
        coming := Or.inr ⟨notice serial (a.slots .Counter) (a.objects.counter_ + 1), ?_,
          .changed _ _ _⟩ }
      · have hcounter : a.objects.counter_ = a.objects.acks_ + 0 := h.counter
        rw [Int32.add_zero] at hcounter
        exact congrArg (· + 1) hcounter
      · simp
      · rw [hout]
        rfl
  | changed serial old value =>
      obtain ⟨live, next, hregistry⟩ := h.registry
      obtain ⟨run, hrun, hrests⟩ := FlowModule.step_rests (m := Consumer.flow) h.consumer a.slots
        (notice serial old value)
      have hw := apply_process (w := a.toWorld) a.now hregistry (h.timers.none (by decide))
      refine ⟨_, .processing, dispatch_consumer rfl hrun hw, ?_⟩
      refine { h with
        consumer := hrests, registry := ⟨next, rfl⟩, timers := ⟨a.now, rfl⟩
        coming := Or.inl ⟨?_, Or.inl rfl⟩ }
      rw [hout]
      rfl
  | tick =>
      obtain ⟨next, hregistry⟩ := h.registry
      have hnone := h.timers.none (by decide)
      obtain ⟨run, hrun, hrests⟩ := FlowModule.step_rests (m := Consumer.flow) h.consumer a.slots
        (Consumer.tick.env.map .other)
      have hw := apply_finish (w := a.toWorld) a.now hregistry hnone
      refine ⟨_, .done, dispatch_consumer rfl hrun hw, ?_⟩
      refine { h with
        consumer := hrests, registry := ⟨_, _, rfl⟩, timers := hnone
        coming := Or.inr ⟨_, ?_, Round.Brings.done⟩ }
      rw [hout]
      rfl
  | done =>
      refine ⟨_, .bump, dispatch_producer rfl rfl rfl, ?_⟩
      refine { h with
        counter := ?_, timers := h.timers.none (by decide)
        coming := Or.inr ⟨_, ?_, Round.Brings.bump⟩ }
      · have hcounter : a.objects.counter_ = a.objects.acks_ + 1 := h.counter
        exact hcounter.trans (Int32.add_zero _).symm
      · rw [hout]
        rfl

end Dispatch

-- The timer goes off when it is armed.
theorem Shows.fire (h : Shows a round) {fired : List (Place × Atomic.Armed Message)}
    (hout : a.outbox = []) (hnodup : (fired.map Prod.fst).Nodup)
    (hfired : ∀ timer ∈ fired, a.timers timer.1 = some timer.2) :
    ∃ next, Shows { a with
      timers := fun dst => if dst ∈ fired.map Prod.fst then none else a.timers dst
      outbox := fired.map fun timer => timer.2.env.map .other } next := by
  cases fired with
  | nil => exact ⟨round, { h with coming := by simpa [hout] using h.coming }⟩
  | cons timer fired =>
      obtain ⟨dst, armed⟩ := timer
      have harmed := hfired _ List.mem_cons_self
      have hround : round = .processing := by
        by_contra hne
        rw [h.timers.none hne] at harmed
        cases harmed
      subst hround
      obtain ⟨since, hsince⟩ : ∃ since, a.timers = held since := h.timers
      have hplace (other : Place × Atomic.Armed Message)
          (ho : a.timers other.1 = some other.2) :
          other.1 = .timer ∧ other.2 = ⟨since, Consumer.tick.delay, Consumer.tick.env⟩ := by
        rw [hsince, held] at ho
        by_cases htimer : other.1 = .timer
        · rw [htimer, Function.update_self] at ho
          exact ⟨htimer, (Option.some.inj ho).symm⟩
        · rw [Function.update_of_ne htimer] at ho
          cases ho
      obtain ⟨rfl, rfl⟩ := hplace _ harmed
      have hnil : fired = [] := by
        refine List.eq_nil_iff_forall_not_mem.mpr fun other ho => ?_
        have hother := (hplace other (hfired other (List.mem_cons_of_mem _ ho))).1
        exact (List.nodup_cons.mp hnodup).1 (List.mem_map.mpr ⟨other, ho, hother⟩)
      subst hnil
      have hqueue : a.queue = [] := by
        rcases h.coming with ⟨hnone, -⟩ | ⟨env, -, hbrings⟩
        · exact (List.append_eq_nil_iff.mp hnone).1
        · cases hbrings
      refine ⟨.tick, { h with timers := ?_, coming := Or.inr ⟨_, ?_, Round.Brings.tick⟩ }⟩
      · show (fun dst => if dst ∈ [Place.timer] then none else a.timers dst) = fun _ => none
        funext dst
        rw [hsince]
        cases dst <;> simp [held]
      · rw [hqueue]
        rfl

variable {b : Whole} {o : Option Whole}

-- A step that shows at most in what is on its way.
theorem Aside.frame (h : Aside a) (hphase : b.phase = a.phase) (hobjects : b.objects = a.objects)
    (hregistry : b.registry = a.registry) (hslots : b.slots = a.slots)
    (htimers : b.timers = a.timers) (hdraining : b.draining = a.draining)
    (hnil : a.queue ++ a.outbox = [] → b.queue ++ b.outbox = [])
    (hcoming : Round.bump.Coming a.stopping (a.queue ++ a.outbox) →
      Round.bump.Coming b.stopping (b.queue ++ b.outbox)) : Aside b := by
  unfold Aside at *
  rw [hphase]
  have hbooting (hb : Booting a) : Booting b :=
    ⟨hobjects ▸ hb.objects, hregistry ▸ hb.registry, hslots ▸ hb.slots, htimers ▸ hb.timers⟩
  have hdown (hd : Down a) : Down b :=
    ⟨hregistry ▸ hd.registry, htimers ▸ hd.timers, hnil hd.coming⟩
  cases hp : a.phase with
  | down =>
      rw [hp] at h
      exact hdown h
  | running started =>
      rw [hp] at h
      match started with
      | 0 => exact ⟨hbooting h.1, hnil h.2⟩
      | 1 => exact ⟨hbooting h.1, hcoming h.2⟩
      | _ + 2 => exact h
  | closing destroyed =>
      rw [hp] at h
      exact ⟨hobjects ▸ hregistry ▸ h.consumer, hdraining ▸ h.draining, hnil h.coming⟩
  | cleared =>
      rw [hp] at h
      exact hdown h

theorem Aside.not_full (h : Aside a) : a.phase ≠ .running 2 := by
  intro hp
  unfold Aside at h
  rw [hp] at h
  exact h

theorem Aside.unarmed (h : Aside a) (hdrain : a.draining = false) :
    a.timers = fun _ => none := by
  unfold Aside at h
  cases hp : a.phase with
  | down =>
      rw [hp] at h
      exact h.timers
  | running started =>
      rw [hp] at h
      match started with
      | 0 => exact h.1.timers
      | 1 => exact h.1.timers
      | _ + 2 => cases h
  | closing destroyed =>
      rw [hp] at h
      have hdraining := h.draining
      rw [hdrain] at hdraining
      cases hdraining
  | cleared =>
      rw [hp] at h
      exact h.timers

theorem on_start_producer (h : Booting a) (hcoming : a.queue ++ a.outbox = []) :
    ∃ b, Atomic.State.react program kMaxSubscriptions { a with phase := .running 1 }
      (program.on_start 0 a.slots a.objects) = some b ∧ Inv b := by
  refine ⟨_, rfl, Or.inl ⟨⟨h.objects, h.registry, h.slots, h.timers⟩,
    Or.inr ⟨_, ?_, Round.Brings.bump⟩⟩⟩
  exact (List.append_assoc _ _ _).symm.trans (congrArg (· ++ _) hcoming)

theorem on_start_consumer (h : Booting a)
    (hcoming : Round.bump.Coming a.stopping (a.queue ++ a.outbox)) :
    ∃ b, Atomic.State.react program kMaxSubscriptions { a with phase := .running 2 }
      (program.on_start 1 a.slots a.objects) = some b ∧ Inv b := by
  obtain ⟨next, hregistry⟩ := h.registry
  obtain ⟨run, hrun, hrests⟩ := Consumer.flow.start_fresh a.slots
  have hstart : program.on_start 1 a.slots a.objects =
      .ok { a.objects with consumer := run } (Consumer.State.construct .Idle) := by
    have hfresh : a.objects.consumer = .init Consumer.flow.flow := by
      rw [h.objects]
      rfl
    have := congrArg a.objects.on_consumer hrun
    rw [← hfresh] at this
    exact this
  have hw := apply_idle (w := a.toWorld) a.now hregistry
  rw [hstart]
  refine ⟨_, congrArg (Option.map _) hw, Or.inr ⟨.bump, rfl, ?_, ?_, hrests, ⟨_, _, rfl⟩, ?_,
    hcoming⟩⟩
  · rw [h.objects]
    rfl
  · simp only [h.slots, h.objects]
    rfl
  · exact h.timers

theorem destroy_consumer (h : Closing a 1) :
    ∃ b, Atomic.State.react program kMaxSubscriptions { a with phase := .closing 2 }
      (.ok a.objects (program.destroy 1 a.objects)) = some b ∧ Inv b := by
  obtain ⟨tag, hrests, hregistered⟩ := h.consumer
  have hacts : program.destroy 1 a.objects = tag.destruct := FlowModule.destroy_rests hrests
  rw [hacts]
  cases tag with
  | Idle =>
      obtain ⟨serial, next, hregistry⟩ := hregistered
      have hw : a.toWorld.applyAll Keys kMaxSubscriptions a.now
          (Consumer.State.destruct .Idle) = some { a.toWorld with registry := bare next } := by
        simp [Consumer.State.destruct, Atomic.World.applyAll, Atomic.World.apply, hregistry,
          subscribed, Cache.Registry.step, Handle.Store.apply, bare]
      exact ⟨_, congrArg (Option.map _) hw, Or.inl ⟨⟨next, rfl⟩, h.draining, h.coming⟩⟩
  | Processing => exact ⟨_, rfl, Or.inl ⟨hregistered, h.draining, h.coming⟩⟩

-- There are two modules.
theorem started_all {i : Nat} (h : i + 1 < program.config.modules.length) : i = 0 := by
  have htwo : i + 1 < 2 := h
  omega

theorem step_aside (h : Aside a) (hs : Atomic.State.Step program kMaxSubscriptions a o) :
    ∃ b, o = some b ∧ Inv b := by
  cases hs with
  | tick now hle => exact ⟨_, rfl, Or.inl (h.frame rfl rfl rfl rfl rfl rfl id id)⟩
  | foreign env hin hstop => cases hin
  | own env hin hout hdrain => cases hin
  | accept env rest hout hstop =>
      have hsame : a.queue ++ [env] ++ rest = a.queue ++ a.outbox := by simp [hout]
      exact ⟨_, rfl, Or.inl (h.frame rfl rfl rfl rfl rfl rfl (fun hnil => hsame.trans hnil)
        fun hcoming => hsame ▸ hcoming)⟩
  | drop env rest hout hstop =>
      refine ⟨_, rfl, Or.inl (h.frame rfl rfl rfl rfl rfl rfl (fun hnil => ?_)
        fun hcoming => ?_)⟩
      · simp [hout] at hnil
      · rw [hout, hstop] at hcoming
        simpa [hstop] using hcoming.dropped
  | stop =>
      exact ⟨_, rfl, Or.inl (h.frame rfl rfl rfl rfl rfl rfl id fun hcoming => hcoming.stopped)⟩
  | fire fired hout hdrain hnodup hfired =>
      have hnone : fired = [] := by
        refine List.eq_nil_iff_forall_not_mem.mpr fun timer ht => ?_
        have harmed := (hfired timer ht).1
        rw [h.unarmed hdrain] at harmed
        cases harmed
      subst hnone
      refine ⟨_, rfl, Or.inl (h.frame rfl rfl rfl rfl ?_ rfl (fun hnil => ?_) fun hcoming => ?_)⟩
      · simp
      · simpa [hout] using hnil
      · simpa [hout] using hcoming
  | dispatch env rest hp hout hq => exact absurd hp h.not_full
  | pause hp hout hq => exact absurd hp h.not_full
  | start hp hout hfree =>
      unfold Aside at h
      rw [hp] at h
      obtain ⟨next, hregistry⟩ := h.registry
      refine ⟨_, rfl, Or.inl ⟨⟨rfl, ⟨next, ?_⟩, rfl, h.timers⟩, h.coming⟩⟩
      simp only [Atomic.State.start, hregistry]
      rfl
  | stale hp howned =>
      unfold Aside at h
      rw [hp] at h
      obtain ⟨next, hregistry⟩ := h.registry
      obtain ⟨dst, slot, howns⟩ := howned
      rw [hregistry] at howns
      cases howns
  | on_start i hp hi hout =>
      unfold Aside at h
      rw [hp] at h
      cases i with
      | zero => exact on_start_producer h.1 h.2
      | succ i =>
          obtain rfl := started_all hi
          exact on_start_consumer h.1 h.2
  | discard hp hout => exact absurd hp h.not_full
  | destroy i hp hi hout =>
      unfold Aside at h
      rw [hp] at h
      cases i with
      | zero => exact ⟨_, rfl, Or.inl ⟨h.consumer, h.draining, h.coming⟩⟩
      | succ i =>
          obtain rfl := started_all hi
          exact destroy_consumer h
  | clear hp hout =>
      unfold Aside at h
      rw [hp] at h
      exact ⟨_, rfl, Or.inl ⟨h.consumer, rfl, h.coming⟩⟩
  | finish hp hout =>
      unfold Aside at h
      rw [hp] at h
      exact ⟨_, rfl, Or.inl ⟨h.registry, h.timers, h.coming⟩⟩

theorem step_shows (h : Shows a round) (hs : Atomic.State.Step program kMaxSubscriptions a o) :
    ∃ b, o = some b ∧ Inv b := by
  have hphase := h.phase
  cases hs with
  | tick now hle => exact ⟨_, rfl, Or.inr ⟨round, { h with }⟩⟩
  | foreign env hin hstop => cases hin
  | own env hin hout hdrain => cases hin
  | accept env rest hout hstop =>
      refine ⟨_, rfl, Or.inr ⟨round, { h with coming := ?_ }⟩⟩
      have hcoming := h.coming
      rw [hout] at hcoming
      simpa using hcoming
  | drop env rest hout hstop =>
      refine ⟨_, rfl, Or.inr ⟨round, { h with coming := ?_ }⟩⟩
      have hcoming := h.coming
      rw [hout, hstop] at hcoming
      simpa [hstop] using hcoming.dropped
  | stop => exact ⟨_, rfl, Or.inr ⟨round, { h with coming := h.coming.stopped }⟩⟩
  | fire fired hout hdrain hnodup hfired =>
      obtain ⟨next, hnext⟩ := h.fire hout hnodup fun timer ht => (hfired timer ht).1
      exact ⟨_, rfl, Or.inr ⟨next, hnext⟩⟩
  | dispatch env rest hp hout hq =>
      obtain ⟨b, next, hb, hnext⟩ := h.dispatch hq hout
      exact ⟨b, hb, Or.inr ⟨next, hnext⟩⟩
  | pause hp hout hq => exact ⟨_, rfl, Or.inr ⟨round, { h with }⟩⟩
  | start hp hout hfree =>
      rw [hphase] at hp
      cases hp
  | stale hp howned =>
      rw [hphase] at hp
      cases hp
  | on_start i hp hi hout =>
      obtain rfl := Atomic.Phase.running.inj (hphase.symm.trans hp)
      exact absurd hi (Nat.lt_irrefl 2)
  | discard hp hout =>
      refine ⟨_, rfl, Or.inl ⟨⟨_, h.consumer, h.registry⟩, rfl, ?_⟩⟩
      exact hout
  | destroy i hp hi hout =>
      rw [hphase] at hp
      cases hp
  | clear hp hout =>
      rw [hphase] at hp
      cases hp
  | finish hp hout =>
      rw [hphase] at hp
      cases hp

theorem inv_preserved : Atomic.State.Preserved program kMaxSubscriptions Inv := by
  intro a o h hs
  cases h with
  | inl haside => exact step_aside haside hs
  | inr hshows =>
      obtain ⟨round, hshows⟩ := hshows
      exact step_shows hshows hs

theorem inv_init : Inv (.init program) := Or.inl ⟨⟨0, rfl⟩, rfl, rfl⟩

end MinimalApp

end CortexFlow
