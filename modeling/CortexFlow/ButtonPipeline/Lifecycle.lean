import CortexFlow.ButtonPipeline.Wiring

namespace CortexFlow

namespace ButtonPipeline

open App Lib CortexFlow.Flow

def IsRaw (env : Envelope Carried) : Prop :=
  ∃ from_ pressed, env = (message from_ kDebouncer (.RawTransition pressed)).map .other

-- Only inputs are on their way, and no timer can go off.
structure Outside (a : Atomic.State Key.value_type Message Place Objects) : Prop where
  inputs : ∀ env ∈ a.queue ++ a.outbox, IsRaw env
  idle : a.draining = false ∨ a.phase = .cleared → ∀ place, a.timers place = none

-- The modules below `started` have been started.
structure Booted (a : Atomic.State Key.value_type Message Place Objects) (started : Nat) :
    Prop where
  debouncer : if 1 < started then FlowModule.Rests a.objects.debouncer .Settled
    else a.objects.debouncer = .init Debouncer.flow.flow
  classifier : if 2 < started then
      FlowModule.Rests a.objects.classifier .Idle ∧
        ∃ serial next, a.registry = subscribed serial next
    else a.objects.classifier = .init ClickClassifier.flow.flow ∧ ∃ next, a.registry = bare next
  ui : if 3 < started then
      FlowModule.Rests a.objects.ui .Idle ∧ a.slots .UiMode_Key = some UiMode.Idle
    else a.objects.ui = .init UiController.flow.flow
  level : a.slots .DebouncedButtonState = none

-- The modules from `destroyed` on are still alive.
structure Alive (a : Atomic.State Key.value_type Message Place Objects) (destroyed : Nat) :
    Prop where
  debouncer : destroyed ≤ 1 → ∃ tag, FlowModule.Rests a.objects.debouncer tag
  classifier : destroyed ≤ 2 → ∃ tag, FlowModule.Rests a.objects.classifier tag
  ui : destroyed ≤ 3 → ∃ tag, FlowModule.Rests a.objects.ui tag
  registry : if destroyed ≤ 2 then ∃ serial next, a.registry = subscribed serial next
    else ∃ next, a.registry = bare next

-- The pipeline is not running.
def Between (a : Atomic.State Key.value_type Message Place Objects) : Prop :=
  match a.phase with
  | .down => (∃ next, a.registry = bare next) ∧ a.dispatched = [] ∧ a.draining = false
  | .running started => started < 4 ∧ Booted a started ∧ a.dispatched = [] ∧ a.draining = false
  | .closing destroyed => Alive a destroyed ∧ a.draining = true
  | .cleared => (∃ next, a.registry = bare next) ∧ a.draining = true

def Aside (a : Atomic.State Key.value_type Message Place Objects) : Prop := Outside a ∧ Between a

-- A pipeline in which nothing has happened.
def Pipeline.first (stopping : Bool) (now : Int) : Pipeline :=
  ⟨.Settled, .Idle, .Idle, false, fun _ => none, [], [], false, stopping, now⟩

-- A step leaves the pipeline aside, or was the last one of `start`.
def Enters (now : Int) (o : Option (Atomic.State Key.value_type Message Place Objects)) : Prop :=
  ∃ b, o = some b ∧ now ≤ b.now ∧ (Aside b ∨ Shows b (.first b.stopping b.now))

-- The pipeline has the property, or had it when it was last running.
def Inv (P : Pipeline → Prop) (a : Atomic.State Key.value_type Message Place Objects) : Prop :=
  (Aside a ∧ ∃ g, P g ∧ g.now ≤ a.now) ∨ ∃ g, Shows a g ∧ P g

variable {a b : Atomic.State Key.value_type Message Place Objects}

theorem Between.frame (h : Between a) (hphase : b.phase = a.phase)
    (hregistry : b.registry = a.registry) (hslots : b.slots = a.slots)
    (hobjects : b.objects = a.objects) (hdispatched : b.dispatched = a.dispatched)
    (hdraining : b.draining = a.draining) : Between b := by
  unfold Between at *
  rw [hphase, hregistry, hdispatched, hdraining]
  cases hp : a.phase with
  | down => simpa only [hp] using h
  | running started =>
      simp only [hp] at h
      refine ⟨h.1, ?_, h.2.2⟩
      obtain ⟨hdebouncer, hclassifier, hui, hlevel⟩ := h.2.1
      exact ⟨hobjects ▸ hdebouncer, hobjects ▸ hregistry ▸ hclassifier, hobjects ▸ hslots ▸ hui,
        hslots ▸ hlevel⟩
  | closing destroyed =>
      simp only [hp] at h
      obtain ⟨hdebouncer, hclassifier, hui, hlive⟩ := h.1
      exact ⟨⟨hobjects ▸ hdebouncer, hobjects ▸ hclassifier, hobjects ▸ hui, hregistry ▸ hlive⟩,
        h.2⟩
  | cleared => simpa only [hp] using h

theorem fresh_first (stopping : Bool) (now : Int) : (Pipeline.first stopping now).Fresh :=
  ⟨rfl, rfl, rfl, rfl, fun _ => rfl, rfl, rfl⟩

theorem aside_init : Aside (.init program) :=
  ⟨⟨fun _ he => absurd he List.not_mem_nil, fun _ _ => rfl⟩, ⟨0, rfl⟩, rfl, rfl⟩

theorem input_raw {env : Envelope Message} (h : input env = true) : IsRaw (env.map .other) := by
  obtain ⟨from_, pressed, rfl⟩ := input_eq h
  exact ⟨from_, pressed, rfl⟩

theorem IsRaw.posted {env : Envelope Carried} (h : IsRaw env) : Posted env := by
  obtain ⟨from_, pressed, rfl⟩ := h
  exact .raw from_ pressed

theorem signals_of_raw {envs : List (Envelope Carried)} (h : ∀ env ∈ envs, IsRaw env) :
    signals envs = [] := by
  refine List.filterMap_eq_nil_iff.mpr fun env he => ?_
  obtain ⟨from_, pressed, rfl⟩ := h env he
  rfl

theorem Between.not_full (h : Between a) : a.phase ≠ .running 4 := by
  intro hp
  simp only [Between, hp] at h
  exact absurd h.1 (Nat.lt_irrefl 4)

theorem on_start_booted (h : Outside a) {started : Nat} (hp : a.phase = .running started)
    (hs : started < 4) (hb : Booted a started) (hd : a.dispatched = [])
    (hdrain : a.draining = false) (hout : a.outbox = []) :
    Enters a.now (Atomic.State.react program kMaxSubscriptions
      { a with phase := .running (started + 1) } (program.on_start started a.slots a.objects)) := by
  obtain ⟨hdebouncer, hclassifier, hui, hlevel⟩ := hb
  have hidle := h.idle (Or.inl hdrain)
  match started, hs with
  | 0, _ =>
      refine ⟨_, rfl, le_rfl, Or.inl ⟨⟨h.inputs, fun _ => hidle⟩, (by omega : 1 < 4), ?_, hd,
        hdrain⟩⟩
      exact ⟨hdebouncer, hclassifier, hui, hlevel⟩
  | 1, _ =>
      rw [if_neg (by omega)] at hdebouncer
      obtain ⟨run, hrun, hrests⟩ := Debouncer.flow.start_fresh a.slots
      have hstart : program.on_start 1 a.slots a.objects =
          .ok { a.objects with debouncer := run } [] := by
        have := congrArg a.objects.on_debouncer hrun
        rw [← hdebouncer] at this
        exact this
      rw [hstart]
      refine ⟨_, rfl, le_rfl, Or.inl ⟨⟨h.inputs, fun _ => hidle⟩, (by omega : 2 < 4), ?_, hd,
        hdrain⟩⟩
      exact ⟨hrests, hclassifier, hui, hlevel⟩
  | 2, _ =>
      rw [if_neg (by omega)] at hclassifier
      obtain ⟨hfresh, next, hregistry⟩ := hclassifier
      obtain ⟨run, hrun, hrests⟩ := ClickClassifier.flow.start_fresh a.slots
      have hstart : program.on_start 2 a.slots a.objects =
          .ok { a.objects with classifier := run } (ClickClassifier.State.construct .Idle) := by
        have := congrArg a.objects.on_classifier hrun
        rw [← hfresh] at this
        exact this
      have hw := apply_construct a.now hregistry .Idle nofun
      rw [hstart]
      refine ⟨_, congrArg (Option.map _) hw, le_rfl, Or.inl ⟨⟨h.inputs, fun _ place => ?_⟩,
        (by omega : 3 < 4), ?_, hd, hdrain⟩⟩
      · exact hidle place
      · exact ⟨hdebouncer, ⟨hrests, _, _, rfl⟩, hui, hlevel⟩
  | 3, _ =>
      rw [if_neg (by omega)] at hui
      rw [if_pos (by omega)] at hdebouncer hclassifier
      obtain ⟨hclassifier, serial, next, hregistry⟩ := hclassifier
      obtain ⟨run, hrun, hrests⟩ := UiController.flow.start_fresh a.slots
      have hstart : program.on_start 3 a.slots a.objects =
          .ok { a.objects with ui := run } [.set .UiMode_Key UiMode.Idle] := by
        have := congrArg a.objects.on_ui hrun
        rw [← hui] at this
        exact this
      have hw := apply_mode (w := a.toWorld) a.now (by rw [hregistry]; rfl) .Idle
      rw [hstart]
      have hqueue : signals a.queue = [] :=
        signals_of_raw fun env he => h.inputs env (List.mem_append_left _ he)
      refine ⟨_, congrArg (Option.map _) hw, le_rfl, Or.inr ?_⟩
      refine ⟨rfl, hdebouncer, hclassifier, hrests, ⟨serial, next, hregistry⟩, ?_, ?_, hidle,
        fun env he => (h.inputs env he).posted, ?_, ?_, hdrain, rfl, rfl⟩
      · simp [hlevel, Pipeline.first]
      · simp [Pipeline.first, UiController.State.mode]
      · rw [signals_coming, hqueue, hout]
        simp [Pipeline.first]
      · rw [hd]
        rfl

theorem destroy_alive (h : Outside a) {destroyed : Nat} (hs : destroyed < 4)
    (hl : Alive a destroyed) (hdrain : a.draining = true) :
    Enters a.now (Atomic.State.react program kMaxSubscriptions
      { a with phase := .closing (destroyed + 1) }
        (.ok a.objects (program.destroy destroyed a.objects))) := by
  obtain ⟨hdebouncer, hclassifier, hui, hregistry⟩ := hl
  have hidle (timers : Place → Option (Atomic.Armed Message)) {closed : Nat} :
      a.draining = false ∨ Atomic.Phase.closing closed = .cleared → ∀ place, timers place = none :=
    fun hor => hor.elim (fun hd => nomatch hdrain.symm.trans hd) nofun
  match destroyed, hs with
  | 0, _ =>
      exact ⟨_, rfl, le_rfl, Or.inl ⟨⟨h.inputs, hidle _⟩,
        ⟨fun _ => hdebouncer (by omega), fun _ => hclassifier (by omega),
          fun _ => hui (by omega), hregistry⟩, hdrain⟩⟩
  | 1, _ =>
      obtain ⟨tag, htag⟩ := hdebouncer le_rfl
      have hacts : program.destroy 1 a.objects = Debouncer.flow.destruct tag :=
        FlowModule.destroy_rests htag
      rw [hacts]
      have hlast (timers : Place → Option (Atomic.Armed Message)) :
          Aside { a with phase := .closing 2, timers := timers } :=
        ⟨⟨h.inputs, hidle timers⟩, ⟨fun hle => absurd hle (by omega),
            fun _ => hclassifier (by omega), fun _ => hui (by omega), hregistry⟩, hdrain⟩
      cases tag with
      | Settled => exact ⟨_, rfl, le_rfl, Or.inl (hlast a.timers)⟩
      | CoolingDown => exact ⟨_, rfl, le_rfl, Or.inl (hlast _)⟩
  | 2, _ =>
      obtain ⟨tag, htag⟩ := hclassifier le_rfl
      rw [if_pos le_rfl] at hregistry
      obtain ⟨serial, next, hregistry⟩ := hregistry
      have hacts : program.destroy 2 a.objects = tag.destruct := FlowModule.destroy_rests htag
      have hw := apply_destruct a.now hregistry tag
      rw [hacts]
      exact ⟨_, congrArg (Option.map _) hw, le_rfl, Or.inl ⟨⟨h.inputs, hidle _⟩,
        ⟨fun hle => absurd hle (by omega), fun hle => absurd hle (by omega),
          fun _ => hui (by omega), next, rfl⟩, hdrain⟩⟩
  | 3, _ =>
      obtain ⟨tag, htag⟩ := hui le_rfl
      have hacts : program.destroy 3 a.objects = [] := FlowModule.destroy_rests htag
      rw [hacts]
      exact ⟨_, rfl, le_rfl, Or.inl ⟨⟨h.inputs, hidle _⟩,
        ⟨fun hle => absurd hle (by omega), fun hle => absurd hle (by omega),
          fun hle => absurd hle (by omega), hregistry⟩, hdrain⟩⟩

theorem step_outside {o : Option (Atomic.State Key.value_type Message Place Objects)}
    (h : Outside a) (hb : Between a) (hs : Atomic.State.Step program kMaxSubscriptions a o) :
    Enters a.now o := by
  cases hs with
  | tick now hle =>
      exact ⟨_, rfl, hle, Or.inl ⟨⟨h.inputs, h.idle⟩, hb.frame rfl rfl rfl rfl rfl rfl⟩⟩
  | foreign env hin hstop =>
      refine ⟨_, rfl, le_rfl, Or.inl ⟨⟨fun other ho => ?_, h.idle⟩,
        hb.frame rfl rfl rfl rfl rfl rfl⟩⟩
      rw [List.append_assoc] at ho
      cases List.mem_append.mp ho with
      | inl hold => exact h.inputs other (List.mem_append_left _ hold)
      | inr hnew =>
          cases List.mem_cons.mp hnew with
          | inl heq => exact heq ▸ input_raw hin
          | inr hlast => exact h.inputs other (List.mem_append_right _ hlast)
  | own env hin hout hdrain =>
      refine ⟨_, rfl, le_rfl, Or.inl ⟨⟨fun other ho => ?_, h.idle⟩,
        hb.frame rfl rfl rfl rfl rfl rfl⟩⟩
      cases List.mem_append.mp ho with
      | inl hold => exact h.inputs other (List.mem_append_left _ hold)
      | inr hnew => exact List.mem_singleton.mp hnew ▸ input_raw hin
  | accept env rest hout hstop =>
      refine ⟨_, rfl, le_rfl, Or.inl ⟨⟨fun other ho => h.inputs other ?_, h.idle⟩,
        hb.frame rfl rfl rfl rfl rfl rfl⟩⟩
      rw [hout]
      simpa using ho
  | drop env rest hout hstop =>
      refine ⟨_, rfl, le_rfl, Or.inl ⟨⟨fun other ho => h.inputs other ?_, h.idle⟩,
        hb.frame rfl rfl rfl rfl rfl rfl⟩⟩
      rw [hout]
      cases List.mem_append.mp ho with
      | inl hold => exact List.mem_append_left _ hold
      | inr hnew => exact List.mem_append_right _ (List.mem_cons_of_mem _ hnew)
  | stop => exact ⟨_, rfl, le_rfl, Or.inl ⟨⟨h.inputs, h.idle⟩, hb.frame rfl rfl rfl rfl rfl rfl⟩⟩
  | fire fired hout hdrain hnodup hfired =>
      have hnone : fired = [] := by
        refine List.eq_nil_iff_forall_not_mem.mpr fun timer ht => ?_
        exact nomatch (h.idle (Or.inl hdrain) timer.1).symm.trans (hfired timer ht).1
      subst hnone
      refine ⟨_, rfl, le_rfl, Or.inl ⟨⟨fun env he => h.inputs env ?_, h.idle⟩,
        hb.frame rfl rfl rfl rfl rfl rfl⟩⟩
      rw [hout]
      exact he
  | dispatch env rest hp hout hq => exact absurd hp hb.not_full
  | pause hp hout hq => exact absurd hp hb.not_full
  | start hp hout hfree =>
      simp only [Between, hp] at hb
      obtain ⟨⟨next, hregistry⟩, hd, hdrain⟩ := hb
      refine ⟨_, rfl, le_rfl, Or.inl ⟨⟨h.inputs, fun _ => h.idle (Or.inl hdrain)⟩,
        (by omega : 0 < 4), ⟨rfl, ⟨rfl, next, ?_⟩, rfl, rfl⟩, hd, hdrain⟩⟩
      simp only [Atomic.State.start, hregistry]
      rfl
  | stale hp howned =>
      simp only [Between, hp] at hb
      obtain ⟨⟨next, hregistry⟩, -⟩ := hb
      obtain ⟨dst, slot, howns⟩ := howned
      rw [hregistry] at howns
      cases howns
  | on_start i hp hi hout =>
      simp only [Between, hp] at hb
      exact on_start_booted h hp hb.1 hb.2.1 hb.2.2.1 hb.2.2.2 hout
  | discard hp hout => exact absurd hp hb.not_full
  | destroy i hp hi hout =>
      simp only [Between, hp] at hb
      exact destroy_alive h hi hb.1 hb.2
  | clear hp hout =>
      simp only [Between, hp] at hb
      exact ⟨_, rfl, le_rfl, Or.inl ⟨⟨h.inputs, fun _ _ => rfl⟩, hb.1.registry, hb.2⟩⟩
  | finish hp hout =>
      simp only [Between, hp] at hb
      exact ⟨_, rfl, le_rfl, Or.inl ⟨⟨h.inputs, fun _ => h.idle (Or.inr hp)⟩, hb.1, rfl, rfl⟩⟩

-- A running pipeline goes on or is shut down.
theorem step_shows {o : Option (Atomic.State Key.value_type Message Place Objects)} {g : Pipeline}
    (h : Shows a g) (hg : g.Sound) (hs : Atomic.State.Step program kMaxSubscriptions a o) :
    Moves g o ∨ ∃ b, o = some b ∧ b.phase = .closing 0 ∧ b.objects = a.objects ∧
      a.now ≤ b.now ∧ Aside b := by
  have hphase := h.phase
  cases hs with
  | tick now hle =>
      exact Or.inl ⟨_, rfl, Or.inr ⟨_, .tick now (h.now ▸ hle), { h with now := rfl }⟩⟩
  | foreign env hin hstop => exact Or.inl ⟨_, rfl, Or.inl (h.foreign hin)⟩
  | own env hin hout hdrain => exact Or.inl ⟨_, rfl, Or.inl (h.own hin hout)⟩
  | accept env rest hout hstop => exact Or.inl ⟨_, rfl, Or.inl (h.accept hout hstop)⟩
  | drop env rest hout hstop => exact Or.inl ⟨_, rfl, Or.inl (h.drop hout hstop)⟩
  | stop =>
      have hprefix : signals a.queue <+: g.coming := by
        rw [← h.coming, signals_coming]
        exact List.prefix_append _ _
      refine Or.inl ⟨_, rfl, Or.inr ⟨_, .stop _ hprefix, { h with coming := ?_, stopping := rfl }⟩⟩
      simp [signals_coming]
  | fire fired hout hdrain hnodup hfired =>
      exact Or.inl (h.fire hout hdrain hnodup hfired)
  | dispatch env rest hp hout hq => exact Or.inl (h.dispatch hq hout hg)
  | pause hp hout hq =>
      have hnone : g.coming = [] := by
        rw [← h.coming, signals_coming, hq, hout]
        simp
      exact Or.inl ⟨_, rfl, Or.inr ⟨_, .rest hnone, { h with draining := rfl }⟩⟩
  | start hp hout hfree => exact nomatch hphase.symm.trans hp
  | stale hp howned => exact nomatch hphase.symm.trans hp
  | on_start i hp hi hout =>
      obtain rfl := Atomic.Phase.running.inj (hphase.symm.trans hp)
      exact absurd hi (Nat.lt_irrefl 4)
  | discard hp hout =>
      refine Or.inr ⟨_, rfl, rfl, rfl, le_rfl, ⟨fun env he => ?_, ?_⟩, ⟨fun _ => ⟨_, h.debouncer⟩,
        fun _ => ⟨_, h.classifier⟩, fun _ => ⟨_, h.ui⟩, h.registry⟩, rfl⟩
      · rw [hout] at he
        exact absurd he List.not_mem_nil
      · exact fun hor => hor.elim nofun nofun
  | destroy i hp hi hout => exact nomatch hphase.symm.trans hp
  | clear hp hout => exact nomatch hphase.symm.trans hp
  | finish hp hout => exact nomatch hphase.symm.trans hp

-- A property that lasts is kept by every step of the application.
theorem inv_preserved {P : Pipeline → Prop} (hP : Pipeline.Lasting P) :
    Atomic.State.Preserved program kMaxSubscriptions (Inv P) := by
  intro a o h hs
  cases h with
  | inl hrest =>
      obtain ⟨haside, g, hg, hnow⟩ := hrest
      obtain ⟨b, hb, hlater, hnext⟩ := step_outside haside.1 haside.2 hs
      refine ⟨b, hb, ?_⟩
      cases hnext with
      | inl haside => exact Or.inl ⟨haside, g, hg, hnow.trans hlater⟩
      | inr hfirst =>
          exact Or.inr ⟨_, hfirst, hP.restart g _ hg (fresh_first _ _) (hnow.trans hlater)⟩
  | inr hrunning =>
      obtain ⟨g, hshows, hg⟩ := hrunning
      cases step_shows hshows (hP.sound g hg) hs with
      | inl hmoves =>
          obtain ⟨b, hb, hnext⟩ := hmoves
          refine ⟨b, hb, Or.inr ?_⟩
          cases hnext with
          | inl hsame => exact ⟨g, hsame, hg⟩
          | inr hmove =>
              obtain ⟨next, hstep, hshows⟩ := hmove
              exact ⟨next, hshows, hP.step g next hg hstep⟩
      | inr hleaves =>
          obtain ⟨b, hb, -, -, hnow, haside⟩ := hleaves
          exact ⟨b, hb, Or.inl ⟨haside, g, hg, hshows.now.symm.trans_le hnow⟩⟩

theorem inv_init {P : Pipeline → Prop} (hP : ∀ g, Pipeline.Fresh g → P g) :
    Inv P (.init program) :=
  Or.inl ⟨aside_init, .first false 0, hP _ (fresh_first _ _), le_rfl⟩

end ButtonPipeline

end CortexFlow
