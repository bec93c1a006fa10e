import CortexFlow.MinimalApp.Rounds

namespace CortexFlow

namespace MinimalApp

open App Lib CortexFlow.Flow

section Count

variable {held' : Place → Option Nat} {service : TimerService Carried} {now : Int}

theorem mem_live_seqs {seq : Nat} (h : seq ∈ service.live_seqs_) :
    ∃ entry, service.IsArmed entry ∧ entry.seq = seq := by
  obtain ⟨entry, hentry, rfl⟩ := service.consistent.live seq h
  exact ⟨entry, ⟨hentry, h⟩, rfl⟩

theorem armed_count_none
    (h : Atomic.Timed .other held' service now (fun _ => none : Timers)) :
    service.armed_count = 0 := by
  refine Finset.card_eq_zero.mpr (Finset.eq_empty_iff_forall_notMem.mpr fun seq hseq => ?_)
  obtain ⟨entry, harmed, -⟩ := mem_live_seqs hseq
  obtain ⟨dst, armed, hdst, -⟩ := h.owned entry harmed
  cases hdst

theorem armed_count_held {since : Int}
    (h : Atomic.Timed .other held' service now (held since)) : service.armed_count = 1 := by
  obtain ⟨entry, harmed, hseq, -⟩ := h.armed .timer _ (Function.update_self _ _ _)
  refine Finset.card_eq_one.mpr ⟨entry.seq, Finset.ext fun seq => ?_⟩
  rw [Finset.mem_singleton]
  constructor
  · intro hlive
    obtain ⟨other, hother, rfl⟩ := mem_live_seqs hlive
    obtain ⟨dst, armed, hdst, hheld⟩ := h.owned other hother
    cases dst with
    | sub => cases hdst
    | timer => exact Option.some.inj (hheld.symm.trans hseq)
  · intro heq
    rw [heq]
    exact harmed.2

end Count

variable {τ : Type*} {s : App.State Key.value_type Message τ kMaxSubscriptions Place Objects}
  {a : Whole} {round : Round}

def told (env : Envelope Carried) : Option Message :=
  match env.payload_ with
  | .other payload => some payload
  | _ => none

def Round.carried : Round → Option Message
  | .bump => some .Bump
  | .tick => some .ProcessingTick
  | .done => some .Done
  | _ => none

theorem Round.Brings.told_eq {env : Envelope Carried} (h : round.Brings env) :
    told env = round.carried := by
  cases h <;> rfl

-- What is in the queue is what takes the round on.
theorem brings_queued (href : Atomic.Refines program s a) (h : Shows a round)
    {post : Runtime.Post Carried τ} (hp : post ∈ s.cached.runtime.queue_) :
    round.Brings post.env := by
  have hmem : post.env ∈ a.queue ++ a.outbox := by
    refine List.mem_append_left _ ?_
    rw [href.queue]
    exact List.mem_map_of_mem hp
  rcases h.coming with ⟨hnone, -⟩ | ⟨env, hone, hbrings⟩
  · rw [hnone] at hmem
    exact absurd hmem List.not_mem_nil
  · rw [hone] at hmem
    rw [List.mem_singleton.mp hmem]
    exact hbrings

theorem armed_count_eq (href : Atomic.Refines program s a) (h : Shows a round)
    (ht : s.todo = []) :
    s.cached.runtime.timers_.armed_count = if round = .processing then 1 else 0 := by
  have htimed := (href.settled ht).timed
  by_cases hround : round = .processing
  · subst hround
    obtain ⟨since, hsince⟩ : ∃ since, a.timers = held since := h.timers
    rw [hsince] at htimed
    exact armed_count_held htimed
  · rw [h.timers.none hround] at htimed
    rw [if_neg hround]
    exact armed_count_none htimed

theorem num_active_eq (href : Atomic.Refines program s a) (h : Shows a round)
    (ht : s.todo = []) :
    s.cached.cache.session.pool.num_active_ = if round.state = .Idle then 1 else 0 := by
  have hmirrors := href.settled ht
  have hlive : a.registry.live.length = if round.state = .Idle then 1 else 0 := by
    have hregistry := h.registry
    cases hstate : round.state with
    | Idle =>
        rw [hstate] at hregistry
        obtain ⟨serial, next, hregistry⟩ := hregistry
        rw [hregistry]
        rfl
    | Processing =>
        rw [hstate] at hregistry
        obtain ⟨next, hregistry⟩ := hregistry
        rw [hregistry]
        rfl
  rw [← hlive, hmirrors.registry, Cache.Session.registry, List.length_map,
    Cache.Pool.length_live hmirrors.session.wellFormed]

variable [DecidableEq τ]

theorem running_shows (hr : (App.State.machine τ program kMaxSubscriptions).Reachable s)
    (hrun : s.Running) : ∃ a round, Atomic.Refines program s a ∧ Shows a round := by
  obtain ⟨a, hI, href⟩ := inv_preserved.reachable inv_init hr
  have hplaced := href.placed
  rw [hrun.1] at hplaced
  cases hI with
  | inl haside => exact absurd (Atomic.placed_running hplaced hrun.2) haside.not_full
  | inr hshows =>
      obtain ⟨round, hshows⟩ := hshows
      exact ⟨a, round, href, hshows⟩

-- The application breaks no assertion, and nothing that its modules ask for is refused.
theorem safe_runs (hr : (App.State.machine τ program kMaxSubscriptions).Reachable s) :
    (∀ reason, s.cached.runtime.pc = .fault reason → reason ∈ Atomic.misuses) ∧
      (s.todo ≠ [] → s.cached.ready = true → ∃ t, s.step program .act = some t) := by
  exact inv_preserved.safe inv_init hr

-- The demo goes on for ever: between the calls of the modules there is always one
-- message in the queue or one timer armed, and never more, until `stop` is called.
theorem one_in_motion (hr : (App.State.machine τ program kMaxSubscriptions).Reachable s)
    (hrun : s.Running) (ht : s.todo = []) (hout : s.cached.runtime.calls .loop = .outside) :
    s.cached.runtime.queue_.length + s.cached.runtime.timers_.armed_count ≤ 1 ∧
      (s.cached.runtime.stop_requested_ = false →
        s.cached.runtime.queue_.length + s.cached.runtime.timers_.armed_count = 1) := by
  obtain ⟨a, round, href, h⟩ := running_shows hr hrun
  have hcoming := h.coming
  rw [href.outbox_nil ht hout, List.append_nil] at hcoming
  have hlength := congrArg List.length href.queue
  rw [List.length_map] at hlength
  rw [armed_count_eq href h ht, ← hlength]
  rcases hcoming with ⟨hnone, hor⟩ | ⟨env, hone, hbrings⟩
  · rw [hnone, List.length_nil, Nat.zero_add]
    refine ⟨by split_ifs <;> omega, fun hstop => ?_⟩
    rw [← href.stopping] at hstop
    exact if_pos (hor.resolve_right (by rw [hstop]; decide))
  · have hround : round ≠ .processing := by
      rintro rfl
      cases hbrings
    rw [hone, if_neg hround]
    exact ⟨le_rfl, fun _ => rfl⟩

theorem le_succ {count : Int32} (h : count ≠ Int32.maxValue) : count ≤ count + 1 := by
  have hle := count.toInt_le
  have hge := count.le_toInt
  have hne : count.toInt ≠ Int32.maxValue.toInt := fun he => h (Int32.toInt_inj.mp he)
  have hmax : Int32.maxValue.toInt = 2 ^ 31 - 1 := by decide
  rw [hmax] at hle hne
  have hone : (1 : Int32).toInt = 1 := rfl
  rw [Int32.le_iff_toInt_le, Int32.toInt_add, hone, Int.bmod_eq_of_le (by omega) (by omega)]
  omega

-- The cache shows what `Producer` has counted, and `Consumer` has acknowledged all of
-- it but the last, which it has too when the next `Bump` is in the queue.
theorem counter_acknowledged
    (hr : (App.State.machine τ program kMaxSubscriptions).Reachable s) (hrun : s.Running)
    (ht : s.todo = []) :
    (s.cached.cache.slots_ .Counter).getD 0 = s.objects.counter_ ∧
      (s.objects.counter_ = s.objects.acks_ ∨ s.objects.counter_ = s.objects.acks_ + 1) ∧
      (s.objects.acks_ ≠ Int32.maxValue → s.objects.acks_ ≤ s.objects.counter_) ∧
      (0 < s.cached.runtime.timers_.armed_count → s.objects.counter_ = s.objects.acks_ + 1) ∧
      ∀ post ∈ s.cached.runtime.queue_,
        (told post.env = some .Bump ↔ s.objects.counter_ = s.objects.acks_) := by
  obtain ⟨a, round, href, h⟩ := running_shows hr hrun
  have hcounter := h.counter
  have hshown := h.shown
  rw [href.objects] at hcounter hshown
  rw [(href.settled ht).slots] at hshown
  have hcases : s.objects.counter_ = s.objects.acks_ ∧ round = .bump ∨
      s.objects.counter_ = s.objects.acks_ + 1 ∧ round ≠ .bump := by
    cases round with
    | bump => exact Or.inl ⟨hcounter.trans (Int32.add_zero _), rfl⟩
    | changed | processing | tick | done => exact Or.inr ⟨hcounter, by decide⟩
  refine ⟨hshown, hcases.imp And.left And.left, fun hmax => ?_, fun harmed => ?_, fun post hp => ?_⟩
  · rcases hcases with ⟨hsame, -⟩ | ⟨hmore, -⟩
    · exact hsame ▸ Int32.le_refl _
    · exact hmore ▸ le_succ hmax
  · rw [armed_count_eq href h ht] at harmed
    have hround : round = .processing := by
      by_contra hne
      rw [if_neg hne] at harmed
      exact absurd harmed (Nat.lt_irrefl 0)
    rw [hcounter, hround]
    rfl
  · rw [(brings_queued href h hp).told_eq]
    rcases hcases with ⟨hsame, rfl⟩ | ⟨hmore, hne⟩
    · exact ⟨fun _ => hsame, fun _ => rfl⟩
    · refine ⟨fun htold => absurd ?_ hne, fun hsame => ?_⟩
      · cases round <;> first | rfl | cases htold
      · -- one more is another number, also where the count goes round
        rw [hsame] at hmore
        grind

-- A message for `Consumer` finds it in the state that goes on with it, and `Consumer`
-- is subscribed to the counter while it is `Idle`.
theorem never_ignored (hr : (App.State.machine τ program kMaxSubscriptions).Reachable s)
    (hrun : s.Running) (ht : s.todo = []) :
    (∀ post ∈ s.cached.runtime.queue_, post.env.to_ = kConsumer →
      (s.objects.consumer.current_.handle post.env).isSome = true) ∧
      s.cached.cache.session.pool.num_active_ =
        if s.objects.consumer.current_ = .Idle then 1 else 0 := by
  obtain ⟨a, round, href, h⟩ := running_shows hr hrun
  have hcurrent := h.consumer.current
  rw [href.objects] at hcurrent
  rw [hcurrent]
  refine ⟨fun post hp hto => ?_, num_active_eq href h ht⟩
  have hbrings := brings_queued href h hp
  generalize post.env = env at hbrings hto
  cases hbrings with
  | bump => cases hto
  | changed serial old value => rfl
  | tick => rfl
  | done => cases hto

section Example

-- The runtime starts, the counter goes to one, and the timer of `Processing` is armed.
def armedRun : List (App.Event Message Nat) :=
  .runtime .start :: steps 2 ++ acts 1 ++ posts 1 ++ steps 1 ++ acts 1 ++ steps 1 ++
    .runtime .run_one :: steps 1 ++ acts 1 ++ posts 1 ++ steps 2 ++ acts 2 ++ steps 2

-- It goes off, and its message is in the queue.
def tickRun : List (App.Event Message Nat) :=
  armedRun ++ .runtime (.tick kProcessingDelay) :: .runtime (.call .loop .fire_due) :: posts 1

-- The counter is acknowledged, and the next `Bump` is in the queue.
def roundRun : List (App.Event Message Nat) :=
  tickRun ++ .runtime .run_one :: steps 1 ++ acts 1 ++ posts 1 ++ acts 2 ++ steps 2 ++ acts 1 ++
    posts 1

-- What is in the queue, and for whom.
def queued (s : App.State Key.value_type Message Nat kMaxSubscriptions Place Objects) :
    List (type_id_t × Option Message) :=
  s.cached.runtime.queue_.map fun post => (post.env.to_, told post.env)

def reads (s : App.State Key.value_type Message Nat kMaxSubscriptions Place Objects) :
    Bool × List (type_id_t × Option Message) :=
  (s.rests, queued s)

theorem armedRun_reads : (after program kMaxSubscriptions armedRun).map reads =
    some (true, []) := by
  decide +kernel

theorem tickRun_reads : (after program kMaxSubscriptions tickRun).map reads =
    some (true, [(kConsumer, some .ProcessingTick)]) := by
  decide +kernel

theorem roundRun_reads : (after program kMaxSubscriptions roundRun).map reads =
    some (true, [(kProducer, some .Bump)]) := by
  decide +kernel

theorem safe_runs_roundRun :
    ∃ s, (App.State.machine Nat program kMaxSubscriptions).Reachable s ∧ s.Running ∧
      ∀ reason, s.cached.runtime.pc = .fault reason → reason ∈ Atomic.misuses := by
  obtain ⟨s, hr, hrun, -⟩ := of_reads roundRun_reads
  exact ⟨s, hr, hrun, (safe_runs hr).1⟩

theorem one_in_motion_armedRun :
    ∃ s, (App.State.machine Nat program kMaxSubscriptions).Reachable s ∧
      s.cached.runtime.queue_ = [] ∧ s.cached.runtime.timers_.armed_count = 1 := by
  obtain ⟨s, hr, hrun, ht, hout, hstop, hqueued⟩ := of_reads armedRun_reads
  have hnil := List.map_eq_nil_iff.mp hqueued
  have hone := (one_in_motion hr hrun ht hout).2 hstop
  rw [hnil, List.length_nil, Nat.zero_add] at hone
  exact ⟨s, hr, hnil, hone⟩

theorem counter_acknowledged_roundRun :
    ∃ s, (App.State.machine Nat program kMaxSubscriptions).Reachable s ∧
      s.objects.counter_ = s.objects.acks_ := by
  obtain ⟨s, hr, hrun, ht, -, -, hqueued⟩ := of_reads roundRun_reads
  obtain ⟨post, hpost, htold⟩ := List.map_eq_singleton_iff.mp hqueued
  refine ⟨s, hr, ((counter_acknowledged hr hrun ht).2.2.2.2 post ?_).mp (Prod.mk.inj htold).2⟩
  rw [hpost]
  exact List.mem_singleton_self post

theorem never_ignored_tickRun :
    ∃ s, (App.State.machine Nat program kMaxSubscriptions).Reachable s ∧
      ∃ post ∈ s.cached.runtime.queue_, told post.env = some .ProcessingTick ∧
        (s.objects.consumer.current_.handle post.env).isSome = true := by
  obtain ⟨s, hr, hrun, ht, -, -, hqueued⟩ := of_reads tickRun_reads
  obtain ⟨post, hpost, htold⟩ := List.map_eq_singleton_iff.mp hqueued
  obtain ⟨hto, hpayload⟩ := Prod.mk.inj htold
  have hmem : post ∈ s.cached.runtime.queue_ := by
    rw [hpost]
    exact List.mem_singleton_self post
  exact ⟨s, hr, post, hmem, hpayload, (never_ignored hr hrun ht).1 post hmem hto⟩

end Example

end MinimalApp

end CortexFlow
