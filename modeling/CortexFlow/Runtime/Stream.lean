import CortexFlow.Runtime.Pending
import CortexFlow.Runtime.Phases

namespace CortexFlow

namespace Runtime

def Drain.ofShutdown : Drain → Bool
  | .shutdown _ => true
  | _ => false

-- Within `shutdown`, from its drain on.
def Pc.shutting : Pc → Bool
  | .take drain | .handle drain => drain.ofShutdown
  | .discard | .on_stop _ | .destroy _ | .clear_timers | .clear_flags => true
  | _ => false

def Call.stops {π : Type*} : Call π → Bool
  | .stop_lock | .stop_notify => true
  | _ => false

-- Events that neither stop the runtime nor bring in an envelope with the mark.
def Op.passive {π : Type*} (marked : Envelope π → Bool) : Op π → Bool
  | .post env => !marked env
  | .arm _ env _ _ => !marked env
  | .stop => false
  | .cancel _ | .fire_due => true

def Event.passive {π τ : Type*} (marked : Envelope π → Bool) : Event π τ → Bool
  | .call _ op => op.passive marked
  | .shutdown => false
  | _ => true

theorem Pc.shutting_of_opening {pc : Pc} (h : pc.opening = true) : pc.shutting = false := by
  cases pc <;> first | rfl | exact nomatch h

@[simp] theorem Pc.shutting_notify (pc : Pc) : pc.notify.shutting = pc.shutting := by
  cases pc <;> rfl

@[simp] theorem Pc.starting_notify (pc : Pc) : pc.notify.starting = pc.starting := by
  cases pc <;> rfl

@[simp] theorem Pc.faulted_notify (pc : Pc) : pc.notify.faulted = pc.faulted := by
  cases pc <;> rfl

namespace State

variable {π τ : Type*} {config : Config} {marked : Envelope π → Bool}

-- The envelopes that came in, and then those the owning thread is about to post.
def brought (s : State π τ) : List (Envelope π) :=
  s.accepted.map Post.env ++ (s.calls .loop).envelopes

-- Nobody has stopped the runtime or shut it down, and only the owning thread is
-- about to post an envelope with the mark.
structure Undisturbed (marked : Envelope π → Bool) (s : State π τ) : Prop where
  running : s.stop_requested_ = false
  calls : ∀ caller, (s.calls caller).stops = false
  pc : s.pc.shutting = false
  discarded : s.discarded = []
  foreign : ∀ thread, ∀ env ∈ (s.calls (.foreign thread)).envelopes, marked env = false
  timers : ∀ entry, s.timers_.IsArmed entry → marked entry.envelope = false

theorem undisturbed_init : (init : State π τ).Undisturbed marked where
  running := rfl
  calls := fun _ => rfl
  pc := rfl
  discarded := rfl
  foreign := fun _ _ => nofun
  timers := fun entry h => absurd h (TimerService.isArmed_clear .init entry)

theorem undisturbed_of_same {s t : State π τ} (h : s.Undisturbed marked)
    (hl : t.toLedger = s.toLedger) (hs : t.toShared = s.toShared)
    (hpc : t.pc.shutting = false) : t.Undisturbed marked := by
  have hcalls : t.calls = s.calls := congrArg Shared.calls hs
  have htimers : t.timers_ = s.timers_ := congrArg Shared.timers_ hs
  refine ⟨?_, fun caller => ?_, hpc, ?_, fun thread => ?_, fun entry => ?_⟩
  · rw [hl]
    exact h.running
  · rw [hcalls]
    exact h.calls caller
  · rw [hl]
    exact h.discarded
  · rw [hcalls]
    exact h.foreign thread
  · rw [htimers]
    exact h.timers entry

theorem undisturbed_fail {s : State π τ} (h : s.Undisturbed marked) (reason : String) :
    (s.fail reason).Undisturbed marked :=
  undisturbed_of_same h rfl rfl rfl

theorem undisturbed_timers {s : State π τ} (h : s.Undisturbed marked) {timers : TimerService π}
    (ht : ∀ entry, timers.IsArmed entry → marked entry.envelope = false) :
    ({ s with timers_ := timers } : State π τ).Undisturbed marked :=
  ⟨h.running, h.calls, h.pc, h.discarded, h.foreign, ht⟩

theorem shutting_take {s : State π τ} {drain : Drain} (hd : drain.ofShutdown = false) :
    (s.take config drain).pc.shutting = false := by
  have hdrained : (s.drained drain).pc.shutting = false := by
    cases drain <;> first | rfl | exact nomatch hd
  unfold take
  split_ifs
  · exact hdrained
  · split
    · exact hdrained
    · simp only
      split
      · rfl
      · exact hd

theorem accepted_take (s : State π τ) (config : Config) (drain : Drain) :
    (s.take config drain).accepted = s.accepted ∧ (s.take config drain).discarded = s.discarded ∧
      (s.take config drain).stop_requested_ = s.stop_requested_ := by
  have hdrained : (s.drained drain).accepted = s.accepted ∧
      (s.drained drain).discarded = s.discarded ∧
      (s.drained drain).stop_requested_ = s.stop_requested_ := by
    cases drain <;> exact ⟨rfl, rfl, rfl⟩
  unfold take
  split_ifs
  · exact hdrained
  · split
    · exact hdrained
    · simp only
      split <;> exact ⟨rfl, rfl, rfl⟩

variable [DecidableEq τ]

theorem undisturbed_setCall {s : State π τ} (h : s.Undisturbed marked) (caller : Caller τ)
    {call : Call π} (hstop : call.stops = false)
    (hforeign : caller ≠ .loop → ∀ env ∈ call.envelopes, marked env = false) :
    (s.setCall caller call).Undisturbed marked := by
  refine ⟨h.running, fun other => ?_, h.pc, h.discarded, fun thread env hmem => ?_, h.timers⟩
  · by_cases ho : other = caller
    · subst ho
      simpa [setCall] using hstop
    · rw [calls_setCall _ ho]
      exact h.calls other
  · by_cases ho : Caller.foreign thread = caller
    · subst ho
      exact hforeign (by simp) env (by simpa [setCall] using hmem)
    · rw [calls_setCall _ ho] at hmem
      exact h.foreign thread env hmem

theorem undisturbed_post_next {s : State π τ} (h : s.Undisturbed marked) (caller : Caller τ)
    {envs : List (Envelope π)}
    (hforeign : caller ≠ .loop → ∀ env ∈ envs, marked env = false) :
    (s.post_next caller envs).Undisturbed marked := by
  cases envs with
  | nil => exact undisturbed_setCall h caller rfl fun _ => nofun
  | cons env rest =>
      have hstops : (Call.post_test env rest).stops = false := rfl
      have hcall := undisturbed_setCall h caller hstops hforeign
      exact ⟨hcall.running, hcall.calls, hcall.pc, hcall.discarded, hcall.foreign, hcall.timers⟩

theorem brought_loop (s : State π τ) (envs : List (Envelope π)) :
    (s.post_next .loop envs).brought = s.accepted.map Post.env ++ envs := by
  cases envs <;> simp [post_next, setCall, brought, Call.envelopes]

theorem brought_post_next {s : State π τ} {caller : Caller τ} {envs : List (Envelope π)}
    (h : caller = .loop → envs = (s.calls .loop).envelopes) :
    (s.post_next caller envs).brought = s.brought := by
  by_cases hc : caller = .loop
  · subst hc
    rw [brought_loop, h rfl, brought]
  · simp only [brought, ledger_post_next, calls_post_next envs (Ne.symm hc)]

-- The firing of timers brings in no envelope with the mark.
theorem undisturbed_fire_due {s : State π τ} (h : s.Undisturbed marked) (caller : Caller τ)
    (hout : s.calls caller = .outside) :
    (s.fire_due caller).Undisturbed marked ∧
      (s.fire_due caller).brought.filter marked = s.brought.filter marked := by
  obtain ⟨entries, hrecords, _, _, hmem, _⟩ :=
    TimerService.collect_spec s.now s.timers_.heap_.toList.length s.timers_ le_rfl
  have hrest := (fire_due_timers s caller).2
  unfold fire_due TimerService.fire_due at hrest ⊢
  simp only at hrest ⊢
  split_ifs at hrest ⊢
  · exact ⟨undisturbed_fail (undisturbed_timers h fun entry he => h.timers entry (hrest entry he))
      _, rfl⟩
  · simp only [timers_post_next] at hrest
    have htimers := undisturbed_timers h fun entry he => h.timers entry (hrest entry he)
    have hunmarked : ∀ env ∈ (TimerService.collect s.now s.timers_.heap_.toList.length
        s.timers_).2.map TimerService.FiringRecord.envelope, marked env = false := by
      intro env he
      rw [hrecords, List.map_map] at he
      obtain ⟨entry, hentry, rfl⟩ := List.mem_map.mp he
      exact h.timers entry ((hmem entry).mp hentry).1
    refine ⟨undisturbed_post_next htimers caller fun _ => hunmarked, ?_⟩
    by_cases hc : caller = .loop
    · subst hc
      have hnone := List.filter_eq_nil_iff.mpr fun env he => by simpa using hunmarked env he
      rw [brought_loop, List.filter_append, hnone]
      simp [brought, hout, Call.envelopes]
    · rw [brought_post_next fun he => absurd he hc]
      rfl

theorem undisturbed_begin_op {s : State π τ} (h : s.Undisturbed marked) {caller : Caller τ}
    {op : Op π} (hop : op.passive marked = true) (hout : s.calls caller = .outside) :
    (s.begin_op caller op).Undisturbed marked ∧
      (s.begin_op caller op).brought.filter marked = s.brought.filter marked := by
  cases op with
  | post env =>
      have henv : marked env = false := by simpa [Op.passive] using hop
      have hone : ∀ other ∈ [env], marked other = false := by simpa using henv
      refine ⟨undisturbed_post_next h caller fun _ => hone, ?_⟩
      by_cases hc : caller = .loop
      · subst hc
        have hnone := List.filter_eq_nil_iff.mpr fun other ho => by simpa using hone other ho
        rw [begin_op, brought_loop, List.filter_append, hnone, brought, hout]
        simp [Call.envelopes]
      · simp only [begin_op, brought_post_next fun he => absurd he hc]
  | stop => cases hop
  | arm delay env owner_name type_name =>
      have henv : marked env = false := by simpa [Op.passive] using hop
      simp only [begin_op, TimerService.arm]
      split_ifs
      · exact ⟨undisturbed_fail h _, rfl⟩
      · refine ⟨undisturbed_timers h fun entry he => ?_, rfl⟩
        cases (TimerService.isArmed_push ..).mp he with
        | inl hnew => exact hnew ▸ henv
        | inr hold => exact h.timers entry hold
  | cancel seq =>
      refine ⟨undisturbed_timers h fun entry he => ?_, rfl⟩
      exact h.timers entry ((TimerService.isArmed_cancel_by_seq ..).mp he).1
  | fire_due => exact undisturbed_fire_due h caller hout

theorem undisturbed_loop {s t : State π τ} (h : s.Undisturbed marked)
    (hout : s.calls .loop = .outside) (hs : s.loop config = some t) :
    t.Undisturbed marked ∧ t.brought.filter marked = s.brought.filter marked := by
  have hsame {u : State π τ} (hl : u.toLedger = s.toLedger) (hu : u.toShared = s.toShared)
      (hpc : u.pc.shutting = false) :
      u.Undisturbed marked ∧ u.brought.filter marked = s.brought.filter marked := by
    refine ⟨undisturbed_of_same h hl hu hpc, ?_⟩
    have hcalls : u.calls = s.calls := congrArg Shared.calls hu
    simp only [brought, hl, hcalls]
  have hnot {pc : Pc} (hp : s.pc = pc) (hpc : pc.shutting = true) : False :=
    absurd ((congrArg Pc.shutting hp).symm.trans h.pc) (by simp [hpc])
  cases loop_rule hs with
  | construct i =>
      exact hsame (ledger_begin_construct ..) (shared_begin_construct ..)
        (Pc.shutting_of_opening (opening_begin_construct ..))
  | on_start i =>
      exact hsame (ledger_begin_on_start ..) (shared_begin_on_start ..)
        (Pc.shutting_of_opening (opening_begin_on_start ..))
  | wait_lock | no_timer | timer | reading | awake | park | timed_out | again | woken | fired
  | unstopped => exact hsame rfl rfl rfl
  | returned _ _ hstop | stopped _ hstop => exact absurd (hstop.symm.trans h.running) (by simp)
  | fire hp =>
      have hfire : ({ s with pc := .firing } : State π τ).Undisturbed marked :=
        undisturbed_of_same h rfl rfl rfl
      exact undisturbed_fire_due hfire .loop hout
  | take drain hp =>
      have hd : drain.ofShutdown = false := by
        have hpc := h.pc
        rwa [hp] at hpc
      obtain ⟨haccepted, hdiscarded, hstop⟩ := accepted_take s config drain
      have hshared := shared_take s config drain
      refine ⟨⟨?_, fun caller => ?_, shutting_take hd, ?_, fun thread => ?_, fun entry => ?_⟩, ?_⟩
      · rw [hstop]
        exact h.running
      · rw [hshared]
        exact h.calls caller
      · rw [hdiscarded]
        exact h.discarded
      · rw [hshared]
        exact h.foreign thread
      · rw [hshared]
        exact h.timers entry
      · simp only [brought, haccepted, hshared]
  | handled drain hp =>
      refine hsame rfl rfl ?_
      have hpc := h.pc
      rw [hp] at hpc
      cases drain <;> first | rfl | exact nomatch hpc
  | discard hp | on_stop _ hp | destroy _ hp | clear_timers hp | clear_flags hp =>
      exact (hnot hp rfl).elim

-- As long as nobody stops the runtime, the envelopes with the mark that came in
-- or are about to are all those the owning thread began to post.
theorem undisturbed_step {s t : State π τ} {event : Event π τ} (h : s.Undisturbed marked)
    (he : event.passive marked = true) (hs : step config s event = some t) :
    t.Undisturbed marked ∧ t.brought.filter marked = s.brought.filter marked := by
  have hsame {u : State π τ} (hl : u.toLedger = s.toLedger) (hu : u.toShared = s.toShared)
      (hpc : u.pc.shutting = false) :
      u.Undisturbed marked ∧ u.brought.filter marked = s.brought.filter marked := by
    refine ⟨undisturbed_of_same h hl hu hpc, ?_⟩
    have hcalls : u.calls = s.calls := congrArg Shared.calls hu
    simp only [brought, hl, hcalls]
  have hunmarked (caller : Caller τ) (hc : caller ≠ .loop) :
      ∀ env ∈ (s.calls caller).envelopes, marked env = false := by
    cases caller with
    | loop => exact absurd rfl hc
    | foreign thread => exact h.foreign thread
  cases (step_rule hs).2 with
  | tick now => exact ⟨⟨h.running, h.calls, h.pc, h.discarded, h.foreign, h.timers⟩, rfl⟩
  | call caller op hm => exact undisturbed_begin_op h he (mayCall_outside hm)
  | post_dropped _ _ _ _ hstop | post_refused _ _ _ _ _ hstop =>
      exact absurd (hstop.symm.trans h.running) (by simp)
  | post_tested caller env rest hc =>
      have henvs := hunmarked caller
      rw [hc] at henvs
      refine ⟨undisturbed_setCall h caller rfl henvs, ?_⟩
      by_cases hl : caller = .loop
      · subst hl
        simp [brought, setCall, hc, Call.envelopes]
      · simp [brought, setCall, Function.update_of_ne (Ne.symm hl)]
  | post_pushed caller env rest hc =>
      have henvs := hunmarked caller
      rw [hc] at henvs
      have hpush : (s.push caller env).Undisturbed marked :=
        ⟨h.running, h.calls, h.pc, h.discarded, h.foreign, h.timers⟩
      refine ⟨undisturbed_setCall hpush caller rfl fun hl other ho =>
        henvs hl other (List.mem_cons_of_mem _ ho), ?_⟩
      by_cases hl : caller = .loop
      · subst hl
        simp [brought, setCall, push, hc, Call.envelopes]
      · have henv : marked env = false := henvs hl env List.mem_cons_self
        simp [brought, setCall, push, Function.update_of_ne (Ne.symm hl), henv]
  | post_notified caller rest hc =>
      have henvs := hunmarked caller
      rw [hc] at henvs
      have hnotify : s.notify.Undisturbed marked :=
        undisturbed_of_same h rfl rfl ((Pc.shutting_notify s.pc).trans h.pc)
      refine ⟨undisturbed_post_next hnotify caller henvs, ?_⟩
      rw [brought_post_next fun hl => ?_]
      · rfl
      · subst hl
        exact (congrArg Call.envelopes hc).symm
  | stop_set caller hc | stop_notified caller hc =>
      have hstops := h.calls caller
      rw [hc] at hstops
      cases hstops
  | start =>
      unfold start
      split_ifs
      · exact ⟨undisturbed_fail h _, rfl⟩
      · have hbound : ({ s with
            cache_ := true, timers_ := s.timers_.bind_post, log := [] } : State π τ).Undisturbed
            marked := ⟨h.running, h.calls, h.pc, h.discarded, h.foreign, h.timers⟩
        refine ⟨undisturbed_of_same hbound (ledger_begin_construct ..) (shared_begin_construct ..)
          (Pc.shutting_of_opening (opening_begin_construct ..)), ?_⟩
        simp only [brought, ledger_begin_construct, shared_begin_construct]
  | run | run_one =>
      exact hsame (ledger_enter ..) (shared_enter ..)
        (pc_enter s (p := fun pc => pc.shutting = false) _ _ rfl rfl)
  | shutdown => cases he
  | loop t hout hloop => exact undisturbed_loop h hout hloop
  | wake | timeout => exact hsame rfl rfl rfl

-- `start` has been called, and has come through, is under way or has failed.
def Started (s : State π τ) : Prop :=
  s.started_ = true ∨ s.pc.starting = true ∨ s.pc.faulted = true

omit [DecidableEq τ] in
theorem started_begin_on_start (s : State π τ) (i : Nat) :
    (s.begin_on_start config i).Started ∧ (s.begin_on_start config i).cache_ = s.cache_ := by
  unfold begin_on_start
  split_ifs
  · exact ⟨Or.inr (Or.inl rfl), rfl⟩
  · exact ⟨Or.inl rfl, rfl⟩

omit [DecidableEq τ] in
theorem started_begin_construct (s : State π τ) (config : Config) (left : Nat) :
    (s.begin_construct config left).Started ∧
      (s.begin_construct config left).cache_ = s.cache_ := by
  cases left with
  | zero => exact started_begin_on_start { s with modules_ := true } 0
  | succ i => exact ⟨Or.inr (Or.inl rfl), rfl⟩

omit [DecidableEq τ] in
theorem stage_take (s : State π τ) (config : Config) (drain : Drain) :
    (s.take config drain).cache_ = s.cache_ ∧ (s.take config drain).started_ = s.started_ := by
  have hdrained : (s.drained drain).cache_ = s.cache_ ∧
      (s.drained drain).started_ = s.started_ := by
    cases drain <;> exact ⟨rfl, rfl⟩
  unfold take
  split_ifs
  · exact hdrained
  · split
    · exact hdrained
    · simp only
      split <;> exact ⟨rfl, rfl⟩

omit [DecidableEq τ] in
theorem Started.of_same {s t : State π τ} (h : s.Started) (hs : t.started_ = s.started_)
    (hp : s.pc.starting = false) (hf : s.pc.faulted = false) : t.Started := by
  obtain h | h | h := h
  · exact Or.inl (hs.trans h)
  · exact absurd (hp.symm.trans h) nofun
  · exact absurd (hf.symm.trans h) nofun

theorem started_loop {s t : State π τ} (hpc : s.pc.shutting = false)
    (hf : s.pc.faulted = false) (hs : s.loop config = some t) :
    t.cache_ = s.cache_ ∧ (s.Started → t.Started) := by
  have hnot {pc : Pc} (hp : s.pc = pc) (hs : pc.shutting = true) : False :=
    absurd ((congrArg Pc.shutting hp).symm.trans hpc) (by simp [hs])
  cases loop_rule hs with
  | construct i => exact ⟨(started_begin_construct s config i).2,
        fun _ => (started_begin_construct s config i).1⟩
  | on_start i =>
      exact ⟨(started_begin_on_start s (i + 1)).2, fun _ => (started_begin_on_start s (i + 1)).1⟩
  | wait_lock hp | no_timer hp | timer _ hp | reading _ hp | awake _ hp | park _ hp
  | timed_out _ hp | again _ hp | returned hp | woken hp | fired hp | stopped hp | unstopped hp
  | handled _ hp =>
      exact ⟨rfl, fun h => h.of_same rfl (by rw [hp]; rfl) hf⟩
  | fire hp =>
      have hstage := (fire_due_frame { s with pc := .firing } .loop).2.1
      refine ⟨by rw [hstage], fun h => h.of_same (by rw [hstage]) (by rw [hp]; rfl) hf⟩
  | take drain hp =>
      obtain ⟨hcache, hstarted⟩ := stage_take s config drain
      exact ⟨hcache, fun h => h.of_same hstarted (by rw [hp]; rfl) hf⟩
  | discard hp | on_stop _ hp | destroy _ hp | clear_timers hp | clear_flags hp =>
      exact (hnot hp rfl).elim

-- Only `start` puts the cache there, and it does so once.
theorem started_step {s t : State π τ} {event : Event π τ} (h : s.Undisturbed marked)
    (he : event.passive marked = true) (hs : step config s event = some t) :
    (s.Started → t.Started) ∧
      (t.cache_ = s.cache_ ∨ event = .start ∧ s.started_ = false ∧ t.Started) ∧
      (event = .start → s.started_ = false → t.cache_ = true) := by
  obtain ⟨hf, hrule⟩ := step_rule hs
  have hsame {u : State π τ} {other : Event π τ} (hne : other ≠ .start)
      (hstage : u.toStage = s.toStage) (hstarted : s.Started → u.Started) :
      (s.Started → u.Started) ∧
        (u.cache_ = s.cache_ ∨ other = .start ∧ s.started_ = false ∧ u.Started) ∧
        (other = .start → s.started_ = false → u.cache_ = true) :=
    ⟨hstarted, Or.inl (by rw [hstage]), fun he => absurd he hne⟩
  have hpc {u : State π τ} (hstage : u.toStage = s.toStage)
      (hpc : u.pc = s.pc ∨ u.pc = s.pc.notify ∨ ∃ reason, u.pc = .fault reason) :
      s.Started → u.Started := by
    intro hstarted
    unfold Started at hstarted ⊢
    obtain hpc | hpc | ⟨reason, hpc⟩ := hpc
    · rwa [hstage, hpc]
    · rwa [hstage, hpc, Pc.starting_notify, Pc.faulted_notify]
    · exact Or.inr (Or.inr (by rw [hpc]; rfl))
  cases hrule with
  | tick | post_tested | post_pushed => exact hsame nofun rfl (hpc rfl (Or.inl rfl))
  | call caller op =>
      obtain ⟨_, hstage, hop⟩ := begin_op_frame s caller op
      exact hsame nofun hstage (hpc hstage (hop.imp_right Or.inr))
  | post_dropped caller _ rest | post_refused caller _ rest =>
      exact hsame nofun (stage_post_next ..) (hpc (stage_post_next ..) (Or.inl (pc_post_next ..)))
  | post_notified caller rest =>
      exact hsame nofun (stage_post_next ..)
        (hpc (stage_post_next ..) (Or.inr (Or.inl (pc_post_next ..))))
  | stop_set => exact hsame nofun rfl (hpc rfl (Or.inl rfl))
  | stop_notified => exact hsame nofun rfl (hpc rfl (Or.inr (Or.inl rfl)))
  | start =>
      unfold start
      split_ifs with hstarted
      · refine ⟨fun _ => Or.inl hstarted, Or.inl rfl, fun _ hno => ?_⟩
        exact absurd (hno.symm.trans hstarted) nofun
      · obtain ⟨hup, hcache⟩ := started_begin_construct ({ s with
          cache_ := true, timers_ := s.timers_.bind_post, log := [] } : State π τ)
          config config.modules.length
        exact ⟨fun _ => hup, Or.inr ⟨rfl, by simpa using hstarted, hup⟩, fun _ _ => hcache⟩
  | run htop | run_one htop =>
      have hidle := atTop_pc htop
      unfold enter
      split_ifs with hstarted
      · exact ⟨fun _ => Or.inl hstarted, Or.inl rfl, nofun⟩
      · exact ⟨fun _ => Or.inr (Or.inr rfl), Or.inl rfl, nofun⟩
  | shutdown => exact nomatch he
  | loop t _ hloop =>
      obtain ⟨hcache, hup⟩ := started_loop h.pc hf hloop
      exact ⟨hup, Or.inl hcache, nofun⟩
  | wake wait notified hp | timeout _ _ notified hp =>
      exact ⟨fun hup => hup.of_same rfl (by rw [hp]; rfl) hf, Or.inl rfl, nofun⟩

end State

end Runtime

end CortexFlow
