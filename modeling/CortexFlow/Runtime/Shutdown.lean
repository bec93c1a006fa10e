import CortexFlow.Runtime.Phases

namespace CortexFlow

namespace Runtime

-- Where the owning thread can be inside a call.
def Pc.callsOut : Pc → Bool
  | .firing | .fault _ => true
  | pc => pc.inUserCode

@[simp] theorem Pc.callsOut_notify (pc : Pc) : pc.notify.callsOut = pc.callsOut := by
  cases pc <;> rfl

theorem Pc.callsOut_of_inUserCode {pc : Pc} (h : pc.inUserCode = true) : pc.callsOut = true := by
  cases pc <;> first | rfl | exact nomatch h

-- Calls into modules are those of one lifecycle in its order, with no more
-- envelopes dispatched by `shutdown` than its budget.
def Ordered {π τ : Type*} (config : Config) (log : List (LogEvent π τ)) : Prop :=
  ∃ before drained rest,
    log <+: LogEvent.lifecycle config.modules.length before drained rest ∧
      drained.length ≤ config.kDrainBudget

namespace State

open LogEvent

variable {π τ : Type*} {config : Config} {quiet : Prop}

def Seated (s : State π τ) : Prop := s.pc.callsOut = false → s.calls .loop = .outside

theorem Seated.frame {s t : State π τ} (h : s.Seated) {caller : Caller τ}
    (hpc : t.pc.callsOut = s.pc.callsOut) (hc : s.calls caller ≠ .outside)
    (ho : ∀ other ≠ caller, t.calls other = s.calls other) : t.Seated := by
  intro hout
  have hloop := h (hpc ▸ hout)
  have hne : .loop ≠ caller := by
    intro he
    exact hc (he ▸ hloop)
  exact (ho _ hne).trans hloop

theorem atTop_calls {s : State π τ} (h : s.atTop = true) : s.calls .loop = .outside := by
  simp only [atTop, Bool.and_eq_true] at h
  have hm : s.mayCall .loop = true := h.1
  exact mayCall_outside hm

-- No other thread posts between the last look of a drain at the queue and the
-- discard.
def quietly (s : State π τ) : Event π τ → Bool
  | .advance (.foreign thread) =>
      match s.calls (.foreign thread) with
      | .post_lock _ _ => s.stop_requested_ || s.pc ≠ .discard
      | _ => true
  | _ => true

structure Phased (config : Config) (quiet : Prop) (s : State π τ) : Prop where
  ordered : Ordered config s.log
  rested : s.pc = .idle → s.started_ = false → s.dispatched = [] ∧ s.discarded = []
  progress : s.pc.faulted = false → (s.pc = .idle → s.started_ = true) →
    ∃ before drained rest, s.Progress config quiet before drained rest

theorem phased_init : (init : State π τ).Phased config quiet where
  ordered := ⟨[], [], [], List.nil_prefix, Nat.zero_le _⟩
  rested := fun _ _ => ⟨rfl, rfl⟩
  progress := fun _ h => nomatch h rfl

theorem phased_of_progress {s : State π τ} {before drained : List (Post π τ × Nat)}
    {rest : List (Post π τ)} (h : s.Progress config quiet before drained rest) :
    s.Phased config quiet where
  ordered := ⟨before, drained, rest, h.log ▸ upTo_prefix_lifecycle rest h.placed,
    Pc.placed_le h.placed⟩
  rested := by
    intro hp hs
    have hstarted := h.started
    rw [hp] at hstarted
    exact nomatch hs.symm.trans hstarted
  progress := fun _ _ => ⟨before, drained, rest, h⟩

theorem phased_of_fault {s t : State π τ} (h : Ordered config s.log) (hlog : t.log = s.log)
    (hf : t.pc.faulted = true) : t.Phased config quiet where
  ordered := hlog ▸ h
  rested := by
    intro hp
    rw [hp] at hf
    exact nomatch hf
  progress := fun hf' => nomatch hf.symm.trans hf'

theorem Phased.frame {s t : State π τ} (h : s.Phased config quiet)
    (hstage : t.toStage = s.toStage) (hdispatched : t.dispatched = s.dispatched)
    (hdiscarded : t.discarded = s.discarded) (hpc : t.pc = s.pc)
    (hq : quiet → s.pc = .discard → t.queue_ = s.queue_) : t.Phased config quiet := by
  refine ⟨hstage ▸ h.ordered, ?_, ?_⟩
  · rw [hpc, hstage, hdispatched, hdiscarded]
    exact h.rested
  · intro hf hidle
    rw [hpc] at hf hidle
    rw [hstage] at hidle
    obtain ⟨before, drained, rest, hs⟩ := h.progress hf hidle
    refine ⟨before, drained, rest, ?_, hdispatched.trans hs.dispatched,
      hdiscarded.trans hs.discarded, ?_, ?_, hpc ▸ hs.placed, ?_, hs.spent⟩
    · rw [hstage, hpc, hs.log]
    · rw [hstage, hpc, hs.started]
    · rw [hpc, hdispatched]
      exact hs.early
    · intro hquiet hp hne
      rw [hpc] at hp
      exact hs.waits hquiet hp (hq hquiet hp ▸ hne)

-- A step from one place of a running system to another.
theorem Phased.running {s t : State π τ} (h : s.Phased config quiet) (hs : s.pc.running = true)
    (ht : t.pc.running = true) (hidle : s.pc = .idle → s.started_ = true)
    (hstage : t.toStage = s.toStage) (hdispatched : t.dispatched = s.dispatched)
    (hdiscarded : t.discarded = s.discarded) : t.Phased config quiet := by
  have hf : s.pc.faulted = false := by
    cases hp : s.pc <;> rw [hp] at hs <;> first | rfl | exact nomatch hs
  obtain ⟨before, drained, rest, hprogress⟩ := h.progress hf hidle
  exact phased_of_progress (progress_running hprogress hs ht hstage hdispatched hdiscarded)

theorem phased_notify {s : State π τ} (h : s.Phased config quiet) :
    s.notify.Phased config quiet := by
  cases hp : s.pc with
  | parked wait notified =>
      exact h.running (by rw [hp]; rfl) (by simp only [notify, hp]; rfl) (by simp [hp]) rfl rfl rfl
  | _ => exact h.frame rfl rfl rfl (by simp only [notify, hp]; rfl) fun _ _ => rfl

theorem phased_start {s : State π τ} (h : s.Phased config quiet) (hp : s.pc = .idle) :
    (s.start config).Phased config quiet := by
  unfold start
  split_ifs with hstarted
  · exact phased_of_fault h.ordered rfl rfl
  · have hstarted : s.started_ = false := by simpa using hstarted
    obtain ⟨hdispatched, hdiscarded⟩ := h.rested hp hstarted
    refine phased_of_progress (progress_begin_construct le_rfl ?_ hstarted hdispatched hdiscarded)
    simp [constructs]

theorem phased_shutdown {s : State π τ} (h : s.Phased config quiet) (hp : s.pc = .idle)
    (hstarted : s.started_ = true) :
    ({ s.note [.shutdown] with pc := .take (.shutdown 0) } : State π τ).Phased config quiet := by
  obtain ⟨before, drained, rest, hs⟩ := h.progress (by rw [hp]; rfl) fun _ => hstarted
  obtain ⟨hlog, hdispatched, hdiscarded, _, _, hplaced, _, hspent⟩ := hs
  rw [hp] at hlog hplaced
  have hnone := List.eq_nil_of_length_eq_zero hplaced
  subst hnone
  refine phased_of_progress ⟨?_, hdispatched, hdiscarded, hstarted, nofun, ⟨rfl, Nat.zero_le _⟩,
    fun _ => nofun, hspent⟩
  simp [note, hlog, upTo, drain, dispatches]

theorem phased_enter {s : State π τ} (h : s.Phased config quiet) (hp : s.pc = .idle) {pc : Pc}
    (hpc : pc.running = true) (reason : String) :
    (s.enter pc [] reason).Phased config quiet := by
  unfold enter
  split_ifs with hstarted
  · refine h.running (by rw [hp]; rfl) hpc (fun _ => hstarted) ?_ rfl rfl
    simp [note]
  · exact phased_of_fault h.ordered rfl rfl

theorem log_begin_on_stop (s : State π τ) (config : Config) (left : Nat) :
    s.log <+: (s.begin_on_stop config left).log := by
  cases left with
  | zero =>
      simp only [begin_on_stop, begin_destroy]
      split_ifs
      · exact List.prefix_append ..
      · exact List.prefix_rfl
  | succ => exact List.prefix_append ..

-- The discard traces and throws away what is in the queue, if anything is.
theorem discard_log (s : State π τ) (config : Config) :
    s.log ++ verdict s.queue_ <+: (s.discard config).log := by
  unfold discard
  split
  · rename_i hq
    rw [hq, verdict, List.append_nil]
    exact log_begin_on_stop ..
  · rename_i post queue hq
    rw [hq]
    refine List.IsPrefix.trans ?_ (log_begin_on_stop ..)
    exact List.prefix_rfl

variable [DecidableEq τ]

theorem seated_step {s t : State π τ} {event : Event π τ} (h : s.Seated)
    (hs : step config s event = some t) : t.Seated := by
  cases (step_rule hs).2 with
  | tick now => exact h
  | call caller op hm =>
      intro hout
      cases (begin_op_frame s caller op).2.2 with
      | inr hpc =>
          obtain ⟨reason, hpc⟩ := hpc
          rw [hpc] at hout
          cases hout
      | inl hpc =>
          rw [hpc] at hout
          cases caller with
          | loop =>
              have hfree : s.pc.inUserCode = true := by
                simp only [mayCall, free] at hm
                split at hm
                · exact hm
                · cases hm
              cases hout.symm.trans (Pc.callsOut_of_inUserCode hfree)
          | foreign thread =>
              have hne : Caller.loop ≠ .foreign thread := by simp
              exact (calls_begin_op op hne).trans (h hout)
  | post_dropped caller env rest hc | post_refused caller env rest hc =>
      exact h.frame (by rw [pc_post_next]) (by simp [hc]) fun _ ho =>
        calls_post_next rest ho
  | post_tested caller env rest hc =>
      exact h.frame rfl (by simp [hc]) fun _ ho => calls_setCall _ ho
  | post_pushed caller env rest hc =>
      exact h.frame rfl (by simp [hc]) fun _ ho =>
        calls_setCall (s := s.push caller env) _ ho
  | post_notified caller rest hc =>
      exact h.frame (by rw [pc_post_next, notify, Pc.callsOut_notify]) (by simp [hc])
        fun _ ho => calls_post_next (s := s.notify) rest ho
  | stop_set caller hc =>
      exact h.frame rfl (by simp [hc]) fun _ ho =>
        calls_setCall (s := { s with stop_requested_ := true }) _ ho
  | stop_notified caller hc =>
      exact h.frame (by rw [pc_setCall, notify, Pc.callsOut_notify]) (by simp [hc])
        fun _ ho => calls_setCall (s := s.notify) _ ho
  | start htop => exact fun _ => (congrFun (start_calls s config).1 .loop).trans (atTop_calls htop)
  | run htop | run_one htop | shutdown htop =>
      exact fun _ => (congrFun (congrArg Shared.calls (shared_enter ..)) .loop).trans
        (atTop_calls htop)
  | loop t hidle hloop =>
      intro hout
      obtain hshared | ⟨_, rfl⟩ | ⟨_, rfl⟩ := loop_shared hloop
      · exact (congrFun (congrArg Shared.calls hshared) .loop).trans hidle
      · have hfired := pc_fire_due s (p := fun pc => pc.callsOut = true) rfl fun _ => rfl
        cases hout.symm.trans hfired
      · exact hidle
  | wake wait notified hp | timeout _ _ notified hp => exact fun _ => h (by rw [hp]; rfl)

theorem phased_step {s t : State π τ} {event : Event π τ} (h : s.Phased config quiet)
    (hb : s.Balanced) (hseated : s.Seated) (hg : quiet → s.quietly event = true)
    (hs : step config s event = some t) : t.Phased config quiet := by
  obtain ⟨hf, hrule⟩ := step_rule hs
  cases hrule with
  | tick now => exact h.frame rfl rfl rfl rfl fun _ _ => rfl
  | call caller op =>
      obtain ⟨hl, hstage, hpc⟩ := begin_op_frame s caller op
      cases hpc with
      | inl hpc =>
          exact h.frame hstage (congrArg Ledger.dispatched hl) (congrArg Ledger.discarded hl) hpc
            fun _ _ => congrArg Ledger.queue_ hl
      | inr hpc =>
          obtain ⟨reason, hpc⟩ := hpc
          exact phased_of_fault h.ordered (congrArg Stage.log hstage) (by rw [hpc]; rfl)
  | post_dropped caller env rest | post_refused caller env rest =>
      have hl := ledger_post_next s caller rest
      exact h.frame (stage_post_next ..) (congrArg Ledger.dispatched hl)
        (congrArg Ledger.discarded hl) (pc_post_next ..) fun _ _ => congrArg Ledger.queue_ hl
  | post_tested => exact h.frame rfl rfl rfl rfl fun _ _ => rfl
  | post_pushed caller env rest hc _ hstop =>
      refine h.frame rfl rfl rfl rfl fun hquiet hp => ?_
      cases caller with
      | loop => exact nomatch hc.symm.trans (hseated (by rw [hp]; rfl))
      | foreign thread =>
          have hopen := hg hquiet
          simp [quietly, hc, hstop, hp] at hopen
  | post_notified caller rest =>
      have hl := ledger_post_next s.notify caller rest
      exact (phased_notify h).frame (stage_post_next ..) (congrArg Ledger.dispatched hl)
        (congrArg Ledger.discarded hl) (pc_post_next ..) fun _ _ => congrArg Ledger.queue_ hl
  | stop_set => exact h.frame rfl rfl rfl rfl fun _ _ => rfl
  | stop_notified => exact (phased_notify h).frame rfl rfl rfl rfl fun _ _ => rfl
  | start htop => exact phased_start h (atTop_pc htop)
  | run htop | run_one htop => exact phased_enter h (atTop_pc htop) rfl _
  | shutdown htop =>
      unfold enter
      split_ifs with hstarted
      · exact phased_shutdown h (atTop_pc htop) hstarted
      · exact phased_of_fault h.ordered rfl rfl
  | loop t _ hloop =>
      have hidle : s.pc ≠ .idle := by
        intro hp
        unfold loop at hloop
        rw [hp] at hloop
        exact nomatch hloop
      obtain ⟨before, drained, rest, hprogress⟩ := h.progress hf fun hp => absurd hp hidle
      obtain ⟨hfault, hlog⟩ | rfl | ⟨_, _, _, hnext⟩ := progress_loop hprogress hb hloop
      · exact phased_of_fault h.ordered hlog hfault
      · exact ⟨h.ordered, fun _ _ => ⟨rfl, rfl⟩, fun _ hstarted => nomatch hstarted rfl⟩
      · exact phased_of_progress hnext
  | wake wait notified hp | timeout _ _ notified hp =>
      exact h.running (by rw [hp]; rfl) rfl (by simp [hp]) rfl rfl rfl

theorem run_phased {s : State π τ} {events : List (Event π τ)}
    (hg : quiet → (machine π τ config).Meets (fun u event => u.quietly event) init events)
    (hr : (machine π τ config).run init events = some s) : s.Phased config quiet := by
  have hmeets : (machine π τ config).Meets (fun u event => quiet → u.quietly event = true) init
      events := by
    by_cases hquiet : quiet
    · exact (hg hquiet).imp fun _ _ h _ => h
    · exact Lib.Machine.meets_of_forall (fun _ _ h => absurd h hquiet) init events
  have hinit : (init : State π τ).Balanced ∧ (init : State π τ).Seated ∧
      (init : State π τ).Phased config quiet :=
    ⟨balanced_init, fun _ => rfl, phased_init⟩
  exact (Lib.Machine.run_invariant_of_meets
    (I := fun u => u.Balanced ∧ u.Seated ∧ u.Phased config quiet)
    (fun _ _ _ h hq hs => ⟨balanced_step h.1 hs, seated_step h.2.1 hs,
      phased_step h.2.2 h.1 h.2.1 hq hs⟩) hinit hmeets hr).2.2

-- The phases of a lifecycle and the drain of `shutdown`, in any run. The calls
-- into modules come in the order of `LogEvent.lifecycle`, and `shutdown` never
-- dispatches more than its budget. It takes envelopes in the order in which they
-- were accepted, and leaves off before the queue is empty only when the budget is
-- spent; exactly what is then in the queue is discarded, with the warning.
theorem shutdown_phases {s : State π τ} {events : List (Event π τ)}
    (hr : (machine π τ config).run init events = some s) :
    Ordered config s.log ∧
    (s.pc = .discard → ∃ before drained,
      s.log = drain config.modules.length before drained ∧
      drained.length ≤ config.kDrainBudget ∧
      s.accepted = (before ++ drained).map Prod.fst ++ s.queue_ ∧
      ((machine π τ config).Meets (fun u event => u.quietly event) init events →
        s.queue_ ≠ [] → drained.length = config.kDrainBudget) ∧
      ∀ t, step config s .loop = some t →
        t.discarded = s.queue_ ∧ s.log ++ verdict s.queue_ <+: t.log) ∧
    (s.pc = .clear_flags → ∃ before drained rest,
      s.log = lifecycle config.modules.length before drained rest ∧
      drained.length ≤ config.kDrainBudget ∧
      s.accepted = (before ++ drained).map Prod.fst ++ rest ++ s.queue_ ∧
      ((machine π τ config).Meets (fun u event => u.quietly event) init events →
        rest ≠ [] → drained.length = config.kDrainBudget)) := by
  have hb := reachable_balanced ⟨events, hr⟩
  have hphased := run_phased id hr
  refine ⟨hphased.ordered, fun hp => ?_, fun hp => ?_⟩
  · obtain ⟨before, drained, rest, h⟩ := hphased.progress (by rw [hp]; rfl) (by simp [hp])
    have hnone : s.discarded = [] := hb.discarded (by rw [hp]; rfl)
    have hlog := h.log
    rw [hp] at hlog
    refine ⟨before, drained, hlog, Pc.placed_le h.placed, ?_, fun hm => h.waits hm hp, ?_⟩
    · rw [hb.accepted, hnone, List.append_nil, h.dispatched]
    · intro t ht
      cases (step_rule ht).2 with
      | loop t _ hloop =>
          unfold loop at hloop
          rw [hp] at hloop
          obtain rfl := Option.some.inj hloop
          exact ⟨(progress_discard h hb hp).discarded, discard_log s config⟩
  · obtain ⟨before, drained, rest, h⟩ := hphased.progress (by rw [hp]; rfl) (by simp [hp])
    have hlog := h.log
    rw [hp] at hlog
    refine ⟨before, drained, rest, hlog, Pc.placed_le h.placed, ?_, h.spent⟩
    rw [hb.accepted, h.dispatched, h.discarded]

-- Two modules and a budget of one; of two envelopes in the queue, the second is
-- discarded.
def overBudgetRun : List (Event Nat Nat) :=
  [.start, .loop, .loop, .loop, .call .loop (.post ⟨0, 7, 1, 42⟩), .advance .loop, .advance .loop,
    .advance .loop, .call .loop (.post ⟨0, 8, 1, 43⟩), .advance .loop, .advance .loop,
    .advance .loop, .loop, .shutdown, .loop, .loop, .loop, .loop, .loop, .loop, .loop, .loop, .loop]

theorem shutdown_phases_overBudgetRun :
    ∃ s : State Nat Nat, (machine Nat Nat ⟨[7, 8], 1⟩).run init overBudgetRun = some s ∧
      s.pc = .clear_flags ∧ s.discarded.length = 1 ∧ Ordered ⟨[7, 8], 1⟩ s.log := by
  have hrun : ((machine Nat Nat ⟨[7, 8], 1⟩).run init overBudgetRun).map
      (fun s => (s.pc, s.discarded.length)) = some (.clear_flags, 1) := by
    decide +kernel
  obtain ⟨s, hs, hp⟩ := Option.map_eq_some_iff.mp hrun
  obtain ⟨hflags, hdiscarded⟩ := Prod.mk.inj hp
  exact ⟨s, hs, hflags, hdiscarded, (shutdown_phases hs).1⟩

end State

end Runtime

end CortexFlow
