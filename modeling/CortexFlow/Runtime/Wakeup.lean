import CortexFlow.Runtime.Effects

namespace CortexFlow

namespace Runtime

-- From the time `run` has asked for the next due time until it is done waiting.
def Pc.waiting : Pc → Bool
  | .clock_wait _ | .pred_wait _ | .parked _ _ | .relock _ _ => true
  | _ => false

theorem Pc.waiting_of_opening {pc : Pc} (h : pc.opening = true) : pc.waiting = false := by
  cases pc <;> first | rfl | exact nomatch h

theorem Pc.waiting_of_leaving {pc : Pc} (h : pc.leaving = true) : pc.waiting = false := by
  cases pc <;> first | rfl | exact nomatch h

namespace State

variable {π τ : Type*} {config : Config}

theorem waiting_take (s : State π τ) (config : Config) (drain : Drain) :
    (s.take config drain).pc.waiting = false := by
  have hdrained : (s.drained drain).pc.waiting = false := by cases drain <;> rfl
  unfold take
  split_ifs
  · exact hdrained
  · split
    · exact hdrained
    · simp only
      split <;> rfl

theorem waiting_start (s : State π τ) (config : Config) : (s.start config).pc.waiting = false :=
  pc_start s config (p := fun pc => pc.waiting = false) (fun _ => Pc.waiting_of_opening)
    fun _ => rfl

theorem waiting_enter (s : State π τ) {pc : Pc} (hp : pc.waiting = false)
    (events : List (LogEvent π τ)) (reason : String) :
    (s.enter pc events reason).pc.waiting = false :=
  pc_enter s (p := fun pc => pc.waiting = false) events reason hp rfl

-- While the owning thread is parked with no notification under way to it, those
-- who gave it work have yet to notify.
def Attended (s : State π τ) : Prop :=
  ∀ wait, s.pc = .parked wait false →
    (∀ post ∈ s.queue_, ∃ rest, s.calls post.caller = .post_notify rest) ∧
      (s.stop_requested_ = true → ∃ caller, s.calls caller = .stop_notify)

theorem attended_of_not_waiting {s : State π τ} (h : s.pc.waiting = false) : s.Attended := by
  intro wait hp
  rw [hp] at h
  exact nomatch h

theorem attended_of_notify {s t : State π τ} (h : t.pc = s.pc.notify) : t.Attended := by
  intro wait hp
  rw [h] at hp
  cases hs : s.pc <;> rw [hs] at hp <;> cases hp

-- A step of a thread that has no notification to give leaves the others to theirs.
theorem Attended.frame {s t : State π τ} (h : s.Attended) (hl : t.toLedger = s.toLedger)
    (hpc : t.pc = s.pc ∨ ∃ reason, t.pc = .fault reason) {caller : Caller τ}
    (hc : s.calls caller ≠ .stop_notify ∧ ∀ rest, s.calls caller ≠ .post_notify rest)
    (ho : ∀ other ≠ caller, t.calls other = s.calls other) : t.Attended := by
  intro wait hp
  cases hpc with
  | inr hfault =>
      obtain ⟨reason, hfault⟩ := hfault
      exact nomatch hp.symm.trans hfault
  | inl hpc =>
      obtain ⟨hqueue, hstop⟩ := h wait (hpc ▸ hp)
      refine ⟨fun post hmem => ?_, fun hflag => ?_⟩
      · rw [hl] at hmem
        obtain ⟨rest, hrest⟩ := hqueue post hmem
        have hne : post.caller ≠ caller := fun he => hc.2 rest (he ▸ hrest)
        exact ⟨rest, (ho _ hne).trans hrest⟩
      · rw [hl] at hflag
        obtain ⟨other, hother⟩ := hstop hflag
        have hne : other ≠ caller := fun he => hc.1 (he ▸ hother)
        exact ⟨other, (ho _ hne).trans hother⟩

variable [DecidableEq τ]

-- How the owning thread gets to a place where it waits.
inductive WaitStep (s t : State π τ) : Prop
  | no_timer : s.pc = .due_wait → s.timers_.next_due_at = none →
      t = { s with pc := .pred_wait .indefinite } → WaitStep s t
  | timer (next : Int) : s.pc = .due_wait → s.timers_.next_due_at = some next →
      t = { s with pc := .clock_wait next } → WaitStep s t
  | reading (next : Int) : s.pc = .clock_wait next →
      t = { s with pc := .pred_wait (.bounded next s.now) } → WaitStep s t
  | park (wait : Wait) : s.pc = .pred_wait wait → s.wakes = false →
      t = { s with pc := .parked wait false } → WaitStep s t
  | again (wait : Wait) : s.pc = .relock wait false → t = { s with pc := .pred_wait wait } →
      WaitStep s t

theorem loop_waiting {s t : State π τ} (h : s.loop config = some t) (hw : t.pc.waiting = true) :
    WaitStep s t := by
  cases loop_rule h with
  | no_timer hp hnone => exact .no_timer hp hnone rfl
  | timer next hp hsome => exact .timer next hp hsome rfl
  | reading next hp => exact .reading next hp rfl
  | park wait hp hwakes => exact .park wait hp hwakes rfl
  | again wait hp => exact .again wait hp rfl
  | construct i => exact nomatch hw.symm.trans (Pc.waiting_of_opening (opening_begin_construct ..))
  | on_start i => exact nomatch hw.symm.trans (Pc.waiting_of_opening (opening_begin_on_start ..))
  | take drain => exact nomatch hw.symm.trans (waiting_take ..)
  | discard => exact nomatch hw.symm.trans (Pc.waiting_of_leaving (leaving_discard ..))
  | on_stop i => exact nomatch hw.symm.trans (Pc.waiting_of_leaving (leaving_begin_on_stop ..))
  | destroy i => exact nomatch hw.symm.trans (Pc.waiting_of_leaving (leaving_begin_destroy ..))
  | fire hp =>
      have hfired := pc_fire_due s (p := fun pc => pc.waiting = false) rfl fun _ => rfl
      exact nomatch hw.symm.trans hfired
  | _ => exact nomatch hw

theorem attended_pushed {s : State π τ} (h : s.Attended) {caller : Caller τ}
    {env : Envelope π} {rest : List (Envelope π)} (hc : s.calls caller = .post_lock env rest) :
    ((s.push caller env).setCall caller (.post_notify rest)).Attended := by
  intro wait hp
  obtain ⟨hqueue, hstop⟩ := h wait hp
  refine ⟨fun post hmem => ?_, fun hflag => ?_⟩
  · cases List.mem_append.mp hmem with
    | inl hold =>
        obtain ⟨rest', hrest⟩ := hqueue post hold
        have hne : post.caller ≠ caller := by
          intro he
          rw [he, hc] at hrest
          exact nomatch hrest
        exact ⟨rest', (calls_setCall (s := s.push caller env) _ hne).trans hrest⟩
    | inr hnew =>
        obtain rfl := List.mem_singleton.mp hnew
        exact ⟨rest, Function.update_self ..⟩
  · obtain ⟨other, hother⟩ := hstop hflag
    have hne : other ≠ caller := by
      intro he
      rw [he, hc] at hother
      exact nomatch hother
    exact ⟨other, (calls_setCall (s := s.push caller env) _ hne).trans hother⟩

theorem attended_stopped {s : State π τ} (h : s.Attended) {caller : Caller τ}
    (hc : s.calls caller = .stop_lock) :
    ({ s with stop_requested_ := true }.setCall caller .stop_notify).Attended := by
  intro wait hp
  refine ⟨fun post hmem => ?_, fun _ => ⟨caller, Function.update_self ..⟩⟩
  obtain ⟨rest, hrest⟩ := (h wait hp).1 post hmem
  have hne : post.caller ≠ caller := by
    intro he
    rw [he, hc] at hrest
    exact nomatch hrest
  exact ⟨rest, (calls_setCall (s := { s with stop_requested_ := true }) _ hne).trans hrest⟩

-- It parks only where there is nothing to do.
theorem attended_loop {s t : State π τ} (hs : s.loop config = some t) : t.Attended := by
  intro wait hp
  cases loop_waiting hs (by rw [hp]; rfl) with
  | no_timer _ _ ht | timer _ _ _ ht | reading _ _ ht | again _ _ ht =>
      rw [ht] at hp
      exact nomatch hp
  | park _ _ hwakes ht =>
      simp only [wakes, Bool.or_eq_false_iff, Bool.not_eq_false', List.isEmpty_iff] at hwakes
      rw [ht]
      refine ⟨fun post hmem => ?_, fun hflag => ?_⟩
      · rw [hwakes.1] at hmem
        exact absurd hmem List.not_mem_nil
      · exact absurd (hwakes.2.symm.trans hflag) nofun

theorem attended_step {s t : State π τ} {event : Event π τ} (h : s.Attended)
    (hs : step config s event = some t) : t.Attended := by
  cases (step_rule hs).2 with
  | tick now => exact h
  | call caller op hm =>
      obtain ⟨hl, _, hpc⟩ := begin_op_frame s caller op
      have hc := mayCall_outside hm
      exact h.frame hl hpc (by rw [hc]; exact ⟨nofun, nofun⟩) fun _ ho => calls_begin_op op ho
  | post_dropped caller env rest hc | post_refused caller env rest hc =>
      exact h.frame (ledger_post_next ..) (Or.inl (pc_post_next ..))
        (by rw [hc]; exact ⟨nofun, nofun⟩) fun _ ho => calls_post_next rest ho
  | post_tested caller env rest hc =>
      exact h.frame rfl (Or.inl rfl) (by rw [hc]; exact ⟨nofun, nofun⟩) fun _ ho =>
        calls_setCall _ ho
  | post_pushed caller env rest hc => exact attended_pushed h hc
  | post_notified caller rest => exact attended_of_notify (s := s) (pc_post_next ..)
  | stop_set caller hc => exact attended_stopped h hc
  | stop_notified caller => exact attended_of_notify (s := s) rfl
  | start => exact attended_of_not_waiting (waiting_start ..)
  | run | run_one | shutdown => exact attended_of_not_waiting (waiting_enter _ rfl ..)
  | loop t _ hloop => exact attended_loop hloop
  | wake | timeout => exact fun _ hp => nomatch hp

-- No wake-up is lost: if the owning thread is parked and nobody has notified it,
-- then whoever posted what is in the queue, or set the stop flag, is still on the
-- way from its critical section to its notification.
theorem no_lost_wakeup {s : State π τ} (hr : (machine π τ config).Reachable s) (wait : Wait)
    (hp : s.pc = .parked wait false) :
    (∀ post ∈ s.queue_, ∃ rest, s.calls post.caller = .post_notify rest) ∧
      (s.stop_requested_ = true → ∃ caller, s.calls caller = .stop_notify) :=
  hr.invariant (I := Attended) (attended_of_not_waiting rfl) (fun _ _ _ hi hs =>
    attended_step hi hs) wait hp

-- A thread has posted to the parked loop, another has stopped it; neither has
-- notified.
def busyRun : List (Event Nat Nat) :=
  [.start, .loop, .loop, .run, .loop, .loop, .loop, .call (.foreign 1) (.post ⟨0, 7, 1, 42⟩),
    .advance (.foreign 1), .advance (.foreign 1), .call (.foreign 2) .stop, .advance (.foreign 2)]

theorem no_lost_wakeup_busyRun :
    ∃ s : State Nat Nat, (machine Nat Nat ⟨[7], 5⟩).Reachable s ∧
      s.pc = .parked .indefinite false ∧ s.queue_.length = 1 ∧
      (∀ post ∈ s.queue_, ∃ rest, s.calls post.caller = .post_notify rest) ∧
      ∃ caller, s.calls caller = .stop_notify := by
  have hrun : ((machine Nat Nat ⟨[7], 5⟩).run init busyRun).map
      (fun s => (s.pc, s.queue_.length, s.stop_requested_)) =
      some (.parked .indefinite false, 1, true) := by
    decide +kernel
  obtain ⟨s, hs, hp⟩ := Option.map_eq_some_iff.mp hrun
  obtain ⟨hparked, hqueue, hstop⟩ := by simpa only [Prod.mk.injEq] using hp
  have hr : (machine Nat Nat ⟨[7], 5⟩).Reachable s := ⟨busyRun, hs⟩
  obtain ⟨hposts, hstopped⟩ := no_lost_wakeup hr .indefinite hparked
  exact ⟨s, hr, hparked, hqueue, hposts, hstopped hstop⟩

end State

end Runtime

end CortexFlow
