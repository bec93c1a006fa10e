import CortexFlow.Runtime.Effects

namespace CortexFlow

namespace Runtime

-- The envelopes a thread has still to bring into the queue.
def Call.envelopes {π : Type*} : Call π → List (Envelope π)
  | .post_test env rest | .post_lock env rest => env :: rest
  | .post_notify rest => rest
  | .outside | .stop_lock | .stop_notify => []

namespace State

variable {π τ : Type*} {config : Config}

-- The envelope waits in the queue or is about to be posted.
def Holds (s : State π τ) (env : Envelope π) : Prop :=
  (∃ post ∈ s.queue_, post.env = env) ∨ ∃ caller, env ∈ (s.calls caller).envelopes

theorem Holds.of_subset {s t : State π τ} {env : Envelope π} (h : t.Holds env)
    (hq : ∀ post ∈ t.queue_, post ∈ s.queue_) (hc : t.calls = s.calls) : s.Holds env := by
  cases h with
  | inl h =>
      obtain ⟨post, hmem, henv⟩ := h
      exact Or.inl ⟨post, hq post hmem, henv⟩
  | inr h => exact Or.inr (hc ▸ h)

-- What a step makes of the timers: none comes up again, and a new one has the
-- next sequence number.
structure TimersStep (a b : TimerService π) (event : Event π τ) : Prop where
  armed : ∀ entry, b.IsArmed entry → a.IsArmed entry ∨
    entry.seq = a.next_seq_ ∧
      ∃ caller delay owner_name type_name,
        event = .call caller (.arm delay entry.envelope owner_name type_name)
  next_seq : a.next_seq_ ≤ b.next_seq_

theorem TimersStep.of_eq {a b : TimerService π} {event : Event π τ} (h : b = a) :
    TimersStep a b event :=
  ⟨fun _ he => Or.inl (h ▸ he), h ▸ le_rfl⟩

-- A timer that is no longer armed never is again.
theorem TimersStep.retired {a b : TimerService π} {event : Event π τ} (h : TimersStep a b event)
    {seq : Nat} (hseq : seq < a.next_seq_) (hdead : seq ∉ a.live_seqs_) :
    seq ∉ b.live_seqs_ := by
  intro hlive
  obtain ⟨entry, he, rfl⟩ := (TimerService.live_iff_isArmed _ _).mp hlive
  cases h.armed entry he with
  | inl hold => exact hdead hold.2
  | inr hnew => exact absurd hnew.1 (Nat.ne_of_lt hseq)

variable [DecidableEq τ]

theorem holds_setCall {s : State π τ} {caller : Caller τ} {call : Call π} {env : Envelope π}
    (h : (s.setCall caller call).Holds env) : s.Holds env ∨ env ∈ call.envelopes := by
  cases h with
  | inl h => exact Or.inl (Or.inl h)
  | inr h =>
      obtain ⟨other, hmem⟩ := h
      by_cases ho : other = caller
      · subst ho
        exact Or.inr (by simpa [setCall] using hmem)
      · rw [calls_setCall _ ho] at hmem
        exact Or.inl (Or.inr ⟨other, hmem⟩)

theorem holds_post_next {s : State π τ} {caller : Caller τ} {envs : List (Envelope π)}
    {env : Envelope π} (h : (s.post_next caller envs).Holds env) : s.Holds env ∨ env ∈ envs := by
  cases envs with
  | nil => exact holds_setCall h
  | cons first rest =>
      have hcall : (s.setCall caller (.post_test first rest)).Holds env := h
      exact holds_setCall hcall

-- What `fire_due` is about to post was armed.
theorem holds_fire_due {s : State π τ} {caller : Caller τ} {env : Envelope π}
    (h : (s.fire_due caller).Holds env) :
    s.Holds env ∨ ∃ entry, s.timers_.IsArmed entry ∧ entry.envelope = env := by
  obtain ⟨entries, hrecords, _, _, hmem, _⟩ :=
    TimerService.collect_spec s.now s.timers_.heap_.toList.length s.timers_ le_rfl
  unfold fire_due TimerService.fire_due at h
  simp only at h
  split_ifs at h
  · exact Or.inl (h.of_subset (fun _ => id) rfl)
  · cases holds_post_next (s := { s with timers_ := _ }) h with
    | inl h => exact Or.inl (h.of_subset (fun _ => id) rfl)
    | inr h =>
        rw [hrecords, List.map_map] at h
        obtain ⟨entry, he, henv⟩ := List.mem_map.mp h
        exact Or.inr ⟨entry, ((hmem entry).mp he).1, henv⟩

theorem holds_begin_op {s : State π τ} {caller : Caller τ} {op : Op π} {env : Envelope π}
    (h : (s.begin_op caller op).Holds env) :
    s.Holds env ∨ op = .post env ∨ ∃ entry, s.timers_.IsArmed entry ∧ entry.envelope = env := by
  cases op with
  | post other =>
      cases holds_post_next h with
      | inl h => exact Or.inl h
      | inr h => exact Or.inr (Or.inl (List.mem_singleton.mp h ▸ rfl))
  | stop =>
      cases holds_setCall h with
      | inl h => exact Or.inl h
      | inr h => exact nomatch h
  | arm =>
      simp only [begin_op] at h
      split at h <;> exact Or.inl (h.of_subset (fun _ => id) rfl)
  | cancel seq => exact Or.inl (h.of_subset (fun _ => id) rfl)
  | fire_due => exact (holds_fire_due h).imp_right Or.inr

theorem holds_loop {s t : State π τ} {env : Envelope π} (hs : s.loop config = some t)
    (h : t.Holds env) :
    s.Holds env ∨ ∃ entry, s.timers_.IsArmed entry ∧ entry.envelope = env := by
  have hqueue : ∀ post ∈ t.queue_, post ∈ s.queue_ := by
    cases loop_effect hs with
    | moved hl | returned hl => rw [hl]; exact fun _ => id
    | taken post queue hq hl => rw [hl, hq]; exact fun _ => List.mem_cons_of_mem _
    | discarded hl => rw [hl]; exact nofun
    | finished _ ht => rw [ht]; exact fun _ => id
  obtain hshared | ⟨_, rfl⟩ | ⟨_, rfl⟩ := loop_shared hs
  · exact Or.inl (h.of_subset hqueue (congrArg Shared.calls hshared))
  · cases holds_fire_due h with
    | inl h => exact Or.inl (h.of_subset (fun _ => id) rfl)
    | inr h => exact Or.inr h
  · exact Or.inl (h.of_subset (fun _ => id) rfl)

-- An envelope comes into the runtime only by `post` and by a timer.
theorem holds_step {s t : State π τ} {event : Event π τ} {env : Envelope π}
    (hs : step config s event = some t) (h : t.Holds env) :
    s.Holds env ∨ (∃ caller, event = .call caller (.post env)) ∨
      ∃ entry, s.timers_.IsArmed entry ∧ entry.envelope = env := by
  have hposts (caller : Caller τ) {rest : List (Envelope π)}
      (hrest : ∀ other ∈ rest, other ∈ (s.calls caller).envelopes)
      (h : s.Holds env ∨ env ∈ rest) : s.Holds env := by
    cases h with
    | inl h => exact h
    | inr h => exact Or.inr ⟨caller, hrest env h⟩
  cases (step_rule hs).2 with
  | tick | wake | timeout => exact Or.inl (h.of_subset (fun _ => id) rfl)
  | call caller op =>
      cases holds_begin_op h with
      | inl h => exact Or.inl h
      | inr h =>
          cases h with
          | inl h => exact Or.inr (Or.inl ⟨caller, h ▸ rfl⟩)
          | inr h => exact Or.inr (Or.inr h)
  | post_dropped caller other rest hc | post_refused caller other rest hc =>
      refine Or.inl (hposts caller (fun _ hm => ?_) (holds_post_next h))
      rw [hc]
      exact List.mem_cons_of_mem _ hm
  | post_tested caller other rest hc =>
      refine Or.inl (hposts caller (fun _ hm => ?_) (holds_setCall h))
      rw [hc]
      exact hm
  | post_pushed caller other rest hc =>
      have hcall : ∀ e ∈ other :: rest, e ∈ (s.calls caller).envelopes := by
        rw [hc]
        exact fun _ => id
      cases holds_setCall (s := s.push caller other) h with
      | inl h =>
          cases h with
          | inl h =>
              obtain ⟨post, hmem, henv⟩ := h
              cases List.mem_append.mp hmem with
              | inl hold => exact Or.inl (Or.inl ⟨post, hold, henv⟩)
              | inr hnew =>
                  rw [List.mem_singleton.mp hnew] at henv
                  exact Or.inl (Or.inr ⟨caller, hcall env (henv ▸ List.mem_cons_self)⟩)
          | inr h => exact Or.inl (Or.inr h)
      | inr h => exact Or.inl (Or.inr ⟨caller, hcall env (List.mem_cons_of_mem _ h)⟩)
  | post_notified caller rest hc =>
      refine Or.inl (hposts caller (fun _ hm => ?_) (holds_post_next (s := s.notify) h))
      rw [hc]
      exact hm
  | stop_set caller hc =>
      cases holds_setCall (s := { s with stop_requested_ := true }) h with
      | inl h => exact Or.inl (h.of_subset (fun _ => id) rfl)
      | inr h => exact nomatch h
  | stop_notified caller hc =>
      cases holds_setCall (s := s.notify) h with
      | inl h => exact Or.inl (h.of_subset (fun _ => id) rfl)
      | inr h => exact nomatch h
  | start htop =>
      have hl := congrArg Ledger.queue_ (ledger_start s config)
      exact Or.inl (h.of_subset (fun _ hm => hl ▸ hm) (start_calls s config).1)
  | run htop | run_one htop | shutdown htop =>
      refine Or.inl (h.of_subset ?_ (congrArg Shared.calls (shared_enter ..)))
      rw [ledger_enter]
      exact fun _ => id
  | loop t _ hloop => exact (holds_loop hloop h).imp_right Or.inr

theorem timersStep_fire_due (s : State π τ) (caller : Caller τ) (event : Event π τ) :
    TimersStep s.timers_ (s.fire_due caller).timers_ event := by
  refine ⟨fun entry he => Or.inl ((fire_due_timers s caller).2 entry he), ?_⟩
  have hnext := (TimerService.collect_frame s.now s.timers_.heap_.toList.length s.timers_).1
  unfold fire_due TimerService.fire_due
  simp only
  split_ifs
  · exact hnext.ge
  · simp only [timers_post_next]
    exact hnext.ge

theorem timersStep_begin_op (s : State π τ) (caller : Caller τ) (op : Op π) :
    TimersStep s.timers_ (s.begin_op caller op).timers_ (.call caller op) := by
  cases op with
  | post env => exact .of_eq rfl
  | stop => exact .of_eq rfl
  | arm delay env owner_name type_name =>
      simp only [begin_op, TimerService.arm]
      split_ifs
      · exact .of_eq rfl
      · refine ⟨fun entry he => ?_, Nat.le_succ _⟩
        cases (TimerService.isArmed_push ..).mp he with
        | inl hnew =>
            subst hnew
            exact Or.inr ⟨rfl, caller, delay, owner_name, type_name, rfl⟩
        | inr hold => exact Or.inl hold
  | cancel seq =>
      refine ⟨fun entry he => Or.inl ((TimerService.isArmed_cancel_by_seq ..).mp he).1, ?_⟩
      exact (TimerService.next_seq_cancel_by_seq ..).ge
  | fire_due => exact timersStep_fire_due ..

theorem timersStep {s t : State π τ} {event : Event π τ} (hs : step config s event = some t) :
    TimersStep s.timers_ t.timers_ event := by
  cases (step_rule hs).2 with
  | tick | post_tested | post_pushed | stop_set | stop_notified | wake | timeout =>
      exact .of_eq rfl
  | call caller op => exact timersStep_begin_op s caller op
  | post_dropped | post_refused | post_notified => exact .of_eq (timers_post_next ..)
  | start htop =>
      unfold start
      split_ifs
      · exact .of_eq rfl
      · have htimers := congrArg Shared.timers_ (shared_begin_construct { s with
          cache_ := true, timers_ := s.timers_.bind_post, log := [] } config config.modules.length)
        refine ⟨fun entry he => Or.inl ?_, ?_⟩
        · rw [htimers] at he
          exact he
        · rw [htimers]
          exact le_rfl
  | run | run_one | shutdown => exact .of_eq (congrArg Shared.timers_ (shared_enter ..))
  | loop t _ hloop =>
      obtain hshared | ⟨_, rfl⟩ | ⟨_, rfl⟩ := loop_shared hloop
      · exact .of_eq (congrArg Shared.timers_ hshared)
      · exact timersStep_fire_due { s with pc := .firing } .loop _
      · exact ⟨fun entry he => absurd he (TimerService.isArmed_clear s.timers_ entry), le_rfl⟩

-- What is dispatched comes from the queue.
theorem dispatched_step {s t : State π τ} {event : Event π τ}
    (hs : step config s event = some t) {post : Post π τ}
    (hd : t.dispatched = s.dispatched ++ [post]) : post ∈ s.queue_ := by
  have hlen := congrArg List.length hd
  simp only [List.length_append, List.length_singleton] at hlen
  have hsame (h : t.dispatched = s.dispatched) : post ∈ s.queue_ := by
    rw [h] at hlen
    omega
  cases step_effect hs with
  | aside hl | stopped hl => exact hsame (by rw [hl])
  | pushed _ _ _ _ _ ht => exact hsame (by rw [ht]; rfl)
  | loop hloop =>
      cases hloop with
      | moved hl | returned hl | discarded hl => exact hsame (by rw [hl])
      | taken first queue hq hl =>
          have htaken : t.dispatched = s.dispatched ++ [first] := by rw [hl]
          have heq := List.append_cancel_left (htaken.symm.trans hd)
          rw [hq, ← (List.cons.inj heq).1]
          exact List.mem_cons_self
      | finished _ ht =>
          have hnone : t.dispatched = [] := by rw [ht]; rfl
          rw [hnone] at hlen
          simp at hlen

end State

end Runtime

end CortexFlow
