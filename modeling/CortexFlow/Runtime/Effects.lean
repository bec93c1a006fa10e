import CortexFlow.Runtime.Rules

namespace CortexFlow

namespace Runtime

-- `shutdown` from the end of its drain on.
def Pc.closing : Pc → Bool
  | .on_stop _ | .destroy _ | .clear_timers | .clear_flags | .fault _ => true
  | _ => false

-- The second call of `run_one` in `run`.
def Pc.finalDrain : Pc → Bool
  | .take .last | .handle .last => true
  | _ => false

@[simp] theorem Pc.closing_notify (pc : Pc) : pc.notify.closing = pc.closing := by
  cases pc <;> rfl

@[simp] theorem Pc.finalDrain_notify (pc : Pc) : pc.notify.finalDrain = pc.finalDrain := by
  cases pc <;> rfl

theorem Pc.not_finalDrain_of_closing {pc : Pc} (h : pc.closing = true) :
    pc.finalDrain = false := by
  cases pc <;> first | rfl | exact absurd h nofun

theorem Pc.aside_of_opening {pc : Pc} (h : pc.opening = true) :
    pc.closing = false ∧ pc.finalDrain = false := by
  cases pc <;> first | exact ⟨rfl, rfl⟩ | exact nomatch h

theorem Pc.closing_of_leaving {pc : Pc} (h : pc.leaving = true) : pc.closing = true := by
  cases pc <;> first | rfl | exact nomatch h

namespace State

variable {π τ : Type*} {config : Config}

-- What a step of the owning thread does to the ledger.
inductive LoopEffect (s t : State π τ) : Prop
  | moved : t.toLedger = s.toLedger → (s.pc.closing = true → t.pc.closing = true) →
      (t.pc.finalDrain = true → s.pc.finalDrain = true ∨ s.stop_requested_ = true) →
      LoopEffect s t
  | returned : t.toLedger = { s.toLedger with run_returned := true } → s.queue_ = [] →
      (s.pc.finalDrain = true ∨ s.stop_requested_ = true) → s.pc.closing = false → t.pc = .idle →
      LoopEffect s t
  | taken (post : Post π τ) (queue : List (Post π τ)) : s.queue_ = post :: queue →
      t.toLedger =
        { s.toLedger with queue_ := queue, dispatched := s.dispatched ++ [post] } →
      s.pc.closing = false → (t.pc.finalDrain = true → s.pc.finalDrain = true) → LoopEffect s t
  | discarded : t.toLedger = { s.toLedger with queue_ := [], discarded := s.queue_ } →
      s.queue_ ≠ [] → s.pc.closing = false → t.pc.closing = true → LoopEffect s t
  | finished : s.pc = .clear_flags → t = s.finish_shutdown → LoopEffect s t

theorem take_effect (s : State π τ) (drain : Drain) (hp : s.pc = .take drain) :
    LoopEffect s (s.take config drain) := by
  have hclosing : s.pc.closing = false := by rw [hp]; rfl
  have hdrained (hq : s.queue_ = [] ∨ ∃ n, drain = .shutdown n) :
      LoopEffect s (s.drained drain) := by
    cases drain with
    | user => exact .moved rfl (by simp [hclosing]) nofun
    | first => exact .moved rfl (by simp [hclosing]) nofun
    | shutdown n => exact .moved rfl (by simp [hclosing]) nofun
    | last =>
        have hfinal : s.pc.finalDrain = true := by rw [hp]; rfl
        exact .returned rfl (hq.resolve_right nofun) (Or.inl hfinal) hclosing rfl
  unfold take
  split_ifs with hspent
  · cases drain with
    | shutdown n => exact hdrained (Or.inr ⟨n, rfl⟩)
    | user | first | last => exact absurd hspent nofun
  · split
    · exact hdrained (Or.inl ‹_›)
    · rename_i post queue hq
      simp only
      split
      · exact .taken post queue hq rfl hclosing nofun
      · refine .taken post queue hq rfl hclosing fun hf => ?_
        cases drain with
        | last => rw [hp]; rfl
        | user | first | shutdown => exact absurd hf nofun

theorem discard_effect (s : State π τ) (hp : s.pc = .discard) :
    LoopEffect s (s.discard config) := by
  have hclosing : s.pc.closing = false := by rw [hp]; rfl
  unfold discard
  split
  · have hstop := Pc.closing_of_leaving (leaving_begin_on_stop s config config.modules.length)
    refine .moved (ledger_begin_on_stop ..) (fun _ => hstop) fun hf => ?_
    exact absurd (hf.symm.trans (Pc.not_finalDrain_of_closing hstop)) nofun
  · rename_i post queue hq
    refine .discarded ?_ (by simp [hq]) hclosing
      (Pc.closing_of_leaving (leaving_begin_on_stop ..))
    rw [ledger_begin_on_stop, hq]
    rfl

theorem atTop_pc {s : State π τ} (h : s.atTop = true) : s.pc = .idle := by
  simp only [atTop, Bool.and_eq_true, decide_eq_true_eq] at h
  exact h.2

theorem finalDrain_enter (s : State π τ) {pc : Pc} (hf : pc.finalDrain = false)
    (events : List (LogEvent π τ)) (reason : String) :
    (s.enter pc events reason).pc.finalDrain = false :=
  pc_enter s (p := fun pc => pc.finalDrain = false) events reason hf rfl

theorem closing_take (s : State π τ) (config : Config) (drain : Drain)
    (hf : (s.take config drain).pc.faulted = false) :
    (s.take config drain).pc.closing = false := by
  have hdrained : (s.drained drain).pc.closing = false := by cases drain <;> rfl
  unfold take at hf ⊢
  split_ifs at hf ⊢
  · exact hdrained
  · split
    · exact hdrained
    · rename_i post queue hq
      simp only [hq] at hf ⊢
      split
      · rename_i hnone
        simp only [hnone] at hf
        exact nomatch hf
      · rfl

variable [DecidableEq τ]

theorem loop_effect {s t : State π τ} (h : s.loop config = some t) : LoopEffect s t := by
  -- Most steps only move on, to a place outside `shutdown`'s end and the last drain.
  have hmove {u : State π τ} (hl : u.toLedger = s.toLedger) (hc : s.pc.closing = false)
      (hf : u.pc.finalDrain = false) : LoopEffect s u :=
    .moved hl (fun hs => absurd (hc.symm.trans hs) nofun) fun hs =>
      absurd (hf.symm.trans hs) nofun
  have hend {u : State π τ} (hl : u.toLedger = s.toLedger) (hu : u.pc.closing = true) :
      LoopEffect s u :=
    .moved hl (fun _ => hu) fun hs =>
      absurd ((Pc.not_finalDrain_of_closing hu).symm.trans hs) nofun
  cases loop_rule h with
  | construct i hp =>
      exact hmove (ledger_begin_construct ..) (by rw [hp]; rfl)
        (Pc.aside_of_opening (opening_begin_construct ..)).2
  | on_start i hp =>
      exact hmove (ledger_begin_on_start ..) (by rw [hp]; rfl)
        (Pc.aside_of_opening (opening_begin_on_start ..)).2
  | wait_lock hp | no_timer hp | timer _ hp | reading _ hp | awake _ hp | park _ hp
  | timed_out _ hp | again _ hp | woken hp | fired hp | unstopped hp =>
      exact hmove rfl (by rw [hp]; rfl) rfl
  | returned hp hq hstop => exact .returned rfl hq (Or.inr hstop) (by rw [hp]; rfl) rfl
  | fire hp =>
      exact hmove (fire_due_frame { s with pc := .firing } .loop).1 (by rw [hp]; rfl)
        (pc_fire_due s (p := fun pc => pc.finalDrain = false) rfl fun _ => rfl)
  | stopped hp hstop => exact .moved rfl (by simp [hp, Pc.closing]) fun _ => Or.inr hstop
  | take drain hp => exact take_effect s drain hp
  | handled drain hp =>
      refine .moved rfl (by simp [hp, Pc.closing]) fun hf => Or.inl ?_
      cases drain with
      | last => rw [hp]; rfl
      | user | first | shutdown => exact nomatch hf
  | discard hp => exact discard_effect s hp
  | on_stop i hp =>
      exact hend (ledger_begin_on_stop ..) (Pc.closing_of_leaving (leaving_begin_on_stop ..))
  | destroy i hp =>
      exact hend (ledger_begin_destroy ..) (Pc.closing_of_leaving (leaving_begin_destroy ..))
  | clear_timers hp => exact hend rfl rfl
  | clear_flags hp => exact .finished hp rfl

-- What any step does to the ledger.
inductive StepEffect (s t : State π τ) : Prop
  | aside : t.toLedger = s.toLedger → (s.pc.closing = true → t.pc.closing = true) →
      (t.pc.finalDrain = true → s.pc.finalDrain = true) → StepEffect s t
  | pushed (caller : Caller τ) (env : Envelope π) (rest : List (Envelope π)) :
      s.calls caller = .post_lock env rest → s.stop_requested_ = false →
      t = (s.push caller env).setCall caller (.post_notify rest) → StepEffect s t
  | stopped : t.toLedger = { s.toLedger with stop_requested_ := true } → t.pc = s.pc →
      StepEffect s t
  | loop : LoopEffect s t → StepEffect s t

theorem aside_of_pc {s t : State π τ} (hl : t.toLedger = s.toLedger)
    (hpc : t.pc = s.pc ∨ ∃ reason, t.pc = .fault reason) : StepEffect s t := by
  cases hpc with
  | inl hpc => exact .aside hl (by rw [hpc]; exact id) (by rw [hpc]; exact id)
  | inr hpc =>
      obtain ⟨reason, hpc⟩ := hpc
      exact .aside hl (by rw [hpc]; exact fun _ => rfl) (by rw [hpc]; exact nofun)

theorem step_effect {s t : State π τ} {event : Event π τ} (h : step config s event = some t) :
    StepEffect s t := by
  cases (step_rule h).2 with
  | tick now => exact aside_of_pc rfl (Or.inl rfl)
  | call caller op =>
      obtain ⟨hl, _, hpc⟩ := begin_op_frame s caller op
      exact aside_of_pc hl hpc
  | post_dropped caller | post_refused caller =>
      exact aside_of_pc (ledger_post_next ..) (Or.inl (pc_post_next ..))
  | post_tested caller => exact aside_of_pc rfl (Or.inl rfl)
  | post_pushed caller env rest hc _ hs => exact .pushed caller env rest hc hs rfl
  | post_notified caller rest =>
      exact .aside (ledger_post_next ..) (by simp [notify]) (by simp [notify])
  | stop_set => exact .stopped rfl rfl
  | stop_notified => exact .aside rfl (by simp [notify]) (by simp [notify])
  | start htop =>
      have hnot := pc_start s config (p := fun pc => pc.finalDrain = false)
        (fun _ ho => (Pc.aside_of_opening ho).2) fun _ => rfl
      exact .aside (ledger_start ..) (by simp [atTop_pc htop, Pc.closing]) fun hlast =>
        absurd (hlast.symm.trans hnot) nofun
  | run htop | run_one htop | shutdown htop =>
      refine .aside (ledger_enter ..) (by simp [atTop_pc htop, Pc.closing]) fun hlast => ?_
      exact absurd (hlast.symm.trans (finalDrain_enter _ rfl ..)) nofun
  | loop t _ hloop => exact .loop (loop_effect hloop)
  | wake wait notified hp => exact .aside rfl (by simp [hp, Pc.closing]) nofun
  | timeout next reading notified hp => exact .aside rfl (by simp [hp, Pc.closing]) nofun

-- How the owning thread gets from one step of `shutdown`'s end to the next.
inductive CloseStep (config : Config) (s t : State π τ) : Prop
  | discard : s.pc = .discard → t = s.discard config → CloseStep config s t
  | on_stop (i : Nat) : s.pc = .on_stop i → t = s.begin_on_stop config i → CloseStep config s t
  | destroy (i : Nat) : s.pc = .destroy i → t = s.begin_destroy config (i + 1) →
      CloseStep config s t
  | clear_timers : s.pc = .clear_timers →
      t = { s with pc := .clear_flags, cache_ := false, timers_ := s.timers_.clear } →
      CloseStep config s t

theorem loop_closing {s t : State π τ} (h : s.loop config = some t)
    (hc : t.pc.closing = true) (hf : t.pc.faulted = false) : CloseStep config s t := by
  cases loop_rule h with
  | discard hp => exact .discard hp rfl
  | on_stop i hp => exact .on_stop i hp rfl
  | destroy i hp => exact .destroy i hp rfl
  | clear_timers hp => exact .clear_timers hp rfl
  | construct i =>
      exact nomatch hc.symm.trans (Pc.aside_of_opening (opening_begin_construct ..)).1
  | on_start i => exact nomatch hc.symm.trans (Pc.aside_of_opening (opening_begin_on_start ..)).1
  | take drain => exact nomatch hc.symm.trans (closing_take s config drain hf)
  | fire hp =>
      cases (fire_due_frame { s with pc := .firing } .loop).2.2 with
      | inl hpc => exact nomatch hc.symm.trans (congrArg Pc.closing hpc)
      | inr hpc =>
          obtain ⟨reason, hpc⟩ := hpc
          exact nomatch hf.symm.trans (congrArg Pc.faulted hpc)
  | _ => exact nomatch hc

end State

end Runtime

end CortexFlow
