import CortexFlow.Runtime.Delivery

namespace CortexFlow

namespace Runtime

-- The modules are gone.
def Pc.destructed : Pc → Bool
  | .clear_timers | .clear_flags => true
  | _ => false

theorem Pc.closing_of_destructed {pc : Pc} (h : pc.destructed = true) :
    pc.closing = true ∧ pc.faulted = false := by
  cases pc <;> first | exact ⟨rfl, rfl⟩ | exact nomatch h

theorem Pc.notify_of_closing {pc : Pc} (h : pc.closing = true) : pc.notify = pc := by
  cases pc <;> first | rfl | exact nomatch h

namespace State

variable {π τ : Type*} {config : Config}

-- What `shutdown` leaves is a runtime as its constructor makes it, except that
-- handles of earlier timers are not given out again.
structure Fresh (s : State π τ) : Prop where
  ledger : s.toLedger = { (init : State π τ).toLedger with lifecycle := s.lifecycle }
  stage : s.toStage = { (init : State π τ).toStage with log := s.log }
  timers : s.timers_.post_bound = false ∧ ∀ entry, ¬s.timers_.IsArmed entry
  idle : s.pc = .idle

-- No envelope comes in after `shutdown` has cleared the queue, and no timer after
-- it has cleared the timers.
def contained (s : State π τ) : Event π τ → Bool
  | .advance caller =>
      match s.calls caller with
      | .post_lock _ _ => s.stop_requested_ || !s.pc.closing
      | _ => true
  | .call _ (.arm ..) => s.pc ≠ .clear_flags
  | _ => true

structure Contained (s : State π τ) : Prop where
  stamped : ∀ post ∈ s.accepted, post.lifecycle = s.lifecycle
  emptied : s.pc.closing = true → s.pc.faulted = false → s.queue_ = []
  destructed : s.pc.destructed = true → s.modules_ = false
  cleared : s.pc = .clear_flags → s.cache_ = false ∧ s.timers_.post_bound = false ∧
    ∀ entry, ¬s.timers_.IsArmed entry

theorem contained_init : (init : State π τ).Contained :=
  ⟨nofun, nofun, nofun, nofun⟩

theorem Contained.aside {s t : State π τ} (h : s.Contained) (ha : t.accepted = s.accepted)
    (hlife : t.lifecycle = s.lifecycle) (hpc : t.pc.closing = false ∨ t.pc.faulted = true) :
    t.Contained := by
  have hnot : t.pc.closing = true → t.pc.faulted = false → False := by
    intro hc hf
    cases hpc with
    | inl hpc => exact nomatch hpc.symm.trans hc
    | inr hpc => exact nomatch hf.symm.trans hpc
  have hnot' (hd : t.pc.destructed = true) : False :=
    hnot (Pc.closing_of_destructed hd).1 (Pc.closing_of_destructed hd).2
  exact ⟨by rw [ha, hlife]; exact h.stamped, fun hc hf => (hnot hc hf).elim,
    fun hd => (hnot' hd).elim, fun hp => (hnot' (by rw [hp]; rfl)).elim⟩

theorem Contained.frame {s t : State π τ} (h : s.Contained) (ha : t.accepted = s.accepted)
    (hlife : t.lifecycle = s.lifecycle) (hq : t.queue_ = s.queue_)
    (hstage : t.toStage = s.toStage) (hpc : t.pc = s.pc)
    (htimers : s.pc = .clear_flags → t.timers_.post_bound = s.timers_.post_bound ∧
      ∀ entry, t.timers_.IsArmed entry → s.timers_.IsArmed entry) : t.Contained := by
  refine ⟨by rw [ha, hlife]; exact h.stamped, ?_, ?_, ?_⟩
  · rw [hpc, hq]
    exact h.emptied
  · rw [hpc, hstage]
    exact h.destructed
  · intro hp
    rw [hpc] at hp
    obtain ⟨hcache, hbound, hnone⟩ := h.cleared hp
    obtain ⟨hbound', harmed⟩ := htimers hp
    rw [hstage]
    exact ⟨hcache, hbound'.trans hbound, fun entry he => hnone entry (harmed entry he)⟩

theorem contained_notify {s : State π τ} (h : s.Contained) : s.notify.Contained := by
  cases hc : s.pc.closing with
  | false => exact h.aside rfl rfl (Or.inl ((Pc.closing_notify s.pc).trans hc))
  | true =>
      exact h.frame rfl rfl rfl rfl (Pc.notify_of_closing hc) fun _ => ⟨rfl, fun _ => id⟩

theorem begin_destroy_left (s : State π τ) (config : Config) (i : Nat) :
    (s.begin_destroy config i).pc ≠ .clear_flags ∧
      ((s.begin_destroy config i).pc.destructed = true →
        (s.begin_destroy config i).modules_ = false) := by
  unfold begin_destroy
  split_ifs
  · exact ⟨nofun, nofun⟩
  · exact ⟨nofun, fun _ => rfl⟩

theorem begin_on_stop_left (s : State π τ) (config : Config) (left : Nat) :
    (s.begin_on_stop config left).pc ≠ .clear_flags ∧
      ((s.begin_on_stop config left).pc.destructed = true →
        (s.begin_on_stop config left).modules_ = false) := by
  cases left with
  | zero => exact begin_destroy_left s config 0
  | succ => exact ⟨nofun, nofun⟩

theorem discard_left (s : State π τ) (config : Config) :
    (s.discard config).queue_ = [] ∧ (s.discard config).pc ≠ .clear_flags ∧
      ((s.discard config).pc.destructed = true → (s.discard config).modules_ = false) := by
  unfold discard
  split
  · rename_i hq
    exact ⟨by rw [ledger_begin_on_stop, hq], begin_on_stop_left ..⟩
  · exact ⟨by rw [ledger_begin_on_stop]; rfl, begin_on_stop_left ..⟩

variable [DecidableEq τ]

theorem contained_call {s : State π τ} (h : s.Contained) {caller : Caller τ} {op : Op π}
    (hg : s.contained (.call caller op) = true) : (s.begin_op caller op).Contained := by
  obtain ⟨hl, hstage, hpc⟩ := begin_op_frame s caller op
  cases hpc with
  | inr hpc =>
      obtain ⟨reason, hpc⟩ := hpc
      exact h.aside (by rw [hl]) (by rw [hl]) (Or.inr (by rw [hpc]; rfl))
  | inl hpc =>
      refine h.frame (by rw [hl]) (by rw [hl]) (by rw [hl]) hstage hpc fun hflags => ?_
      refine begin_op_timers s caller ?_
      cases op with
      | arm =>
          simp only [contained, ne_eq, decide_not, Bool.not_eq_true', decide_eq_false_iff_not]
            at hg
          exact absurd hflags hg
      | post | stop | cancel | fire_due => rfl

theorem contained_loop {s t : State π τ} (h : s.Contained) (hs : s.loop config = some t) :
    t.Contained := by
  have hstamped : ∀ post ∈ t.accepted, post.lifecycle = t.lifecycle := by
    cases loop_effect hs with
    | moved hl | returned hl | taken _ _ _ hl | discarded hl =>
        rw [hl]
        exact h.stamped
    | finished hp ht =>
        have hq := h.emptied (by rw [hp]; rfl) (by rw [hp]; rfl)
        subst ht
        intro post hmem
        have hmem' : post ∈ s.queue_ := hmem
        rw [hq] at hmem'
        exact nomatch hmem'
  have hclosing : t.pc.closing = true → t.pc.faulted = false →
      t.queue_ = [] ∧ (t.pc.destructed = true → t.modules_ = false) ∧
        (t.pc = .clear_flags → t.cache_ = false ∧ t.timers_.post_bound = false ∧
          ∀ entry, ¬t.timers_.IsArmed entry) := by
    intro hc hf
    cases loop_closing hs hc hf with
    | discard hp ht =>
        obtain ⟨hq, hflags, hmodules⟩ := discard_left s config
        subst ht
        exact ⟨hq, hmodules, fun hp => absurd hp hflags⟩
    | on_stop i hp ht =>
        obtain ⟨hflags, hmodules⟩ := begin_on_stop_left s config i
        have hq := h.emptied (by rw [hp]; rfl) (by rw [hp]; rfl)
        subst ht
        exact ⟨by rw [ledger_begin_on_stop]; exact hq, hmodules, fun hp => absurd hp hflags⟩
    | destroy i hp ht =>
        obtain ⟨hflags, hmodules⟩ := begin_destroy_left s config (i + 1)
        have hq := h.emptied (by rw [hp]; rfl) (by rw [hp]; rfl)
        subst ht
        exact ⟨by rw [ledger_begin_destroy]; exact hq, hmodules, fun hp => absurd hp hflags⟩
    | clear_timers hp ht =>
        have hq := h.emptied (by rw [hp]; rfl) (by rw [hp]; rfl)
        have hmodules := h.destructed (by rw [hp]; rfl)
        subst ht
        exact ⟨hq, fun _ => hmodules, fun _ =>
          ⟨rfl, rfl, fun entry => TimerService.isArmed_clear s.timers_ entry⟩⟩
  refine ⟨hstamped, fun hc hf => (hclosing hc hf).1, fun hd => ?_, fun hp => ?_⟩
  · obtain ⟨hc, hf⟩ := Pc.closing_of_destructed hd
    exact (hclosing hc hf).2.1 hd
  · exact (hclosing (by rw [hp]; rfl) (by rw [hp]; rfl)).2.2 hp

theorem contained_step {s t : State π τ} {event : Event π τ} (h : s.Contained)
    (hg : s.contained event = true) (hs : step config s event = some t) : t.Contained := by
  cases (step_rule hs).2 with
  | tick now => exact h.frame rfl rfl rfl rfl rfl fun _ => ⟨rfl, fun _ => id⟩
  | call caller op => exact contained_call h hg
  | post_dropped caller env rest | post_refused caller env rest =>
      have hl := ledger_post_next s caller rest
      refine h.frame (by rw [hl]) (by rw [hl]) (by rw [hl]) (stage_post_next ..)
        (pc_post_next ..) fun _ => ?_
      rw [timers_post_next]
      exact ⟨rfl, fun _ => id⟩
  | post_tested => exact h.frame rfl rfl rfl rfl rfl fun _ => ⟨rfl, fun _ => id⟩
  | post_pushed caller env rest hc _ hstop =>
      have hopen : s.pc.closing = false := by simpa [contained, hc, hstop] using hg
      have haccepted : ((s.push caller env).setCall caller (.post_notify rest)).accepted =
          s.accepted ++ [⟨env, caller, s.lifecycle⟩] := rfl
      refine ⟨fun post hmem => ?_, fun hc' => ?_, fun hd => ?_, fun hp => ?_⟩
      · rw [haccepted, List.mem_append, List.mem_singleton] at hmem
        cases hmem with
        | inl hmem => exact h.stamped post hmem
        | inr hmem => rw [hmem]; rfl
      · exact nomatch hopen.symm.trans hc'
      · exact nomatch hopen.symm.trans (Pc.closing_of_destructed hd).1
      · exact nomatch hopen.symm.trans (congrArg Pc.closing hp)
  | post_notified caller rest =>
      have hl := ledger_post_next s.notify caller rest
      refine (contained_notify h).frame (by rw [hl]) (by rw [hl]) (by rw [hl])
        (stage_post_next ..) (pc_post_next ..) fun _ => ?_
      rw [timers_post_next]
      exact ⟨rfl, fun _ => id⟩
  | stop_set => exact h.frame rfl rfl rfl rfl rfl fun _ => ⟨rfl, fun _ => id⟩
  | stop_notified =>
      exact (contained_notify h).frame rfl rfl rfl rfl rfl fun _ => ⟨rfl, fun _ => id⟩
  | start htop =>
      have hl := ledger_start s config
      exact h.aside (by rw [hl]) (by rw [hl])
        (pc_start s config (p := fun pc => pc.closing = false ∨ pc.faulted = true)
          (fun _ ho => Or.inl (Pc.aside_of_opening ho).1) fun _ => Or.inr rfl)
  | run | run_one | shutdown =>
      exact h.aside (congrArg Ledger.accepted (ledger_enter ..))
        (congrArg Ledger.lifecycle (ledger_enter ..))
        (pc_enter s (p := fun pc => pc.closing = false ∨ pc.faulted = true) _ _ (Or.inl rfl)
          (Or.inr rfl))
  | loop t _ hloop => exact contained_loop h hloop
  | wake | timeout => exact h.aside rfl rfl (Or.inl rfl)

-- A lifecycle leaves nothing behind: the runtime is fresh when `shutdown`
-- returns, and what a lifecycle dispatches came in during it.
def Isolated (config : Config) (s : State π τ) : Prop :=
  (∀ t, s.pc = .clear_flags → step config s .loop = some t → t.Fresh) ∧
    ∀ post ∈ s.dispatched, post.lifecycle = s.lifecycle

theorem Contained.fresh {s t : State π τ} (h : s.Contained) (hp : s.pc = .clear_flags)
    (hs : step config s .loop = some t) : t.Fresh := by
  obtain ⟨hcache, htimers⟩ := h.cleared hp
  have hmodules := h.destructed (by rw [hp]; rfl)
  have hq := h.emptied (by rw [hp]; rfl) (by rw [hp]; rfl)
  cases (step_rule hs).2 with
  | loop t _ hloop =>
      unfold loop at hloop
      rw [hp] at hloop
      obtain rfl := Option.some.inj hloop
      refine ⟨?_, ?_, htimers, rfl⟩
      · simp only [finish_shutdown, hq]
        rfl
      · simp only [finish_shutdown, hcache, hmodules]
        rfl

-- In a run that posts nothing into the end of a `shutdown` and arms no timer
-- there, lifecycles are isolated.
theorem isolated_of_contained {s : State π τ} {events : List (Event π τ)}
    (hm : (machine π τ config).Meets (fun u event => u.contained event) init events)
    (hr : (machine π τ config).run init events = some s) : s.Isolated config := by
  have hcontained : s.Contained := Lib.Machine.run_invariant_of_meets (I := Contained)
    (fun _ _ _ h hg hs => contained_step h hg hs) contained_init hm hr
  have hbalanced := reachable_balanced ⟨events, hr⟩
  refine ⟨fun t hp hs => hcontained.fresh hp hs, fun post hmem => ?_⟩
  refine hcontained.stamped post ?_
  rw [hbalanced.accepted, List.append_assoc]
  exact List.mem_append_left _ hmem

-- A thread posts before `shutdown` and a hook posts after `stop`: the first is
-- dispatched in its lifecycle, the second dropped.
def tidyRun : List (Event Nat Nat) :=
  [.start, .loop, .loop, .call (.foreign 1) (.post ⟨0, 7, 1, 42⟩), .advance (.foreign 1),
    .advance (.foreign 1), .advance (.foreign 1), .shutdown, .loop, .call .loop .stop,
    .advance .loop, .advance .loop, .loop, .loop, .loop, .call .loop (.post ⟨0, 7, 1, 43⟩),
    .advance .loop, .loop, .loop, .loop]

theorem isolated_of_contained_tidyRun :
    ∃ s : State Nat Nat, (machine Nat Nat ⟨[7], 5⟩).run init tidyRun = some s ∧
      s.pc = .clear_flags ∧ s.dispatched.length = 1 ∧ s.Isolated ⟨[7], 5⟩ := by
  have hrun : ((machine Nat Nat ⟨[7], 5⟩).run init tidyRun).map
      (fun s => (s.pc, s.dispatched.length)) = some (.clear_flags, 1) := by
    decide +kernel
  obtain ⟨s, hs, hp⟩ := Option.map_eq_some_iff.mp hrun
  obtain ⟨hflags, hdispatched⟩ := Prod.mk.inj hp
  exact ⟨s, hs, hflags, hdispatched, isolated_of_contained (by decide +kernel) hs⟩

-- An `on_stop` hook posts, with `stop` not called before: the envelope stays in
-- the queue and reaches the module of the next lifecycle.
def leftoverRun : List (Event Nat Nat) :=
  [.start, .loop, .loop, .shutdown, .loop, .loop, .call .loop (.post ⟨0, 7, 1, 42⟩),
    .advance .loop, .advance .loop, .advance .loop, .loop, .loop, .loop, .loop, .start, .loop,
    .loop, .run_one, .loop]

theorem not_always_isolated :
    ¬∀ s : State Nat Nat, (machine Nat Nat ⟨[7], 5⟩).Reachable s → s.Isolated ⟨[7], 5⟩ := by
  intro h
  have hrun : ((machine Nat Nat ⟨[7], 5⟩).run init leftoverRun).map
      (fun s => (s.dispatched, s.lifecycle)) = some ([⟨⟨0, 7, 1, 42⟩, .loop, 0⟩], 1) := by
    decide +kernel
  obtain ⟨s, hs, hp⟩ := Option.map_eq_some_iff.mp hrun
  obtain ⟨hdispatched, hlife⟩ := Prod.mk.inj hp
  have hstamp := (h s ⟨leftoverRun, hs⟩).2 ⟨⟨0, 7, 1, 42⟩, .loop, 0⟩ (by simp [hdispatched])
  exact nomatch hstamp.trans hlife

end State

end Runtime

end CortexFlow
