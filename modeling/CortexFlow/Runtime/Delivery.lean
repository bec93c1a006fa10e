import CortexFlow.Runtime.Effects

namespace CortexFlow

namespace Runtime

-- The posts accepted are those dispatched, those thrown away by `shutdown` and
-- those that wait, in this order.
structure Ledger.Balanced {π τ : Type*} (a : Ledger π τ) (pc : Pc) : Prop where
  accepted : a.accepted = a.dispatched ++ a.discarded ++ a.queue_
  discarded : pc.closing = false → a.discarded = []
  final : pc.finalDrain = true → a.stop_requested_ = true
  returned : a.run_returned = true →
    a.queue_ = [] ∧ a.discarded = [] ∧ a.stop_requested_ = true

def Call.inFlight {π : Type*} : Call π → List (Envelope π)
  | .post_test env _ | .post_lock env _ => [env]
  | _ => []

namespace State

variable {π τ : Type*} {config : Config}

def Balanced (s : State π τ) : Prop := s.toLedger.Balanced s.pc

theorem balanced_init : (init : State π τ).Balanced :=
  ⟨rfl, fun _ => rfl, nofun, nofun⟩

theorem balanced_loop {s t : State π τ} (h : s.Balanced) (hs : LoopEffect s t) :
    t.Balanced := by
  have hopen (hc : s.pc.closing = false) : s.accepted = s.dispatched ++ s.queue_ := by
    rw [h.accepted, h.discarded hc, List.append_nil]
  cases hs with
  | moved hledger hclosing hlast =>
      unfold Balanced
      rw [hledger]
      refine ⟨h.accepted, fun hc => h.discarded ?_, fun hf => ?_, h.returned⟩
      · by_contra hc'
        exact absurd (hc.symm.trans (hclosing (by simpa using hc'))) nofun
      · exact (hlast hf).elim h.final id
  | returned hledger hq hstop hclosing hpc =>
      unfold Balanced
      rw [hledger, hpc]
      exact ⟨h.accepted, fun _ => h.discarded hclosing, nofun, fun _ =>
        ⟨hq, h.discarded hclosing, hstop.elim h.final id⟩⟩
  | taken post queue hq hledger hclosing hlast =>
      unfold Balanced
      rw [hledger]
      refine ⟨?_, fun _ => h.discarded hclosing, fun hf => h.final (hlast hf), fun hr => ?_⟩
      · simp [hopen hclosing, h.discarded hclosing, hq]
      · exact absurd ((h.returned hr).1.symm.trans hq) nofun
  | discarded hledger hq hclosing hclosing' =>
      unfold Balanced
      rw [hledger]
      refine ⟨?_, fun hc => absurd (hc.symm.trans hclosing') nofun, fun hf => ?_, fun hr => ?_⟩
      · simp [hopen hclosing]
      · exact absurd (hf.symm.trans (Pc.not_finalDrain_of_closing hclosing')) nofun
      · exact absurd (h.returned hr).1 hq
  | finished hp ht =>
      subst ht
      exact ⟨rfl, fun _ => rfl, nofun, nofun⟩

variable [DecidableEq τ]

theorem balanced_step {s t : State π τ} {event : Event π τ} (h : s.Balanced)
    (hs : step config s event = some t) : t.Balanced := by
  cases step_effect hs with
  | aside hl hclosing hlast =>
      unfold Balanced
      rw [hl]
      refine ⟨h.accepted, fun hc => h.discarded ?_, fun hf => h.final (hlast hf), h.returned⟩
      by_contra hc'
      exact absurd (hc.symm.trans (hclosing (by simpa using hc'))) nofun
  | pushed caller env rest hc hstop ht =>
      subst ht
      refine ⟨?_, h.discarded, h.final, fun hr => ?_⟩
      · simp [push, setCall, h.accepted]
      · exact absurd (hstop.symm.trans (h.returned hr).2.2) nofun
  | stopped hl hpc =>
      unfold Balanced
      rw [hl, hpc]
      exact ⟨h.accepted, h.discarded, fun _ => rfl, fun hr =>
        ⟨(h.returned hr).1, (h.returned hr).2.1, rfl⟩⟩
  | loop hloop => exact balanced_loop h hloop

theorem reachable_balanced {s : State π τ} (h : (machine π τ config).Reachable s) : s.Balanced :=
  h.invariant balanced_init fun _ _ _ hi hs => balanced_step hi hs

-- The envelopes a thread has begun to post, and those of them that came in.
def issuedBy (s : State π τ) (caller : Caller τ) : List (Envelope π) :=
  (s.issued.filter fun entry => entry.1 = caller).map Prod.snd

def acceptedBy (s : State π τ) (caller : Caller τ) : List (Envelope π) :=
  (s.accepted.filter fun post => post.caller = caller).map Post.env

-- What came in from a thread is what it has posted, in its own order, with the
-- posts that were dropped left out; a post under way has not come in yet.
def InOrder (s : State π τ) (caller : Caller τ) : Prop :=
  ∃ earlier, s.issuedBy caller = earlier ++ (s.calls caller).inFlight ∧
    (s.acceptedBy caller).Sublist earlier

theorem InOrder.sublist {s : State π τ} {caller : Caller τ} (h : s.InOrder caller) :
    (s.acceptedBy caller).Sublist (s.issuedBy caller) := by
  obtain ⟨earlier, hissued, hsub⟩ := h
  rw [hissued]
  exact hsub.trans (List.sublist_append_left ..)

theorem InOrder.congr {s t : State π τ} {caller : Caller τ} (h : s.InOrder caller)
    (hl : t.accepted = s.accepted) (hi : t.issued = s.issued)
    (hc : (t.calls caller).inFlight = [] ∨ t.calls caller = s.calls caller) :
    t.InOrder caller := by
  have hissued : t.issuedBy caller = s.issuedBy caller := by unfold issuedBy; rw [hi]
  have haccepted : t.acceptedBy caller = s.acceptedBy caller := by unfold acceptedBy; rw [hl]
  unfold InOrder
  rw [hissued, haccepted]
  cases hc with
  | inl hc => exact ⟨s.issuedBy caller, by rw [hc, List.append_nil], h.sublist⟩
  | inr hc => exact hc ▸ h

theorem inOrder_setCall {s : State π τ} (h : ∀ other, s.InOrder other) (caller : Caller τ)
    (call : Call π) (hc : call.inFlight = [] ∨ call.inFlight = (s.calls caller).inFlight) :
    ∀ other, (s.setCall caller call).InOrder other := by
  intro other
  by_cases ho : other = caller
  · subst ho
    have hself : (s.setCall other call).calls other = call := Function.update_self ..
    cases hc with
    | inl hc => exact (h other).congr rfl rfl (Or.inl (by rw [hself, hc]))
    | inr hc =>
        obtain ⟨earlier, hissued, hsub⟩ := h other
        exact ⟨earlier, by rw [hself, hc]; exact hissued, hsub⟩
  · exact (h other).congr rfl rfl (Or.inr (Function.update_of_ne ho ..))

theorem inOrder_post_next {s : State π τ} (h : ∀ other, s.InOrder other) (caller : Caller τ)
    (envs : List (Envelope π)) : ∀ other, (s.post_next caller envs).InOrder other := by
  cases envs with
  | nil => exact inOrder_setCall h caller .outside (Or.inl rfl)
  | cons env rest =>
      intro other
      by_cases ho : other = caller
      · subst ho
        refine ⟨s.issuedBy other, ?_, (h other).sublist⟩
        simp [post_next, setCall, issuedBy, Call.inFlight]
      · obtain ⟨earlier, hissued, hsub⟩ := h other
        refine ⟨earlier, ?_, hsub⟩
        have hcalls : (s.post_next caller (env :: rest)).calls other = s.calls other :=
          Function.update_of_ne ho ..
        rw [hcalls, ← hissued]
        simp [post_next, setCall, issuedBy, Ne.symm ho]

theorem inOrder_fire_due {s : State π τ} (h : ∀ other, s.InOrder other) (caller : Caller τ) :
    ∀ other, (s.fire_due caller).InOrder other := by
  unfold fire_due
  split
  · exact fun other => (h other).congr rfl rfl (Or.inr rfl)
  · rename_i timers to_fire _
    exact inOrder_post_next (s := { s with timers_ := timers })
      (fun other => (h other).congr rfl rfl (Or.inr rfl)) caller _

theorem inOrder_begin_op {s : State π τ} (h : ∀ other, s.InOrder other) (caller : Caller τ)
    (op : Op π) : ∀ other, (s.begin_op caller op).InOrder other := by
  cases op with
  | post env => exact inOrder_post_next h caller [env]
  | stop => exact inOrder_setCall h caller .stop_lock (Or.inl rfl)
  | arm =>
      simp only [begin_op]
      split <;> exact fun other => (h other).congr rfl rfl (Or.inr rfl)
  | cancel seq => exact fun other => (h other).congr rfl rfl (Or.inr rfl)
  | fire_due => exact inOrder_fire_due h caller

theorem inOrder_push {s : State π τ} (h : ∀ other, s.InOrder other) {caller : Caller τ}
    {env : Envelope π} {rest : List (Envelope π)} (hc : s.calls caller = .post_lock env rest) :
    ∀ other, ((s.push caller env).setCall caller (.post_notify rest)).InOrder other := by
  intro other
  obtain ⟨earlier, hissued, hsub⟩ := h other
  by_cases ho : other = caller
  · subst ho
    refine ⟨s.issuedBy other, ?_, ?_⟩
    · simp [push, setCall, issuedBy, Call.inFlight]
    · have hnew : ((s.push other env).setCall other (.post_notify rest)).acceptedBy other =
          s.acceptedBy other ++ [env] := by
        simp [push, setCall, acceptedBy]
      rw [hnew, hissued, hc]
      exact hsub.append (List.Sublist.refl _)
  · refine ⟨earlier, ?_, ?_⟩
    · simpa [push, setCall, issuedBy, Function.update_of_ne ho] using hissued
    · simpa [push, setCall, acceptedBy, Ne.symm ho] using hsub

theorem inOrder_loop {s t : State π τ} (hb : s.Balanced) (h : ∀ other, s.InOrder other)
    (hs : s.loop config = some t) : ∀ other, t.InOrder other := by
  have hsame (ha : t.accepted = s.accepted) (hshared : t.toShared = s.toShared) :
      ∀ other, t.InOrder other := fun other =>
    (h other).congr ha (congrArg Shared.issued hshared)
      (Or.inr (congrFun (congrArg Shared.calls hshared) other))
  obtain hshared | ⟨_, rfl⟩ | ⟨_, rfl⟩ := loop_shared hs
  · cases loop_effect hs with
    | moved hl | returned hl | taken _ _ _ hl | discarded hl =>
        exact hsame (by rw [hl]) hshared
    | finished hp ht =>
        -- What waits in the queue is now all that counts as accepted.
        subst ht
        intro other
        obtain ⟨earlier, hissued, hsub⟩ := h other
        refine ⟨earlier, hissued, List.Sublist.trans ?_ hsub⟩
        have hqueue : s.queue_.Sublist s.accepted := hb.accepted ▸ List.sublist_append_right ..
        exact (hqueue.filter _).map _
  · exact inOrder_fire_due (s := { s with pc := .firing })
      (fun other => (h other).congr rfl rfl (Or.inr rfl)) .loop
  · exact fun other => (h other).congr rfl rfl (Or.inr rfl)

theorem inOrder_step {s t : State π τ} {event : Event π τ} (hb : s.Balanced)
    (h : ∀ other, s.InOrder other) (hs : step config s event = some t) :
    ∀ other, t.InOrder other := by
  have hsame {u : State π τ} (ha : u.toLedger = s.toLedger) (hc : u.calls = s.calls)
      (hi : u.issued = s.issued) : ∀ other, u.InOrder other := fun other =>
    (h other).congr (congrArg Ledger.accepted ha) hi (Or.inr (congrFun hc other))
  cases (step_rule hs).2 with
  | tick | wake | timeout => exact hsame rfl rfl rfl
  | call caller op => exact inOrder_begin_op h caller op
  | post_dropped caller env rest | post_refused caller env rest =>
      exact inOrder_post_next h caller rest
  | post_tested caller env rest hc =>
      exact inOrder_setCall h caller _ (Or.inr (by rw [hc]; rfl))
  | post_pushed caller env rest hc => exact inOrder_push h hc
  | post_notified caller rest => exact inOrder_post_next (s := s.notify) h caller rest
  | stop_set caller hc =>
      exact inOrder_setCall (s := { s with stop_requested_ := true }) h caller _ (Or.inl rfl)
  | stop_notified caller hc => exact inOrder_setCall (s := s.notify) h caller _ (Or.inl rfl)
  | start htop =>
      obtain ⟨hc, hi⟩ := start_calls s config
      exact hsame (ledger_start ..) hc hi
  | run htop | run_one htop | shutdown htop =>
      exact hsame (ledger_enter ..) (congrArg Shared.calls (shared_enter ..))
        (congrArg Shared.issued (shared_enter ..))
  | loop t hidle hloop => exact inOrder_loop hb h hloop

theorem reachable_inOrder {s : State π τ} (h : (machine π τ config).Reachable s) :
    ∀ caller, s.InOrder caller := by
  have hinit : (init : State π τ).Balanced ∧ ∀ caller, (init : State π τ).InOrder caller :=
    ⟨balanced_init, fun _ => ⟨[], rfl, List.Sublist.refl _⟩⟩
  exact (h.invariant (I := fun u => u.Balanced ∧ ∀ caller, u.InOrder caller) hinit
    fun _ _ _ hi hs => ⟨balanced_step hi.1 hs, inOrder_step hi.1 hi.2 hs⟩).2

-- Once the stop flag is set, nothing comes in and the flag stays until the
-- lifecycle is over.
theorem stopped_step {s t : State π τ} {event : Event π τ} (hstop : s.stop_requested_ = true)
    (hs : step config s event = some t) :
    (t.lifecycle = s.lifecycle ∧ t.stop_requested_ = true ∧ t.accepted = s.accepted) ∨
      t.lifecycle = s.lifecycle + 1 := by
  cases step_effect hs with
  | aside hl | stopped hl => exact Or.inl (by rw [hl]; exact ⟨rfl, by simp [hstop], rfl⟩)
  | pushed _ _ _ _ hs => exact absurd (hstop.symm.trans hs) nofun
  | loop hloop =>
      cases hloop with
      | moved hl | returned hl | taken _ _ _ hl | discarded hl =>
          exact Or.inl (by rw [hl]; exact ⟨rfl, hstop, rfl⟩)
      | finished _ ht => exact Or.inr (ht ▸ rfl)

theorem lifecycle_step {s t : State π τ} {event : Event π τ}
    (hs : step config s event = some t) : s.lifecycle ≤ t.lifecycle := by
  cases step_effect hs with
  | aside hl | stopped hl => rw [hl]
  | pushed _ _ _ _ _ ht => exact ht ▸ le_rfl
  | loop hloop =>
      cases hloop with
      | moved hl | returned hl | taken _ _ _ hl | discarded hl => rw [hl]
      | finished _ ht => exact ht ▸ Nat.le_succ _

theorem stopped_run {s t : State π τ} {events : List (Event π τ)}
    (hstop : s.stop_requested_ = true) (hr : (machine π τ config).run s events = some t)
    (hlife : t.lifecycle = s.lifecycle) : t.accepted = s.accepted := by
  let I (u : State π τ) : Prop := s.lifecycle ≤ u.lifecycle ∧
    (u.lifecycle = s.lifecycle → u.stop_requested_ = true ∧ u.accepted = s.accepted)
  have hstep : ∀ u event v, I u → (machine π τ config).step u event = some v → I v := by
    intro u event v hu hs
    have hmono := lifecycle_step hs
    refine ⟨hu.1.trans hmono, fun hv => ?_⟩
    obtain ⟨hustop, huaccepted⟩ := hu.2 (by have := hu.1; omega)
    cases stopped_step hustop hs with
    | inl h => exact ⟨h.2.1, h.2.2.trans huaccepted⟩
    | inr h =>
        have := hu.1
        omega
  have hrun : I t := Lib.Machine.run_invariant hstep ⟨le_rfl, fun _ => ⟨hstop, rfl⟩⟩ hr
  exact (hrun.2 hlife).2

-- Envelopes reach `dispatch` in the order in which they were accepted, none
-- twice and none left out; what each thread posts keeps its order; nothing is
-- accepted after `stop`; and when `run` returns, all that was accepted has been
-- dispatched.
theorem delivers_in_order {s : State π τ} (hr : (machine π τ config).Reachable s) :
    s.dispatched <+: s.accepted ∧
    (s.discarded = [] → s.accepted = s.dispatched ++ s.queue_) ∧
    (∀ caller, (s.acceptedBy caller).Sublist (s.issuedBy caller)) ∧
    (s.stop_requested_ = true → ∀ events t, (machine π τ config).run s events = some t →
      t.lifecycle = s.lifecycle → t.accepted = s.accepted) ∧
    (s.run_returned = true → s.queue_ = [] ∧ s.dispatched = s.accepted) := by
  have hb := reachable_balanced hr
  refine ⟨?_, fun hd => ?_, fun caller => (reachable_inOrder hr caller).sublist,
    fun hstop events t => stopped_run hstop, fun hret => ?_⟩
  · rw [hb.accepted, List.append_assoc]
    exact List.prefix_append ..
  · rw [hb.accepted, hd, List.append_nil]
  · obtain ⟨hq, hd, _⟩ := hb.returned hret
    exact ⟨hq, by rw [hb.accepted, hd, hq, List.append_nil, List.append_nil]⟩

-- A thread posts while the loop waits; the handler it wakes calls `stop` and
-- returns, and `run` ends.
def stoppedRun : List (Event Nat Nat) :=
  [.start, .loop, .loop, .run, .loop, .loop, .loop, .call (.foreign 1) (.post ⟨0, 7, 1, 42⟩),
    .advance (.foreign 1), .advance (.foreign 1), .advance (.foreign 1), .wake, .loop, .loop,
    .loop, .loop, .loop, .loop, .call .loop .stop, .advance .loop, .advance .loop, .loop, .loop,
    .loop, .loop]

theorem delivers_in_order_stoppedRun :
    ∃ s : State Nat Nat, (machine Nat Nat ⟨[7], 5⟩).Reachable s ∧ s.run_returned = true ∧
      s.dispatched = [⟨⟨0, 7, 1, 42⟩, .foreign 1, 0⟩] ∧ s.dispatched = s.accepted := by
  have hrun : ((machine Nat Nat ⟨[7], 5⟩).run init stoppedRun).map
      (fun s => (s.run_returned, s.dispatched)) =
      some (true, [⟨⟨0, 7, 1, 42⟩, .foreign 1, 0⟩]) := by
    decide +kernel
  obtain ⟨s, hs, hp⟩ := Option.map_eq_some_iff.mp hrun
  obtain ⟨hreturned, hdispatched⟩ := Prod.mk.inj hp
  have hr : (machine Nat Nat ⟨[7], 5⟩).Reachable s := ⟨stoppedRun, hs⟩
  obtain ⟨_, _, _, _, hreturn⟩ := delivers_in_order hr
  exact ⟨s, hr, hreturned, hdispatched, (hreturn hreturned).2⟩

end State

end Runtime

end CortexFlow
