import CortexFlow.Runtime.Pending
import CortexFlow.ButtonPipeline.ClickClassifier
import Mathlib

namespace CortexFlow

namespace Runtime.State

variable {π τ : Type*}

theorem sent_posts {caller : Caller τ} {env : Envelope (Sent π)} {event : Event π τ}
    (h : event.sent = .call caller (.post env)) : env.payload_.origin = none := by
  cases event with
  | call other op => cases op <;> cases h; rfl
  | _ => exact nomatch h

theorem sent_arms {caller : Caller τ} {delay : Int} {env : Envelope (Sent π)}
    {owner_name type_name : String} {event : Event π τ}
    (h : event.sent = .call caller (.arm delay env owner_name type_name)) :
    env.payload_.origin = none := by
  cases event with
  | call other op => cases op <;> cases h; rfl
  | _ => exact nomatch h

end Runtime.State

namespace Owner

namespace State

open Lib

variable {S π τ : Type*} {params : Params S π} {config : Runtime.Config}

-- No envelope of the timer waits in the queue or is about to be posted.
def Unsent (s : State S π τ) (seq : Nat) : Prop :=
  (∀ post ∈ s.runtime.queue_, post.env.payload_.origin ≠ some seq) ∧
    ∀ caller, ∀ env ∈ (s.runtime.calls caller).envelopes, env.payload_.origin ≠ some seq

theorem Unsent.holds {s : State S π τ} {seq : Nat} (h : s.Unsent seq)
    {env : Envelope (Sent π)} (he : s.runtime.Holds env) : env.payload_.origin ≠ some seq := by
  cases he with
  | inl he =>
      obtain ⟨post, hmem, rfl⟩ := he
      exact h.1 post hmem
  | inr he =>
      obtain ⟨caller, hmem⟩ := he
      exact h.2 caller env hmem

-- The timer that Locals are about to let go of.
def departing (s : State S π τ) : Option Nat :=
  match s.todo, s.held with
  | .destruct :: _, seq :: _ => some seq
  | _, _ => none

-- When a state is left, its timers have not gone off yet, or what they sent has
-- been dispatched.
def OnTime (s : State S π τ) : Event S π τ → Prop
  | .locals => ∀ seq ∈ s.departing, s.Unsent seq
  | _ => True

instance [Fintype τ] (s : State S π τ) (seq : Nat) : Decidable (s.Unsent seq) :=
  instDecidableAnd

instance [Fintype τ] (s : State S π τ) : (event : Event S π τ) → Decidable (s.OnTime event)
  | .locals => inferInstanceAs (Decidable (∀ seq ∈ s.departing, s.Unsent seq))
  | .runtime _ | .flow _ | .hold _ | .release _ => .isTrue trivial

structure Settled (s : State S π τ) : Prop where
  pending : ∀ env, s.runtime.Holds env → ∀ seq, env.payload_.origin = some seq →
    seq ∉ s.departed ∧ seq < s.runtime.timers_.next_seq_
  armed : ∀ entry, s.runtime.timers_.IsArmed entry →
    ∀ seq, entry.envelope.payload_.origin = some seq → entry.seq = seq
  held : ∀ seq ∈ s.held, seq < s.runtime.timers_.next_seq_
  departed : ∀ seq ∈ s.departed,
    seq < s.runtime.timers_.next_seq_ ∧ seq ∉ s.runtime.timers_.live_seqs_

theorem settled_init (params : Params S π) : (init params : State S π τ).Settled where
  pending := by
    intro env h
    cases h with
    | inl h => exact absurd h.choose_spec.1 List.not_mem_nil
    | inr h => exact absurd h.choose_spec List.not_mem_nil
  armed := fun entry he => absurd he (TimerService.isArmed_init entry)
  held := nofun
  departed := nofun

-- A step of the runtime, which may have armed a timer under its own number.
theorem Settled.step {s t : State S π τ} (h : s.Settled) (event : Runtime.Event (Sent π) τ)
    (hholds : ∀ env, t.runtime.Holds env → s.runtime.Holds env ∨
      env.payload_.origin = none ∨
      ∃ entry, s.runtime.timers_.IsArmed entry ∧ entry.envelope = env)
    (htimers : Runtime.State.TimersStep s.runtime.timers_ t.runtime.timers_ event)
    (harms : ∀ caller delay env owner_name type_name,
      event = .call caller (.arm delay env owner_name type_name) →
      ∀ seq, env.payload_.origin = some seq → seq = s.runtime.timers_.next_seq_)
    (hdeparted : t.departed = s.departed)
    (hheld : ∀ seq ∈ t.held, seq ∈ s.held ∨ seq < t.runtime.timers_.next_seq_) : t.Settled := by
  have hnext := htimers.next_seq
  refine ⟨fun env henv seq hseq => ?_, fun entry he seq hseq => ?_, fun seq hseq => ?_,
    fun seq hseq => ?_⟩
  · rw [hdeparted]
    obtain hold | hnone | ⟨entry, he, rfl⟩ := hholds env henv
    · obtain ⟨hleft, hlt⟩ := h.pending env hold seq hseq
      exact ⟨hleft, hlt.trans_le hnext⟩
    · exact nomatch hnone.symm.trans hseq
    · obtain rfl := h.armed entry he seq hseq
      refine ⟨fun hleft => (h.departed _ hleft).2 he.2, ?_⟩
      exact (TimerService.isArmed_used he).trans_le hnext
  · cases htimers.armed entry he with
    | inl hold => exact h.armed entry hold seq hseq
    | inr hnew =>
        obtain ⟨hnumber, caller, delay, owner_name, type_name, hevent⟩ := hnew
        exact hnumber.trans (harms _ _ _ _ _ hevent seq hseq).symm
  · cases hheld seq hseq with
    | inl hold => exact (h.held seq hold).trans_le hnext
    | inr hnew => exact hnew
  · rw [hdeparted] at hseq
    obtain ⟨hlt, hdead⟩ := h.departed seq hseq
    exact ⟨hlt.trans_le hnext, htimers.retired hlt hdead⟩

theorem settled_congr {s t : State S π τ} (h : s.Settled) (hruntime : t.runtime = s.runtime)
    (hheld : t.held = s.held) (hdeparted : t.departed = s.departed) : t.Settled := by
  obtain ⟨hpending, harmed, hold, hleft⟩ := h
  exact ⟨by rw [hruntime, hdeparted]; exact hpending, by rw [hruntime]; exact harmed,
    by rw [hruntime, hheld]; exact hold, by rw [hruntime, hdeparted]; exact hleft⟩

variable [DecidableEq τ]

theorem settled_runtime {s : State S π τ} (h : s.Settled) {event : Runtime.Event π τ}
    {runtime : Runtime.State (Sent π) τ}
    (hs : s.runtime.step config event.sent = some runtime) :
    Settled { s with runtime := runtime } := by
  refine h.step event.sent (fun env henv => ?_) (Runtime.State.timersStep hs)
    (fun _ _ _ _ _ hevent seq hseq => ?_) rfl fun _ => Or.inl
  · obtain hold | ⟨caller, hpost⟩ | harmed := Runtime.State.holds_step hs henv
    · exact Or.inl hold
    · exact Or.inr (Or.inl (Runtime.State.sent_posts hpost))
    · exact Or.inr (Or.inr harmed)
  · exact nomatch (Runtime.State.sent_arms hevent).symm.trans hseq

theorem settled_arm {s : State S π τ} (h : s.Settled) (timer : LocalTimer π) :
    (s.arm timer).Settled := by
  let env := timer.env.sent (some s.runtime.timers_.next_seq_)
  let op : Runtime.Op (Sent π) := .arm timer.delay env timer.owner_name timer.type_name
  have hruntime : (s.arm timer).runtime = s.runtime.begin_op .loop op := by
    simp only [arm, op, env, Runtime.State.begin_op, TimerService.arm]
    split_ifs <;> rfl
  refine h.step (.call .loop op) (fun other hother => ?_) ?_
    (fun _ _ _ _ _ hevent seq hseq => ?_) ?_ ?_
  · rw [hruntime] at hother
    obtain hold | hpost | harmed := Runtime.State.holds_begin_op hother
    · exact Or.inl hold
    · simp [op] at hpost
    · exact Or.inr (Or.inr harmed)
  · rw [hruntime]
    exact Runtime.State.timersStep_begin_op ..
  · simp only [op, Runtime.Event.call.injEq, Runtime.Op.arm.injEq] at hevent
    obtain ⟨_, _, rfl, _⟩ := hevent
    exact (Option.some.inj hseq).symm
  · simp only [arm, TimerService.arm]
    split_ifs <;> rfl
  · simp only [arm, TimerService.arm]
    split_ifs
    · exact fun _ => Or.inl
    · intro seq hseq
      cases List.mem_cons.mp hseq with
      | inl hnew => exact Or.inr (hnew ▸ Nat.lt_succ_self _)
      | inr hold => exact Or.inl hold

theorem settled_cancel {s : State S π τ} (h : s.Settled) (seq : Nat) {held : List Nat}
    (hheld : ∀ other ∈ held, other ∈ s.held) :
    Settled { s.cancel seq with held := held } := by
  have hruntime : (s.cancel seq).runtime = s.runtime.begin_op .loop (.cancel seq) := rfl
  refine h.step (.call .loop (.cancel seq)) (fun other hother => ?_) ?_ nofun rfl
    fun other hother => Or.inl (hheld other hother)
  · obtain hold | hpost | harmed := Runtime.State.holds_begin_op (hruntime ▸ hother)
    · exact Or.inl hold
    · exact nomatch hpost
    · exact Or.inr (Or.inr harmed)
  · exact Runtime.State.timersStep_begin_op s.runtime .loop (.cancel seq)

-- A timer goes with its Locals: it is cancelled, and nothing of it is on the way.
theorem settled_depart {s : State S π τ} (h : s.Settled) {seq : Nat} {held : List Nat}
    (hs : s.held = seq :: held) (hg : s.Unsent seq) :
    Settled { s.cancel seq with held := held, departed := seq :: s.departed } := by
  have hcancel : Settled { s.cancel seq with held := held } :=
    settled_cancel h seq fun other ho => by rw [hs]; exact List.mem_cons_of_mem _ ho
  refine ⟨fun env henv other hother => ?_, hcancel.armed, hcancel.held, fun other hother => ?_⟩
  · obtain ⟨hleft, hlt⟩ := hcancel.pending env henv other hother
    refine ⟨fun hmem => ?_, hlt⟩
    cases List.mem_cons.mp hmem with
    | inl hnow =>
        have hold : s.runtime.Holds env := henv.of_subset (fun _ => id) rfl
        exact hg.holds hold (hnow ▸ hother)
    | inr hbefore => exact hleft hbefore
  · cases List.mem_cons.mp hother with
    | inr hbefore => exact hcancel.departed other hbefore
    | inl hnow =>
        subst hnow
        have hlt : other < s.runtime.timers_.next_seq_ :=
          h.held other (by rw [hs]; exact List.mem_cons_self)
        refine ⟨(TimerService.next_seq_cancel_by_seq ..).symm ▸ hlt, fun hlive => ?_⟩
        obtain ⟨entry, he, hseq⟩ := (TimerService.live_iff_isArmed _ _).mp hlive
        exact ((TimerService.isArmed_cancel_by_seq ..).mp he).2 hseq

theorem settled_local {s t : State S π τ} (h : s.Settled) (hg : s.OnTime .locals)
    (hs : s.localStep = some t) : t.Settled := by
  unfold localStep at hs
  split at hs
  · exact nomatch hs
  · rename_i timer todo htodo
    exact Option.some.inj hs ▸ settled_congr (settled_arm h timer) rfl rfl rfl
  · rename_i todo htodo
    split at hs
    · exact Option.some.inj hs ▸ settled_congr h rfl rfl rfl
    · rename_i seq held hheld
      have hunsent : s.Unsent seq := hg seq (by simp [departing, htodo, hheld])
      exact Option.some.inj hs ▸ settled_depart h hheld hunsent

theorem settled_step {s t : State S π τ} {event : Event S π τ} (h : s.Settled)
    (hg : s.OnTime event) (hs : step params config s event = some t) : t.Settled := by
  cases event with
  | runtime event =>
      simp only [step] at hs
      split_ifs at hs
      obtain ⟨runtime, hr, rfl⟩ := Option.map_eq_some_iff.mp hs
      exact settled_runtime h hr
  | flow event =>
      simp only [step] at hs
      split_ifs at hs
      obtain ⟨flow, _, rfl⟩ := Option.map_eq_some_iff.mp hs
      exact settled_congr h rfl rfl rfl
  | locals =>
      simp only [step] at hs
      split_ifs at hs
      exact settled_local h hg hs
  | hold timer =>
      simp only [step] at hs
      split_ifs at hs
      exact Option.some.inj hs ▸ settled_arm h timer
  | release seq =>
      simp only [step] at hs
      split_ifs at hs
      exact Option.some.inj hs ▸ settled_cancel h seq fun _ => List.mem_of_mem_erase

-- Whatever the runtime does next, it dispatches nothing from a timer of a state
-- that has been left.
def Dies (config : Runtime.Config) (s : State S π τ) : Prop :=
  ∀ event t post, s.runtime.step config event = some t →
    t.dispatched = s.runtime.dispatched ++ [post] →
    ∀ seq ∈ s.departed, post.env.payload_.origin ≠ some seq

-- If no state is left while something from its timers is on the way, state-local
-- timers die with their states.
theorem dies_of_onTime {s : State S π τ} {events : List (Event S π τ)}
    (hm : (machine τ params config).Meets OnTime (init params) events)
    (hr : (machine τ params config).run (init params) events = some s) : s.Dies config := by
  have hsettled : s.Settled := Machine.run_invariant_of_meets (I := Settled)
    (fun _ _ _ h hg hs => settled_step h hg hs) (settled_init params) hm hr
  intro event t post hs hd seq hleft horigin
  have hqueue := Runtime.State.dispatched_step hs hd
  exact (hsettled.pending post.env (Or.inl ⟨post, hqueue, rfl⟩) seq horigin).1 hleft

end State

end Owner

namespace ButtonPipeline

namespace ClickClassifier

open Owner (Event)

open Owner.State (init machine)

-- A thread posts to the module.
def posted (payload : Payload) : List (Event State Payload (Fin 2)) :=
  [.runtime (.call (.foreign 1) (.post (make_message kNoSender kClickClassifier payload))),
    .runtime (.advance (.foreign 1)), .runtime (.advance (.foreign 1)),
    .runtime (.advance (.foreign 1))]

-- The loop dispatches an envelope to the module, which hands it to its flow.
def handled (tag : State) (payload : Payload) : List (Event State Payload (Fin 2)) :=
  [.runtime .loop, .flow (.step (make_message kNoSender kClickClassifier payload)),
    .flow (.returns (tag.handle (make_message kNoSender kClickClassifier payload)))]

-- The clock is advanced, and fires what is due.
def advanced (now : Int) (fired : Nat) : List (Event State Payload (Fin 2)) :=
  [.runtime (.tick now), .runtime (.call (.foreign 1) .fire_due)] ++
    List.replicate (3 * fired) (.runtime (.advance (.foreign 1)))

-- The button is pressed.
def pressed : List (Event State Payload (Fin 2)) :=
  [.runtime .start, .runtime .loop, .runtime .loop, .flow .start,
    .flow (.returns (State.Idle.handle params.flow.init_env)), .runtime .loop, .runtime .loop] ++
  posted (.KeyChanged true) ++ [.runtime .run_one] ++ handled .Idle (.KeyChanged true) ++
  [.locals, .locals, .runtime .loop, .runtime .loop]

-- It is released, and the window for a second click goes by.
def clickRun : List (Event State Payload (Fin 2)) :=
  pressed ++ posted (.KeyChanged false) ++ [.runtime .run_one] ++
  handled .Pressed (.KeyChanged false) ++
  [.locals, .locals, .locals, .runtime .loop, .runtime .loop] ++ advanced kDoubleClickWindow 1

def config : Runtime.Config := ⟨[kClickClassifier, kUiController], 5⟩

theorem dies_of_onTime_clickRun :
    ∃ s : Owner.State State Payload (Fin 2),
      (machine (Fin 2) params config).run (init params) clickRun = some s ∧
      s.departed = [1] ∧ s.runtime.queue_.length = 1 ∧ s.Dies config := by
  have hrun : ((machine (Fin 2) params config).run (init params) clickRun).map
      (fun s => (s.departed, s.runtime.queue_.length)) = some ([1], 1) := by
    decide +kernel
  obtain ⟨s, hs, hp⟩ := Option.map_eq_some_iff.mp hrun
  obtain ⟨hdeparted, hqueue⟩ := Prod.mk.inj hp
  exact ⟨s, hs, hdeparted, hqueue, Owner.State.dies_of_onTime (by decide +kernel) hs⟩

-- It is released, but the long-press timer goes off before the loop gets to that.
def lateReleaseRun : List (Event State Payload (Fin 2)) :=
  pressed ++ posted (.KeyChanged false) ++ advanced kLongPressThreshold 1 ++
  [.runtime .run_one] ++ handled .Pressed (.KeyChanged false) ++
  [.locals, .locals, .locals, .runtime .loop]

-- `LongPressExpired` is dispatched when `Pressed` has been left, and the module
-- sends `LongPress` for it.
theorem not_always_dies :
    ¬∀ s : Owner.State State Payload (Fin 2),
      (machine (Fin 2) params config).Reachable s → s.Dies config := by
  intro h
  let expired : Runtime.Post (Sent Payload) (Fin 2) :=
    ⟨(make_message kNoSender kClickClassifier .LongPressExpired).sent (some 1), .foreign 1, 0⟩
  have hrun : ((machine (Fin 2) params config).run (init params) lateReleaseRun).bind
      (fun s => (s.runtime.step config .loop).map fun t =>
        decide (1 ∈ s.departed ∧ t.dispatched = s.runtime.dispatched ++ [expired])) =
      some true := by
    decide +kernel
  obtain ⟨s, hs, hnext⟩ := Option.bind_eq_some_iff.mp hrun
  obtain ⟨t, ht, hp⟩ := Option.map_eq_some_iff.mp hnext
  obtain ⟨hdeparted, hdispatched⟩ := of_decide_eq_true hp
  exact h s ⟨lateReleaseRun, hs⟩ .loop t expired ht hdispatched 1 hdeparted rfl

example : handle .AwaitingSecondClick
    (make_message kNoSender kClickClassifier .LongPressExpired) =
      [make_message kClickClassifier kUiController .LongPress] := rfl

end ClickClassifier

end ButtonPipeline

end CortexFlow
