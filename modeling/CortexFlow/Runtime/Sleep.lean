import CortexFlow.Runtime.Wakeup

namespace CortexFlow

namespace Runtime

-- A wait is no longer than is left until a due time that is not before the one its
-- budget was made of. If that one had come, there is no wait at all.
theorem wait_budget_le {next reading due : Int} (h : -2 ^ 63 ≤ next - reading)
    (hdue : next ≤ due ∨ next ≤ reading) :
    wait_budget next reading ≤ max 0 (due - reading) := by
  have hwrap : wrapTicks (next - reading) ≤ next - reading := by
    by_cases hu : next - reading < 2 ^ 63
    · exact (wrapTicks_of_representable ⟨h, hu⟩).le
    · have := (representable_wrapTicks (next - reading)).2
      omega
  unfold wait_budget
  simp only
  split_ifs <;> omega

-- A timer due at `due` does not make the wait too long.
def Wait.covers (due : Int) : Wait → Bool
  | .indefinite => false
  | .bounded next reading => decide (next ≤ due ∨ next ≤ reading)

-- The same of a wait that is being prepared, is under way, or may go on.
def Pc.covers (now due : Int) : Pc → Bool
  | .clock_wait next => decide (next ≤ due ∨ next ≤ now)
  | .pred_wait wait | .parked wait _ | .relock wait false => wait.covers due
  | _ => true

def Wait.InRange : Wait → Prop
  | .indefinite => True
  | .bounded next reading => -2 ^ 63 ≤ next - reading

def Pc.InRange : Pc → Prop
  | .pred_wait wait | .parked wait _ | .relock wait _ => wait.InRange
  | _ => True

theorem Pc.covers_of_not_waiting {pc : Pc} (h : pc.waiting = false) (now due : Int) :
    pc.covers now due = true ∧ pc.InRange := by
  cases pc <;> first | exact ⟨rfl, trivial⟩ | exact nomatch h

theorem Pc.covers_mono {pc : Pc} {now now' due : Int} (hnow : now ≤ now')
    (h : pc.covers now due = true) : pc.covers now' due = true := by
  cases pc with
  | clock_wait next =>
      simp only [covers, decide_eq_true_eq] at h ⊢
      omega
  | relock wait timed_out => cases timed_out <;> exact h
  | _ => exact h

@[simp] theorem Pc.covers_notify (pc : Pc) (now due : Int) :
    pc.notify.covers now due = pc.covers now due := by
  cases pc <;> rfl

@[simp] theorem Pc.inRange_notify (pc : Pc) : pc.notify.InRange ↔ pc.InRange := by
  cases pc <;> rfl

-- Parked, with no notification under way.
def Pc.asleep : Pc → Bool
  | .parked _ false => true
  | _ => false

@[simp] theorem Pc.asleep_notify (pc : Pc) : pc.notify.asleep = false := by
  cases pc <;> rfl

namespace State

variable {π τ : Type*} {config : Config}

-- The owning thread is not left to the timers: the predicate of its wait holds,
-- and it is about to test it.
def Roused (s : State π τ) : Prop := s.wakes = true ∧ s.pc.asleep = false

instance (s : State π τ) : Decidable s.Roused := instDecidableAnd

-- The run does not arm a timer behind the back of a wait, and the clock is not
-- so far past the next due time that their difference overflows.
def timely (s : State π τ) : Event π τ → Bool
  | .call _ (.arm delay _ _ _) =>
      decide s.Roused || s.pc.covers s.now (wrapTicks (s.now + delay))
  | .loop =>
      match s.pc with
      | .clock_wait next => decide (-2 ^ 63 ≤ next - s.now)
      | _ => true
  | _ => true

structure Covered (s : State π τ) : Prop where
  inRange : s.pc.InRange
  covers : s.Roused ∨ ∀ entry, s.timers_.IsArmed entry → s.pc.covers s.now entry.due = true

theorem covered_of_not_waiting {s : State π τ} (h : s.pc.waiting = false) : s.Covered :=
  ⟨(Pc.covers_of_not_waiting h 0 0).2,
    Or.inr fun entry _ => (Pc.covers_of_not_waiting h s.now entry.due).1⟩

theorem Covered.frame {s t : State π τ} (h : s.Covered) (hpc : t.pc = s.pc)
    (hnow : s.now ≤ t.now) (hwakes : s.wakes = true → t.wakes = true)
    (harmed : ∀ entry, t.timers_.IsArmed entry → s.timers_.IsArmed entry) : t.Covered := by
  refine ⟨hpc ▸ h.inRange, ?_⟩
  unfold Roused
  rw [hpc]
  cases h.covers with
  | inl h => exact Or.inl ⟨hwakes h.1, h.2⟩
  | inr h => exact Or.inr fun entry he => Pc.covers_mono hnow (h entry (harmed entry he))

theorem covered_notify {s : State π τ} (h : s.Covered) : s.notify.Covered := by
  refine ⟨(Pc.inRange_notify s.pc).mpr h.inRange, ?_⟩
  cases h.covers with
  | inl h => exact Or.inl ⟨h.1, Pc.asleep_notify s.pc⟩
  | inr h =>
      exact Or.inr fun entry he => (Pc.covers_notify s.pc s.now entry.due).trans (h entry he)

-- A wait that goes from one place to another is covered as before.
theorem Covered.move {s : State π τ} (h : s.Covered) {pc : Pc} (hasleep : pc.asleep = false)
    (hrange : s.pc.InRange → pc.InRange)
    (hcovers : ∀ due, s.pc.covers s.now due = true → pc.covers s.now due = true) :
    Covered { s with pc := pc } := by
  refine ⟨hrange h.inRange, ?_⟩
  cases h.covers with
  | inl h => exact Or.inl ⟨h.1, hasleep⟩
  | inr h => exact Or.inr fun entry he => hcovers entry.due (h entry he)

variable [DecidableEq τ]

theorem wakes_post_next (s : State π τ) (caller : Caller τ) (envs : List (Envelope π)) :
    (s.post_next caller envs).wakes = s.wakes := by
  cases envs <;> rfl

theorem covered_arm {s : State π τ} (h : s.Covered) {caller : Caller τ} {delay : Int}
    {env : Envelope π} {owner_name type_name : String}
    (hg : s.timely (.call caller (.arm delay env owner_name type_name)) = true) :
    (s.begin_op caller (.arm delay env owner_name type_name)).Covered := by
  simp only [timely, Bool.or_eq_true, decide_eq_true_eq] at hg
  simp only [begin_op, TimerService.arm]
  split_ifs
  · exact covered_of_not_waiting rfl
  · refine ⟨h.inRange, ?_⟩
    cases h.covers with
    | inl h => exact Or.inl h
    | inr h =>
        cases hg with
        | inl hg => exact Or.inl hg
        | inr hg =>
            refine Or.inr fun entry he => ?_
            cases (TimerService.isArmed_push ..).mp he with
            | inl hnew => exact hnew ▸ hg
            | inr hold => exact h entry hold

theorem covered_begin_op {s : State π τ} (h : s.Covered) {caller : Caller τ} {op : Op π}
    (hg : s.timely (.call caller op) = true) : (s.begin_op caller op).Covered := by
  cases hop : op.isArm with
  | true =>
      cases op with
      | arm delay env owner_name type_name => exact covered_arm h hg
      | post | stop | cancel | fire_due => exact nomatch hop
  | false =>
      obtain ⟨hl, _, hpc⟩ := begin_op_frame s caller op
      cases hpc with
      | inl hpc =>
          refine h.frame hpc (now_begin_op ..).ge (fun hw => ?_) (begin_op_timers s caller hop).2
          simpa only [wakes, hl] using hw
      | inr hpc =>
          obtain ⟨reason, hpc⟩ := hpc
          exact covered_of_not_waiting (by rw [hpc]; rfl)

-- What the loop reads before it waits, and tests before it parks.
theorem covered_loop {s t : State π τ} (h : s.Covered) (hg : s.timely .loop = true)
    (hs : s.loop config = some t) : t.Covered := by
  cases hw : t.pc.waiting with
  | false => exact covered_of_not_waiting hw
  | true =>
      cases loop_waiting hs hw with
      | no_timer hp hnone ht =>
          have hearliest := TimerService.next_due_at_isEarliest s.timers_
          rw [hnone] at hearliest
          subst ht
          exact ⟨trivial, Or.inr fun entry he => absurd ⟨entry, he, rfl⟩ (hearliest entry.due)⟩
      | timer next hp hsome ht =>
          have hearliest := TimerService.next_due_at_isEarliest s.timers_
          rw [hsome] at hearliest
          subst ht
          refine ⟨trivial, Or.inr fun entry he => decide_eq_true (Or.inl ?_)⟩
          exact hearliest.2 entry.due ⟨entry, he, rfl⟩
      | reading next hp ht =>
          have hrange : -2 ^ 63 ≤ next - s.now := by
            simpa only [timely, hp, decide_eq_true_eq] using hg
          subst ht
          exact h.move rfl (fun _ => hrange) fun due hdue => by rw [hp] at hdue; exact hdue
      | park wait hp hwakes ht =>
          subst ht
          refine ⟨by have hrange := h.inRange; rw [hp] at hrange; exact hrange, ?_⟩
          cases h.covers with
          | inl h => exact absurd (hwakes.symm.trans h.1) nofun
          | inr h =>
              rw [hp] at h
              exact Or.inr h
      | again wait hp ht =>
          subst ht
          exact h.move rfl (by rw [hp]; exact id) (by rw [hp]; exact fun _ => id)

theorem covered_step {s t : State π τ} {event : Event π τ} (h : s.Covered)
    (hg : s.timely event = true) (hs : step config s event = some t) : t.Covered := by
  cases (step_rule hs).2 with
  | tick now hnow => exact h.frame rfl hnow id fun _ he => he
  | call caller op => exact covered_begin_op h hg
  | post_dropped caller env rest | post_refused caller env rest =>
      exact h.frame (pc_post_next ..) (now_post_next ..).ge (by rw [wakes_post_next]; exact id)
        (by rw [timers_post_next]; exact fun _ he => he)
  | post_tested => exact h.frame rfl le_rfl id fun _ he => he
  | post_pushed =>
      exact h.frame rfl le_rfl (fun _ => by simp [wakes, push, setCall]) fun _ he => he
  | post_notified caller rest =>
      exact (covered_notify h).frame (pc_post_next ..) (now_post_next ..).ge
        (by rw [wakes_post_next]; exact id) (by rw [timers_post_next]; exact fun _ he => he)
  | stop_set => exact h.frame rfl le_rfl (fun _ => by simp [wakes, setCall]) fun _ he => he
  | stop_notified => exact (covered_notify h).frame rfl le_rfl id fun _ he => he
  | start => exact covered_of_not_waiting (waiting_start ..)
  | run | run_one | shutdown => exact covered_of_not_waiting (waiting_enter _ rfl ..)
  | loop t _ hloop => exact covered_loop h hg hloop
  | wake wait notified hp =>
      exact h.move rfl (by rw [hp]; exact id) (by rw [hp]; exact fun _ => id)
  | timeout next reading notified hp =>
      exact h.move rfl (by rw [hp]; exact id) fun _ _ => rfl

-- `run` does not sleep past a live timer: its wait is bounded, by what was left
-- until the earliest due time when the clock was read.
def Punctual (s : State π τ) : Prop :=
  ∀ wait, s.pc = .parked wait false → ∀ due, s.timers_.next_due_at = some due →
    ∃ next reading, wait = .bounded next reading ∧
      wait_budget next reading ≤ max 0 (due - reading)

-- In a run that arms no timer behind the back of a wait, every state is punctual.
theorem punctual_of_timely {s : State π τ} {events : List (Event π τ)}
    (hm : (machine π τ config).Meets (fun u event => u.timely event) init events)
    (hr : (machine π τ config).run init events = some s) : s.Punctual := by
  have hinit : (init : State π τ).Covered := covered_of_not_waiting rfl
  have hcovered : s.Covered := Lib.Machine.run_invariant_of_meets (I := Covered)
    (fun _ _ _ h hg hs => covered_step h hg hs) hinit hm hr
  intro wait hp due hdue
  have hearliest := TimerService.next_due_at_isEarliest s.timers_
  rw [hdue] at hearliest
  obtain ⟨entry, he, rfl⟩ := hearliest.1
  have hrange := hcovered.inRange
  rw [hp] at hrange
  have hcovers : wait.covers entry.due = true := by
    cases hcovered.covers with
    | inl h =>
        have hasleep := h.2
        rw [hp] at hasleep
        exact nomatch hasleep
    | inr h =>
        rw [hp] at h
        exact h entry he
  cases wait with
  | indefinite => exact nomatch hcovers
  | bounded next reading =>
      exact ⟨next, reading, rfl, wait_budget_le hrange (of_decide_eq_true hcovers)⟩

-- A timer armed from `on_start` bounds the wait; one that another thread arms
-- during it is due later.
def boundedRun : List (Event Nat Nat) :=
  [.start, .loop, .call .loop (.arm 5 ⟨0, 7, 1, 42⟩ "-" "-"), .loop, .run, .loop, .tick 2, .loop,
    .loop, .loop, .call (.foreign 1) (.arm 9 ⟨0, 7, 1, 43⟩ "-" "-"), .tick 3]

theorem punctual_of_timely_boundedRun :
    ∃ s : State Nat Nat, (machine Nat Nat ⟨[7], 5⟩).run init boundedRun = some s ∧
      s.pc = .parked (.bounded 5 2) false ∧ s.timers_.next_due_at = some 5 ∧ s.Punctual := by
  have hrun : ((machine Nat Nat ⟨[7], 5⟩).run init boundedRun).map
      (fun s => (s.pc, s.timers_.next_due_at)) =
      some (.parked (.bounded 5 2) false, some 5) := by
    decide +kernel
  obtain ⟨s, hs, hp⟩ := Option.map_eq_some_iff.mp hrun
  obtain ⟨hparked, hdue⟩ := Prod.mk.inj hp
  exact ⟨s, hs, hparked, hdue, punctual_of_timely (by decide +kernel) hs⟩

-- A thread arms a timer while `run` waits with none armed.
def lateArmRun : List (Event Nat Nat) :=
  [.start, .loop, .loop, .run, .loop, .loop, .loop,
    .call (.foreign 1) (.arm 5 ⟨0, 7, 1, 42⟩ "-" "-")]

theorem not_always_punctual :
    ¬∀ s : State Nat Nat, (machine Nat Nat ⟨[7], 5⟩).Reachable s → s.Punctual := by
  intro h
  have hrun : ((machine Nat Nat ⟨[7], 5⟩).run init lateArmRun).map
      (fun s => (s.pc, s.timers_.next_due_at)) = some (.parked .indefinite false, some 5) := by
    decide +kernel
  obtain ⟨s, hs, hp⟩ := Option.map_eq_some_iff.mp hrun
  obtain ⟨hparked, hdue⟩ := Prod.mk.inj hp
  obtain ⟨_, _, hwait, _⟩ := h s ⟨lateArmRun, hs⟩ .indefinite hparked 5 hdue
  exact nomatch hwait

end State

end Runtime

end CortexFlow
