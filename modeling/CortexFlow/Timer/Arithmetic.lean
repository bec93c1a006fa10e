import CortexFlow.Runtime.Basic
import CortexFlow.Timer.Refinement

namespace CortexFlow

namespace Timer

open Lib

-- The time until which `run` waits when the earliest timer is due at `next` and
-- the two clocks read `reading` and `steady`.
def wait_deadline (steady next reading : Int) : Int :=
  wrapTicks (steady + Runtime.wait_budget next reading)

theorem wrapTicks_of_overflow {ticks : Int} (hl : 2 ^ 63 ≤ ticks) (hu : ticks < 2 ^ 64) :
    wrapTicks ticks = ticks - 2 ^ 64 := by
  have hwrap : ticks.bmod (2 ^ 64) = (ticks - 2 ^ 64).bmod (2 ^ 64) := by
    rw [Int.bmod_eq_bmod_iff_bmod_sub_eq_zero]
    simp
  unfold wrapTicks
  rw [hwrap]
  apply Int.bmod_eq_of_le <;> omega

-- The sum of a time and a span comes out right unless it is too large for the
-- clock, and is before the time itself otherwise.
theorem wrapTicks_add {time span : Int} (ht : Representable time) (hs : Representable span)
    (hspan : 0 ≤ span) :
    (time + span < 2 ^ 63 → wrapTicks (time + span) = time + span) ∧
      (2 ^ 63 ≤ time + span → wrapTicks (time + span) < time) := by
  obtain ⟨htl, htu⟩ := ht
  obtain ⟨hsl, hsu⟩ := hs
  constructor
  · intro h
    apply wrapTicks_of_representable
    constructor <;> omega
  · intro h
    rw [wrapTicks_of_overflow h (by omega)]
    omega

theorem wait_budget_eq {next reading : Int} (hn : 0 ≤ next) (hnr : Representable next)
    (hr : 0 ≤ reading) (hrr : Representable reading) :
    Runtime.wait_budget next reading = max 0 (next - reading) := by
  obtain ⟨_, hnu⟩ := hnr
  obtain ⟨_, hru⟩ := hrr
  have hdiff : wrapTicks (next - reading) = next - reading := by
    apply wrapTicks_of_representable
    constructor <;> omega
  unfold Runtime.wait_budget
  simp only [hdiff]
  split_ifs <;> omega

-- The deadline is not in the past unless the sum is too large for the clock.
theorem wait_deadline_ge_iff {steady next reading : Int} (hs : Representable steady)
    (hn : 0 ≤ next) (hnr : Representable next) (hr : 0 ≤ reading)
    (hrr : Representable reading) :
    steady ≤ wait_deadline steady next reading ↔
      next ≤ reading ∨ steady + (next - reading) < 2 ^ 63 := by
  have hspan : Representable (max 0 (next - reading)) := by
    obtain ⟨_, hnu⟩ := hnr
    constructor <;> omega
  obtain ⟨hfits, hwraps⟩ := wrapTicks_add hs hspan (by omega)
  unfold wait_deadline
  rw [wait_budget_eq hn hnr hr hrr]
  obtain ⟨_, hsu⟩ := hs
  by_cases h : steady + max 0 (next - reading) < 2 ^ 63
  · rw [hfits h]
    omega
  · have hpast := hwraps (by omega)
    omega

namespace System

variable {π ι φ : Type*} [DecidableEq ι] [DecidableEq φ]

-- The timer with this number is due at `due`, if it is there at all, and its
-- number is taken.
structure DueAt (s : System π ι φ) (seq : Nat) (due : Int) : Prop where
  taken : seq < s.service.next_seq_
  due : ∀ entry, s.service.IsArmed entry → entry.seq = seq → entry.due = due

theorem armed_step {s t : System π ι φ} {event : Event π ι φ} (hs : s.step event = some t) :
    s.service.next_seq_ ≤ t.service.next_seq_ ∧
      ∀ entry, t.service.IsArmed entry →
        s.service.IsArmed entry ∨ entry.seq = s.service.next_seq_ := by
  cases event with
  | tick now =>
      simp only [step] at hs
      split_ifs at hs
      obtain rfl := Option.some.inj hs
      exact ⟨le_rfl, fun _ => Or.inl⟩
  | bind_post =>
      obtain rfl := Option.some.inj hs
      exact ⟨le_rfl, fun _ => Or.inl⟩
  | clear =>
      obtain rfl := Option.some.inj hs
      exact ⟨le_rfl, fun entry he => absurd he (TimerService.isArmed_clear s.service entry)⟩
  | arm dst delay env owner_name type_name =>
      simp only [step, TimerService.arm] at hs
      split at hs
      · cases hs
      · rename_i service seq record harm
        split_ifs at harm
        simp only [Outcome.ok.injEq, Prod.mk.injEq] at harm
        obtain ⟨rfl, rfl, _⟩ := harm
        obtain ⟨timers, _, rfl⟩ := Option.map_eq_some_iff.mp hs
        refine ⟨Nat.le_succ _, fun entry he => ?_⟩
        cases (TimerService.isArmed_push ..).mp he with
        | inl hnew => exact Or.inr (hnew ▸ rfl)
        | inr hold => exact Or.inl hold
  | handle op =>
      simp only [step] at hs
      split at hs
      · cases hs
      · obtain rfl := Option.some.inj hs
        exact ⟨le_rfl, fun _ => Or.inl⟩
      · obtain rfl := Option.some.inj hs
        refine ⟨(TimerService.next_seq_cancel_by_seq ..).ge, fun entry he => ?_⟩
        exact Or.inl ((TimerService.isArmed_cancel_by_seq ..).mp he).1
  | fire_due call =>
      simp only [step, TimerService.fire_due] at hs
      split_ifs at hs
      obtain rfl := Option.some.inj hs
      have hnext := (TimerService.collect_frame s.now s.service.heap_.toList.length s.service).1
      obtain ⟨_, _, _, _, _, hrest⟩ :=
        TimerService.collect_spec s.now s.service.heap_.toList.length s.service le_rfl
      exact ⟨hnext.ge, fun entry he => Or.inl ((hrest entry).mp he).1⟩
  | post call =>
      simp only [step] at hs
      split at hs
      · cases hs
      · obtain rfl := Option.some.inj hs
        exact ⟨le_rfl, fun _ => Or.inl⟩

theorem dueAt_step {s t : System π ι φ} {seq : Nat} {due : Int} (h : s.DueAt seq due)
    {event : Event π ι φ} (hs : s.step event = some t) : t.DueAt seq due := by
  obtain ⟨hnext, harmed⟩ := armed_step hs
  refine ⟨h.taken.trans_le hnext, fun entry he hseq => ?_⟩
  cases harmed entry he with
  | inl hold => exact h.due entry hold hseq
  | inr hnew =>
      have := h.taken
      omega

theorem dueAt_run {s t : System π ι φ} {seq : Nat} {due : Int} (h : s.DueAt seq due)
    {events : List (Event π ι φ)} (hr : (machine π ι φ).run s events = some t) :
    t.DueAt seq due :=
  Machine.run_invariant (m := machine π ι φ) (I := fun u => u.DueAt seq due)
    (fun _ _ _ hu hs => dueAt_step hu hs) h hr

theorem reachable_now {s : System π ι φ} (h : (machine π ι φ).Reachable s) :
    0 ≤ s.now ∧ Representable s.now := by
  refine h.invariant (I := fun u => 0 ≤ u.now ∧ Representable u.now)
    ⟨le_rfl, (by decide : Representable 0)⟩ fun u event v hu hs => ?_
  have hsame {w : System π ι φ} (hw : w.now = u.now) : 0 ≤ w.now ∧ Representable w.now := hw ▸ hu
  cases event with
  | tick now =>
      simp only [machine, step] at hs
      split_ifs at hs with hle
      obtain rfl := Option.some.inj hs
      exact ⟨hu.1.trans hle.1, hle.2⟩
  | bind_post | clear => exact Option.some.inj hs ▸ hsame rfl
  | arm =>
      simp only [machine, step] at hs
      split at hs
      · cases hs
      · obtain ⟨timers, _, rfl⟩ := Option.map_eq_some_iff.mp hs
        exact hsame rfl
  | handle op =>
      simp only [machine, step] at hs
      split at hs
      · cases hs
      · exact Option.some.inj hs ▸ hsame rfl
      · exact Option.some.inj hs ▸ hsame rfl
  | fire_due call =>
      simp only [machine, step] at hs
      split_ifs at hs
      split at hs
      · cases hs
      · exact Option.some.inj hs ▸ hsame rfl
  | post call =>
      simp only [machine, step] at hs
      split at hs
      · cases hs
      · exact Option.some.inj hs ▸ hsame rfl

-- What is asked of a timer armed in `s`, which leads to `s'`, and of a wait for it
-- that begins when the service's clock and the steady clock read `reading` and `steady`.
structure Exact (s s' : System π ι φ) (delay reading steady : Int) : Prop where
  stored : ∃ entry, s'.service.IsArmed entry ∧ entry.seq = s.service.next_seq_ ∧
    entry.due = s.now + delay ∧ s.now ≤ entry.due
  never_early : ∀ events t call u, (machine π ι φ).run s' events = some t →
    t.step (.fire_due call) = some u → t.now < s.now + delay →
    ∀ entry, entry.seq = s.service.next_seq_ → t.service.IsArmed entry → u.service.IsArmed entry
  deadline : ∀ entry, s'.service.IsArmed entry → entry.seq = s.service.next_seq_ →
    steady ≤ wait_deadline steady entry.due reading

theorem dueAt_arm {s s' : System π ι φ} {dst : ι} {delay : Int} {env : Envelope π}
    {owner_name type_name : String}
    (hs : s.step (.arm dst delay env owner_name type_name) = some s') :
    0 ≤ delay ∧ s'.DueAt s.service.next_seq_ (wrapTicks (s.now + delay)) ∧
      ∃ entry, s'.service.IsArmed entry ∧ entry.seq = s.service.next_seq_ ∧
        entry.due = wrapTicks (s.now + delay) := by
  simp only [step, TimerService.arm] at hs
  split at hs
  · cases hs
  · rename_i service seq record harm
    split_ifs at harm with hneg
    simp only [Outcome.ok.injEq, Prod.mk.injEq] at harm
    obtain ⟨rfl, rfl, _⟩ := harm
    obtain ⟨timers, _, rfl⟩ := Option.map_eq_some_iff.mp hs
    refine ⟨by omega, ⟨Nat.lt_succ_self _, fun entry he hseq => ?_⟩, _,
      (TimerService.isArmed_push ..).mpr (Or.inl rfl), rfl, rfl⟩
    cases (TimerService.isArmed_push ..).mp he with
    | inl hnew => exact hnew ▸ rfl
    | inr hold =>
        have := s.service.consistent.used entry hold.1
        omega

-- Timers keep their times, and waits end in the future, exactly as long as both
-- sums fit the clocks' duration type.
theorem exact_iff {s s' : System π ι φ} (hr : (machine π ι φ).Reachable s) {dst : ι}
    {delay : Int} {env : Envelope π} {owner_name type_name : String}
    (hs : s.step (.arm dst delay env owner_name type_name) = some s')
    (hdelay : Representable delay) {reading steady : Int} (h0 : 0 ≤ reading)
    (hreading : Representable reading) (hsteady : Representable steady) :
    Exact s s' delay reading steady ↔
      s.now + delay < 2 ^ 63 ∧
        (s.now + delay ≤ reading ∨ steady + (s.now + delay - reading) < 2 ^ 63) := by
  obtain ⟨hnow, hrep⟩ := reachable_now hr
  obtain ⟨hpos, hdue, entry, harmed, hseq, hentry⟩ := dueAt_arm hs
  obtain ⟨hfits, hwraps⟩ := wrapTicks_add hrep hdelay hpos
  constructor
  · intro h
    obtain ⟨stored, hstored, hsame, hsum, hlater⟩ := h.stored
    have hwrap := hdue.due stored hstored hsame
    have hfit : s.now + delay < 2 ^ 63 := by
      by_contra hover
      have := hwraps (by omega)
      omega
    refine ⟨hfit, ?_⟩
    have hdeadline := h.deadline entry harmed hseq
    rw [hentry, hfits hfit] at hdeadline
    have hrepdue : Representable (s.now + delay) := ⟨by omega, hfit⟩
    exact (wait_deadline_ge_iff hsteady (by omega) hrepdue h0 hreading).mp hdeadline
  · rintro ⟨hfit, hwait⟩
    have hrepdue : Representable (s.now + delay) := ⟨by omega, hfit⟩
    rw [hfits hfit] at hdue hentry
    refine ⟨⟨entry, harmed, hseq, hentry, by omega⟩, fun events t call u hrun hfire hearly other
      ho harmed => ?_, fun other ho hother => ?_⟩
    · have hlate := (dueAt_run hdue hrun).due other harmed ho
      simp only [step, TimerService.fire_due] at hfire
      split_ifs at hfire
      obtain rfl := Option.some.inj hfire
      obtain ⟨_, _, _, _, _, hrest⟩ :=
        TimerService.collect_spec t.now t.service.heap_.toList.length t.service le_rfl
      exact (hrest other).mpr ⟨harmed, by omega⟩
    · rw [hdue.due other ho hother]
      exact (wait_deadline_ge_iff hsteady (by omega) hrepdue h0 hreading).mpr hwait

def oneLater : System Unit Unit Unit := { init with now := 1 }

theorem reachable_oneLater : (machine Unit Unit Unit).Reachable oneLater := ⟨[.tick 1], rfl⟩

theorem exact_iff_oneLater :
    ∃ s' : System Unit Unit Unit,
      oneLater.step (.arm () 5 ⟨0, 1, 2, ()⟩ "M" "T") = some s' ∧ Exact oneLater s' 5 2 100 := by
  have harm : (oneLater.step (.arm () 5 ⟨0, 1, 2, ()⟩ "M" "T")).isSome = true := by
    decide +kernel
  obtain ⟨s', hs⟩ := Option.isSome_iff_exists.mp harm
  exact ⟨s', hs, (exact_iff reachable_oneLater hs (by decide) (by decide) (by decide)
    (by decide)).mpr ⟨by decide, by decide⟩⟩

-- The longest of all delays makes a timer that is due before it was armed.
theorem not_always_exact :
    ¬∀ (s s' : System Unit Unit Unit) (dst : Unit) (delay : Int) (env : Envelope Unit)
      (owner_name type_name : String) (reading steady : Int),
      (machine Unit Unit Unit).Reachable s →
      s.step (.arm dst delay env owner_name type_name) = some s' → Representable delay →
      0 ≤ reading → Representable reading → Representable steady →
      Exact s s' delay reading steady := by
  intro hall
  have harm : (oneLater.step (.arm () (2 ^ 63 - 1) ⟨0, 1, 2, ()⟩ "M" "T")).isSome = true := by
    decide +kernel
  obtain ⟨s', hs⟩ := Option.isSome_iff_exists.mp harm
  have hexact := hall oneLater s' () (2 ^ 63 - 1) ⟨0, 1, 2, ()⟩ "M" "T" 1 1 reachable_oneLater hs
    (by decide) (by decide) (by decide) (by decide)
  obtain ⟨_, hdue, _⟩ := dueAt_arm hs
  obtain ⟨entry, harmed, hseq, hsum, _⟩ := hexact.stored
  have hwrap := hdue.due entry harmed hseq
  exact absurd (hsum.symm.trans hwrap) (by decide)

end System

end Timer

end CortexFlow
