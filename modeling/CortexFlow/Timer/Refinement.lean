import CortexFlow.Timer.Service
import CortexFlow.Timer.Table
import Mathlib

namespace CortexFlow

namespace Timer

open Lib

variable {π ι φ : Type*} [DecidableEq ι] [DecidableEq φ]

-- The service, its clock, the `Timer` objects of the program and, for each call
-- of `fire_due` under way, what it has collected and not yet posted.
structure System (π ι φ : Type*) where
  now : Int
  service : TimerService π
  timers : Handle.Store ι Nat
  to_fire : φ → List (TimerService.FiringRecord π)
  posted : List (φ × Envelope π)

namespace System

def init : System π ι φ := ⟨0, .init, fun _ => none, fun _ => [], []⟩

-- A failed assertion ends the program, so a call that faults is no step.
def step (s : System π ι φ) : Event π ι φ → Option (System π ι φ)
  | .tick now => if s.now ≤ now ∧ Representable now then some { s with now := now } else none
  | .bind_post => some { s with service := s.service.bind_post }
  | .clear => some { s with service := s.service.clear }
  | .arm dst delay env owner_name type_name =>
      match s.service.arm s.now delay env owner_name type_name with
      | .fault _ _ => none
      | .ok service (seq, _) =>
          (s.timers.adopt dst seq).map fun timers =>
            { s with service := service, timers := timers }
  | .handle op =>
      match s.timers.apply op with
      | none => none
      | some (timers, none) => some { s with timers := timers }
      | some (timers, some seq) =>
          some { s with service := (s.service.cancel_by_seq seq).1, timers := timers }
  | .fire_due call =>
      if (s.to_fire call).isEmpty then
        match s.service.fire_due s.now with
        | .fault _ _ => none
        | .ok service to_fire =>
            some { s with
              service := service
              to_fire := Function.update s.to_fire call to_fire }
      else none
  | .post call =>
      match s.to_fire call with
      | [] => none
      | rec :: rest =>
          some { s with
            to_fire := Function.update s.to_fire call rest
            posted := s.posted ++ [(call, rec.envelope)] }

def machine (π ι φ : Type*) [DecidableEq ι] [DecidableEq φ] :
    Machine (System π ι φ) (Event π ι φ) where
  init := init
  step := step

-- The due time that `arm` computes fits the clock's duration type.
def DueRepresentable (s : System π ι φ) : Event π ι φ → Prop
  | .arm _ delay _ _ _ => Representable (s.now + delay)
  | _ => True

instance (s : System π ι φ) (event : Event π ι φ) : Decidable (s.DueRepresentable event) := by
  cases event <;> unfold DueRepresentable <;> infer_instance

end System

def armedOf (entry : TimerService.Entry π) : Armed π := ⟨entry.seq, entry.due, entry.envelope⟩

-- The state of the table that the state of the program stands for.
structure Shows (s : System π ι φ) (t : Table π ι φ) : Prop where
  now : t.now = s.now
  bound : t.bound = s.service.post_bound
  armed : ∀ a, a ∈ t.armed ↔ ∃ entry, s.service.IsArmed entry ∧ armedOf entry = a
  issued : ∀ id, id ∈ t.issued → id < s.service.next_seq_
  holders : t.holders = s.timers
  firing : ∀ call, (t.firing call).map Armed.envelope =
    (s.to_fire call).map TimerService.FiringRecord.envelope
  posted : (t.posted.map fun p => (p.1, p.2.envelope)) = s.posted

theorem armedOf_inj {service : TimerService π} {a b : TimerService.Entry π}
    (ha : service.IsArmed a) (hb : service.IsArmed b) (h : armedOf a = armedOf b) : a = b :=
  TimerService.isArmed_unique ha hb (congrArg Armed.id h)

omit [DecidableEq ι] [DecidableEq φ] in
theorem shows_init : Shows (System.init : System π ι φ) Table.init where
  now := rfl
  bound := rfl
  armed := by simp [Table.init, System.init]
  issued := by simp [Table.init]
  holders := rfl
  firing := fun _ => rfl
  posted := rfl

theorem shows_arm {s s' : System π ι φ} {t : Table π ι φ} (h : Shows s t) {dst : ι} {delay : Int}
    {env : Envelope π} {owner_name type_name : String} (hr : Representable (s.now + delay))
    (hs : s.step (.arm dst delay env owner_name type_name) = some s') :
    ∃ t', Table.Next t (.arm dst delay env owner_name type_name) t' ∧ Shows s' t' := by
  simp only [System.step, TimerService.arm] at hs
  split at hs
  case h_1 => exact nomatch hs
  rename_i service seq record harm
  split_ifs at harm
  simp only [Outcome.ok.injEq, Prod.mk.injEq] at harm
  obtain ⟨rfl, rfl, _⟩ := harm
  obtain ⟨timers, ht, rfl⟩ := Option.map_eq_some_iff.mp hs
  have hid : s.service.next_seq_ ∉ t.issued := fun hm => absurd (h.issued _ hm) (lt_irrefl _)
  refine ⟨_, .arm t dst delay env owner_name type_name _ timers hid (h.holders ▸ ht), ?_⟩
  refine ⟨h.now, h.bound, fun a => ?_, fun id hm => ?_, rfl, h.firing, h.posted⟩
  · rw [Set.mem_insert_iff, h.armed, h.now, eq_comm]
    simp only [TimerService.isArmed_push, wrapTicks_of_representable hr, or_and_right, exists_or,
      exists_eq_left, armedOf]
  · show id < s.service.next_seq_ + 1
    cases Set.mem_insert_iff.mp hm with
    | inl he => omega
    | inr hm =>
        have := h.issued id hm
        omega

theorem shows_handle {s s' : System π ι φ} {t : Table π ι φ} (h : Shows s t) {op : Handle.Op ι}
    (hs : s.step (.handle op) = some s') :
    ∃ t', Table.Next t (.handle op) t' ∧ Shows s' t' := by
  simp only [System.step] at hs
  split at hs
  · exact nomatch hs
  · rename_i timers ht
    obtain rfl := Option.some.inj hs
    refine ⟨_, .handle t op timers none (h.holders ▸ ht), ?_⟩
    refine ⟨h.now, h.bound, fun a => ?_, h.issued, rfl, h.firing, h.posted⟩
    simpa using h.armed a
  · rename_i timers seq ht
    obtain rfl := Option.some.inj hs
    refine ⟨_, .handle t op timers (some seq) (h.holders ▸ ht), ?_⟩
    refine ⟨h.now, ?_, fun a => ?_, fun id hm => ?_, rfl, h.firing, h.posted⟩
    · rw [TimerService.post_bound_cancel_by_seq]
      exact h.bound
    · simp only [TimerService.isArmed_cancel_by_seq]
      rw [Set.mem_ofPred_eq, h.armed]
      refine ⟨fun ha => ?_, fun ha => ?_⟩
      · obtain ⟨⟨entry, he, rfl⟩, hne⟩ := ha
        exact ⟨entry, ⟨he, fun hs => hne (congrArg some hs.symm)⟩, rfl⟩
      · obtain ⟨entry, ⟨he, hne⟩, rfl⟩ := ha
        exact ⟨⟨entry, he, rfl⟩, fun hs => hne (Option.some.inj hs).symm⟩
    · rw [TimerService.next_seq_cancel_by_seq]
      exact h.issued id hm

theorem shows_fire_due {s s' : System π ι φ} {t : Table π ι φ} (h : Shows s t) {call : φ}
    (hs : s.step (.fire_due call) = some s') :
    ∃ t', Table.Next t (.fire_due call) t' ∧ Shows s' t' := by
  simp only [System.step, TimerService.fire_due] at hs
  split_ifs at hs with hidle hbound
  obtain rfl := Option.some.inj hs
  obtain ⟨entries, hrec, hsort, hnd, hmem, hrest⟩ :=
    TimerService.collect_spec s.now _ s.service le_rfl
  obtain ⟨hnext, hpost⟩ := TimerService.collect_frame s.now s.service.heap_.toList.length s.service
  have hfree : t.firing call = [] := by
    have hf := h.firing call
    rwa [List.isEmpty_iff.mp hidle, List.map_nil, List.map_eq_nil_iff] at hf
  have hinj : ∀ a ∈ entries, ∀ b ∈ entries, armedOf a = armedOf b → a = b := fun a ha b hb =>
    armedOf_inj ((hmem a).mp ha).1 ((hmem b).mp hb).1
  refine ⟨_, .fire_due t call (entries.map armedOf) hfree (hnd.map_on hinj)
    (List.pairwise_map.mpr hsort) (fun a => ?_), ?_⟩
  · rw [List.mem_map, h.armed, h.now]
    refine ⟨fun ha => ?_, fun ha => ?_⟩
    · obtain ⟨entry, he, rfl⟩ := ha
      exact ⟨⟨entry, ((hmem entry).mp he).1, rfl⟩, ((hmem entry).mp he).2⟩
    · obtain ⟨⟨entry, he, rfl⟩, hle⟩ := ha
      exact ⟨entry, (hmem entry).mpr ⟨he, hle⟩, rfl⟩
  · refine ⟨h.now, h.bound.trans hpost.symm, fun a => ?_, fun id hm => ?_, h.holders,
      fun other => ?_, h.posted⟩
    · simp only [hrest]
      rw [Set.mem_ofPred_eq, h.armed, h.now]
      refine ⟨fun ha => ?_, fun ha => ?_⟩
      · obtain ⟨⟨entry, he, rfl⟩, hlt⟩ := ha
        exact ⟨entry, ⟨he, hlt⟩, rfl⟩
      · obtain ⟨entry, ⟨he, hlt⟩, rfl⟩ := ha
        exact ⟨⟨entry, he, rfl⟩, hlt⟩
    · exact (h.issued id hm).trans_eq hnext.symm
    · simp only [Function.update_apply]
      split_ifs
      · rw [hrec, List.map_map, List.map_map]
        rfl
      · exact h.firing other

theorem shows_post {s s' : System π ι φ} {t : Table π ι φ} (h : Shows s t) {call : φ}
    (hs : s.step (.post call) = some s') :
    ∃ t', Table.Next t (.post call) t' ∧ Shows s' t' := by
  simp only [System.step] at hs
  split at hs
  · exact nomatch hs
  · rename_i rec rest hrec
    obtain rfl := Option.some.inj hs
    have hf := h.firing call
    rw [hrec, List.map_cons] at hf
    obtain ⟨a, as, hcall, ha, has⟩ := List.map_eq_cons_iff.mp hf
    refine ⟨_, .post t call a as hcall, h.now, h.bound, h.armed, h.issued, h.holders,
      fun other => ?_, ?_⟩
    · simp only [Function.update_apply]
      split_ifs
      · exact has
      · exact h.firing other
    · simp only [List.map_append, h.posted, List.map_cons, List.map_nil, ha]

theorem shows_step (s : System π ι φ) (t : Table π ι φ) (event : Event π ι φ)
    (s' : System π ι φ) (h : Shows s t) (hr : s.DueRepresentable event)
    (hs : s.step event = some s') : ∃ t', Table.Next t event t' ∧ Shows s' t' := by
  cases event with
  | tick now =>
      simp only [System.step] at hs
      split_ifs at hs with hle
      obtain rfl := Option.some.inj hs
      exact ⟨_, .tick t now (h.now ▸ hle.1), rfl, h.bound, h.armed, h.issued, h.holders,
        h.firing, h.posted⟩
  | bind_post =>
      obtain rfl := Option.some.inj hs
      exact ⟨_, .bind_post t, h.now, rfl, h.armed, h.issued, h.holders, h.firing, h.posted⟩
  | clear =>
      obtain rfl := Option.some.inj hs
      exact ⟨_, .clear t, h.now, rfl, by simp, h.issued, h.holders, h.firing, h.posted⟩
  | arm dst delay env owner_name type_name => exact shows_arm h hr hs
  | handle op => exact shows_handle h hs
  | fire_due call => exact shows_fire_due h hs
  | post call => exact shows_post h hs

omit [DecidableEq ι] [DecidableEq φ] in
theorem Shows.armed_count {s : System π ι φ} {t : Table π ι φ} (h : Shows s t)
    (ht : t.Distinct) : s.service.armed_count = t.armed.ncard := by
  have himage : Set.image Armed.id t.armed = ↑s.service.live_seqs_ := by
    ext seq
    rw [Set.mem_image, Finset.mem_coe, TimerService.live_iff_isArmed]
    simp only [h.armed]
    refine ⟨fun ha => ?_, fun he => ?_⟩
    · obtain ⟨a, ⟨entry, he, rfl⟩, hid⟩ := ha
      exact ⟨entry, he, hid⟩
    · obtain ⟨entry, he, hseq⟩ := he
      exact ⟨armedOf entry, ⟨entry, he, rfl⟩, hseq⟩
  rw [← ht.unique.ncard_image, himage, Set.ncard_coe_finset]
  rfl

omit [DecidableEq ι] [DecidableEq φ] in
theorem Shows.next_due_at {s : System π ι φ} {t : Table π ι φ} (h : Shows s t) :
    TimerService.IsEarliest (fun due => ∃ a ∈ t.armed, a.due = due) s.service.next_due_at := by
  refine (TimerService.next_due_at_isEarliest s.service).congr fun due => ?_
  simp only [h.armed]
  refine ⟨fun he => ?_, fun ha => ?_⟩
  · obtain ⟨entry, he, hd⟩ := he
    exact ⟨armedOf entry, ⟨entry, he, rfl⟩, hd⟩
  · obtain ⟨a, ⟨entry, he, rfl⟩, hd⟩ := ha
    exact ⟨entry, he, hd⟩

omit [DecidableEq ι] [DecidableEq φ] in
-- Letting go of the handle of a timer that has left the table does nothing.
theorem Shows.cancel_retired {s : System π ι φ} {t : Table π ι φ} (h : Shows s t) {id : Nat}
    (hn : ∀ a ∈ t.armed, a.id ≠ id) : s.service.cancel_by_seq id = (s.service, none) := by
  apply TimerService.cancel_by_seq_of_not_live
  rw [TimerService.live_iff_isArmed]
  intro hl
  obtain ⟨entry, he, hseq⟩ := hl
  exact hn _ ((h.armed _).mpr ⟨entry, he, rfl⟩) hseq

-- The service does what the table does, step for step: what a call of `fire_due`
-- posts, what the service reports, and that stale handles are harmless.
theorem service_refines_table {events : List (Event π ι φ)} {s : System π ι φ}
    (hm : (System.machine π ι φ).Meets System.DueRepresentable System.init events)
    (h : (System.machine π ι φ).run System.init events = some s) :
    ∃ t, Machine.Steps Table.Next Table.init events t ∧ Shows s t ∧
      s.service.armed_count = t.armed.ncard ∧
      TimerService.IsEarliest (fun due => ∃ a ∈ t.armed, a.due = due) s.service.next_due_at ∧
      ∀ id ∈ t.issued, (∀ a ∈ t.armed, a.id ≠ id) → ∀ later s',
        (System.machine π ι φ).Meets System.DueRepresentable s later →
        (System.machine π ι φ).run s later = some s' →
        s'.service.cancel_by_seq id = (s'.service, none) := by
  obtain ⟨t, hsteps, hst⟩ := Machine.simulation shows_step shows_init hm h
  refine ⟨t, hsteps, hst, hst.armed_count (Table.steps_distinct hsteps Table.distinct_init),
    hst.next_due_at, fun id hi hn later s' hm' hr => ?_⟩
  obtain ⟨t', hsteps', hst'⟩ := Machine.simulation shows_step hst hm' hr
  exact hst'.cancel_retired (Table.steps_retired hsteps' hi hn).2

-- Two timers fall due together; the one cancelled before is not posted.
def cancelledRun : List (Event Nat Nat Unit) :=
  [.bind_post, .arm 0 5 ⟨0, 1, 2, 10⟩ "a" "b", .arm 1 3 ⟨0, 1, 2, 11⟩ "a" "b",
    .arm 2 4 ⟨0, 1, 2, 12⟩ "a" "b", .handle (.reset 1), .tick 6, .fire_due (), .post (), .post ()]

theorem service_refines_cancelledRun :
    ∃ s, (System.machine Nat Nat Unit).run System.init cancelledRun = some s ∧
      s.posted.map (fun p => p.2.payload_) = [12, 10] ∧
      ∃ t, Machine.Steps Table.Next Table.init cancelledRun t ∧ Shows s t ∧
        s.service.armed_count = t.armed.ncard := by
  have hrun : ((System.machine Nat Nat Unit).run System.init cancelledRun).map
      (fun s => s.posted.map fun p => p.2.payload_) = some [12, 10] := by
    decide +kernel
  obtain ⟨s, hs, hp⟩ := Option.map_eq_some_iff.mp hrun
  obtain ⟨t, hsteps, hst, hcount, _⟩ := service_refines_table (by decide +kernel) hs
  exact ⟨s, hs, hp, t, hsteps, hst, hcount⟩

end Timer

end CortexFlow
