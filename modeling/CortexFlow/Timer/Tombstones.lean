import CortexFlow.Timer.Refinement

namespace CortexFlow

namespace TimerService

variable {π : Type*}

-- The entry of a cancelled timer that is still in the heap.
def IsTombstone (service : TimerService π) (entry : Entry π) : Prop :=
  entry ∈ service.heap_.toList ∧ entry.seq ∉ service.live_seqs_

def tombstones (service : TimerService π) : List (Entry π) :=
  service.heap_.toList.filter fun entry => entry.seq ∉ service.live_seqs_

theorem mem_tombstones {service : TimerService π} {entry : Entry π} :
    entry ∈ service.tombstones ↔ service.IsTombstone entry := by
  simp [tombstones, IsTombstone]

-- Every live timer has one entry; the others are tombstones.
theorem length_heap (service : TimerService π) :
    service.heap_.toList.length = service.armed_count + service.tombstones.length := by
  have hlive : (service.heap_.toList.filter fun entry => entry.seq ∈ service.live_seqs_).length =
      service.armed_count := by
    have hnodup := service.consistent.nodup.sublist
      ((List.filter_sublist (p := fun entry : Entry π => entry.seq ∈ service.live_seqs_)).map
        Entry.seq)
    rw [← List.length_map Entry.seq, ← List.toFinset_card_of_nodup hnodup]
    apply congrArg Finset.card
    ext seq
    simp only [List.mem_toFinset, List.mem_map, List.mem_filter, decide_eq_true_eq]
    constructor
    · rintro ⟨entry, ⟨_, hentry⟩, rfl⟩
      exact hentry
    · intro hseq
      obtain ⟨entry, hentry, rfl⟩ := service.consistent.live seq hseq
      exact ⟨entry, ⟨hentry, hseq⟩, rfl⟩
  have hsplit := List.length_eq_length_filter_add (l := service.heap_.toList)
    fun entry => decide (entry.seq ∈ service.live_seqs_)
  rw [hsplit, hlive]
  simp [tombstones]

theorem isTombstone_push (service : TimerService π) (due : Int) (env : Envelope π)
    (owner_name type_name : String) (entry : Entry π) :
    (service.push due env owner_name type_name).IsTombstone entry ↔
      service.IsTombstone entry := by
  have hheap : entry ∈ (service.push due env owner_name type_name).heap_.toList ↔
      entry = ⟨due, service.next_seq_, env, owner_name, type_name⟩ ∨
        entry ∈ service.heap_.toList :=
    (Lib.Heap.toList_push _ _).mem_iff.trans List.mem_cons
  unfold IsTombstone
  rw [hheap]
  simp only [push, Finset.mem_insert, not_or]
  constructor
  · rintro ⟨rfl | hold, hnew, hlive⟩
    · exact absurd rfl hnew
    · exact ⟨hold, hlive⟩
  · rintro ⟨hold, hlive⟩
    have := service.consistent.used entry hold
    exact ⟨Or.inr hold, by omega, hlive⟩

theorem isTombstone_cancel_by_seq (service : TimerService π) (seq : Nat) (entry : Entry π) :
    (service.cancel_by_seq seq).1.IsTombstone entry ↔
      service.IsTombstone entry ∨ service.IsArmed entry ∧ entry.seq = seq := by
  unfold cancel_by_seq
  split_ifs with h
  · simp only [IsTombstone, IsArmed, Finset.mem_erase]
    tauto
  · constructor
    · exact Or.inl
    · rintro (hold | ⟨harmed, rfl⟩)
      · exact hold
      · exact absurd harmed.2 h

-- `fire_due` takes every entry that is due off the heap, cancelled or not.
theorem mem_heap_collect (now : Int) (fuel : Nat) (service : TimerService π)
    (hf : service.heap_.toList.length ≤ fuel) (entry : Entry π) :
    entry ∈ (collect now fuel service).1.heap_.toList ↔
      entry ∈ service.heap_.toList ∧ now < entry.due := by
  induction fuel generalizing service with
  | zero =>
      have hnil := List.length_eq_zero_iff.mp (Nat.le_zero.mp hf)
      simp [collect, hnil]
  | succ fuel ih =>
      unfold collect
      cases hfront : service.heap_.front? with
      | none =>
          have hnil := (Lib.Heap.front?_eq_none_iff _).mp hfront
          simp [hnil]
      | some first =>
          by_cases hdue : first.due ≤ now
          · have hlen := Lib.Heap.length_pop hfront
            have hrest := ih service.reap (by rw [(reap_eq hfront).1]; omega)
            have hpop := (Lib.Heap.toList_pop hfront).mem_iff (a := entry)
            rw [(reap_eq hfront).1] at hrest
            have hstay : entry ∈ (collect now fuel service.reap).1.heap_.toList ↔
                entry ∈ service.heap_.toList ∧ now < entry.due := by
              rw [hrest, hpop, List.mem_cons]
              constructor
              · exact fun h => ⟨Or.inr h.1, h.2⟩
              · rintro ⟨rfl | hold, hlt⟩
                · omega
                · exact ⟨hold, hlt⟩
            simp only [hdue, ite_true]
            split_ifs
            · exact hstay
            · exact hstay
          · simp only [hdue, ite_false]
            constructor
            · intro hmem
              have := Lib.Heap.front_le hfront hmem
              exact ⟨hmem, by omega⟩
            · exact And.left

theorem isTombstone_collect (now : Int) (service : TimerService π) (entry : Entry π) :
    (collect now service.heap_.toList.length service).1.IsTombstone entry ↔
      service.IsTombstone entry ∧ now < entry.due := by
  have hheap := mem_heap_collect now _ service le_rfl entry
  obtain ⟨_, _, _, _, _, hrest⟩ := collect_spec now _ service le_rfl
  have harmed := hrest entry
  unfold IsArmed at harmed
  unfold IsTombstone
  rw [hheap] at harmed ⊢
  tauto

end TimerService

namespace Timer

namespace System

open Lib

variable {π ι φ : Type*} [DecidableEq ι] [DecidableEq φ]

-- The timers that one step cancels.
def cancels (s : System π ι φ) : Event π ι φ → List (TimerService.Entry π)
  | .handle op =>
      match s.timers.apply op with
      | some (_, some seq) =>
          s.service.heap_.toList.filter fun entry =>
            entry.seq = seq ∧ entry.seq ∈ s.service.live_seqs_
      | _ => []
  | _ => []

-- What counts as cancelled after one more step.
def recorded (s : System π ι φ) (entries : List (TimerService.Entry π)) :
    Event π ι φ → List (TimerService.Entry π)
  | .clear => []
  | event => entries ++ s.cancels event

-- The timers that a history cancels after the last time it clears the service,
-- on top of those cancelled before it.
def cancelled : System π ι φ → List (TimerService.Entry π) → List (Event π ι φ) →
    List (TimerService.Entry π)
  | _, entries, [] => entries
  | s, entries, event :: events =>
      match s.step event with
      | none => entries
      | some t => cancelled t (s.recorded entries event) events

-- The tombstones are cancelled timers, and the other cancelled timers are due.
structure Buried (s : System π ι φ) (entries : List (TimerService.Entry π)) : Prop where
  cancelled : ∀ entry, s.service.IsTombstone entry → entry ∈ entries
  kept : ∀ entry ∈ entries, s.service.IsTombstone entry ∨ entry.due ≤ s.now

omit [DecidableEq ι] [DecidableEq φ] in
theorem buried_init : (init : System π ι φ).Buried [] where
  cancelled := fun entry h => absurd h.1 List.not_mem_nil
  kept := by simp

omit [DecidableEq ι] [DecidableEq φ] in
theorem Buried.same {s t : System π ι φ} {entries : List (TimerService.Entry π)}
    (h : s.Buried entries) (hnow : s.now ≤ t.now)
    (hstay : ∀ entry, t.service.IsTombstone entry ↔ s.service.IsTombstone entry) :
    t.Buried entries where
  cancelled := fun entry he => h.cancelled entry ((hstay entry).mp he)
  kept := fun entry he => by
    rw [hstay]
    cases h.kept entry he with
    | inl hold => exact Or.inl hold
    | inr hdue => exact Or.inr (hdue.trans hnow)

omit [DecidableEq φ] in
theorem mem_cancels {s : System π ι φ} {op : Handle.Op ι} {timers : Handle.Store ι Nat}
    {seq : Nat} (h : s.timers.apply op = some (timers, some seq))
    (entry : TimerService.Entry π) :
    entry ∈ s.cancels (.handle op) ↔ s.service.IsArmed entry ∧ entry.seq = seq := by
  simp only [cancels, h, List.mem_filter, decide_eq_true_eq, TimerService.IsArmed]
  tauto

theorem buried_step {s t : System π ι φ} {entries : List (TimerService.Entry π)}
    (h : s.Buried entries) {event : Event π ι φ} (hs : s.step event = some t) :
    t.Buried (s.recorded entries event) := by
  cases event with
  | tick now =>
      simp only [step] at hs
      split_ifs at hs with hle
      obtain rfl := Option.some.inj hs
      simp only [recorded, cancels, List.append_nil]
      exact h.same hle.1 fun _ => Iff.rfl
  | bind_post =>
      obtain rfl := Option.some.inj hs
      simp only [recorded, cancels, List.append_nil]
      exact h.same le_rfl fun _ => Iff.rfl
  | clear =>
      obtain rfl := Option.some.inj hs
      exact ⟨fun entry he => absurd he.1 List.not_mem_nil, by simp [recorded]⟩
  | arm dst delay env owner_name type_name =>
      simp only [step, TimerService.arm] at hs
      split at hs
      · cases hs
      · rename_i service seq record harm
        split_ifs at harm
        simp only [Outcome.ok.injEq, Prod.mk.injEq] at harm
        obtain ⟨rfl, rfl, _⟩ := harm
        obtain ⟨timers, _, rfl⟩ := Option.map_eq_some_iff.mp hs
        simp only [recorded, cancels, List.append_nil]
        exact h.same le_rfl fun entry => TimerService.isTombstone_push ..
  | handle op =>
      simp only [step] at hs
      split at hs
      · cases hs
      · rename_i timers hop
        obtain rfl := Option.some.inj hs
        simp only [recorded, cancels, hop, List.append_nil]
        exact h.same le_rfl fun _ => Iff.rfl
      · -- What the step cancels turns from armed to tombstone.
        rename_i timers seq hop
        obtain rfl := Option.some.inj hs
        refine ⟨fun entry he => ?_, fun entry he => ?_⟩
        · rw [TimerService.isTombstone_cancel_by_seq] at he
          apply List.mem_append.mpr
          cases he with
          | inl hold => exact Or.inl (h.cancelled entry hold)
          | inr hnew => exact Or.inr ((mem_cancels hop entry).mpr hnew)
        · rw [TimerService.isTombstone_cancel_by_seq]
          cases List.mem_append.mp he with
          | inl hold =>
              cases h.kept entry hold with
              | inl htomb => exact Or.inl (Or.inl htomb)
              | inr hdue => exact Or.inr hdue
          | inr hnew => exact Or.inl (Or.inr ((mem_cancels hop entry).mp hnew))
  | fire_due call =>
      simp only [step, TimerService.fire_due] at hs
      split_ifs at hs
      obtain rfl := Option.some.inj hs
      simp only [recorded, cancels, List.append_nil]
      refine ⟨fun entry he => ?_, fun entry he => ?_⟩
      · exact h.cancelled entry ((TimerService.isTombstone_collect s.now s.service entry).mp he).1
      · rw [TimerService.isTombstone_collect]
        by_cases hdue : entry.due ≤ s.now
        · exact Or.inr hdue
        · have htomb := (h.kept entry he).resolve_right hdue
          exact Or.inl ⟨htomb, by omega⟩
  | post call =>
      simp only [step] at hs
      split at hs
      · cases hs
      · obtain rfl := Option.some.inj hs
        simp only [recorded, cancels, List.append_nil]
        exact h.same le_rfl fun _ => Iff.rfl

theorem buried_run {s t : System π ι φ} {entries : List (TimerService.Entry π)}
    (h : s.Buried entries) {events : List (Event π ι φ)}
    (hr : (machine π ι φ).run s events = some t) : t.Buried (cancelled s entries events) := by
  induction events generalizing s entries with
  | nil => exact Option.some.inj hr ▸ h
  | cons event events ih =>
      obtain ⟨next, hn, hrest⟩ := Machine.run_cons_some hr
      have hstep : s.step event = some next := hn
      simp only [cancelled, hstep]
      exact ih (buried_step h hstep) hrest

-- Posting what `fire_due` collected leaves the service as it is.
theorem service_posts {s t : System π ι φ} {call : φ} {n : Nat}
    (h : (machine π ι φ).run s (List.replicate n (.post call)) = some t) :
    t.service = s.service := by
  induction n generalizing s with
  | zero => exact congrArg service (Option.some.inj h).symm
  | succ n ih =>
      obtain ⟨next, hn, hrest⟩ := Machine.run_cons_some h
      have hpost : next.service = s.service := by
        simp only [machine, step] at hn
        split at hn
        · cases hn
        · rw [← Option.some.inj hn]
      exact (ih hrest).trans hpost

-- Right after `fire_due`, and up to the end of its call, the heap has the entries of
-- the live timers alone exactly if every timer cancelled so far is due by now.
theorem only_live_iff {history : List (Event π ι φ)} {s t : System π ι φ} {call : φ} {n : Nat}
    (hr : (machine π ι φ).run init history = some s)
    (hfire : (machine π ι φ).run s (.fire_due call :: List.replicate n (.post call)) = some t) :
    t.service.heap_.toList.length = t.service.armed_count ↔
      ∀ entry ∈ cancelled init [] history, entry.due ≤ s.now := by
  obtain ⟨next, hn, hposts⟩ := Machine.run_cons_some hfire
  have hburied := buried_run buried_init hr
  have htomb (entry : TimerService.Entry π) :
      t.service.IsTombstone entry ↔ s.service.IsTombstone entry ∧ s.now < entry.due := by
    rw [service_posts hposts]
    simp only [machine, step, TimerService.fire_due] at hn
    split_ifs at hn
    obtain rfl := Option.some.inj hn
    exact TimerService.isTombstone_collect s.now s.service entry
  have hlength := TimerService.length_heap t.service
  have hnone : t.service.heap_.toList.length = t.service.armed_count ↔
      ∀ entry, ¬t.service.IsTombstone entry := by
    simp only [← TimerService.mem_tombstones, ← List.eq_nil_iff_forall_not_mem,
      ← List.length_eq_zero_iff]
    omega
  rw [hnone]
  constructor
  · intro hclean entry he
    by_contra hlate
    have hold := (hburied.kept entry he).resolve_right hlate
    exact hclean entry ((htomb entry).mpr ⟨hold, by omega⟩)
  · intro hdue entry he
    obtain ⟨hold, hlate⟩ := (htomb entry).mp he
    have := hdue entry (hburied.cancelled entry hold)
    omega

-- Of two timers the one that is due first is cancelled.
def lapsedRun : List (Event Nat Nat Unit) :=
  [.bind_post, .arm 0 5 ⟨0, 1, 2, 10⟩ "a" "b", .arm 1 30 ⟨0, 1, 2, 11⟩ "a" "b",
    .handle (.reset 0), .tick 20]

theorem only_live_lapsedRun :
    ∃ s t, (System.machine Nat Nat Unit).run init lapsedRun = some s ∧
      (System.machine Nat Nat Unit).run s [.fire_due ()] = some t ∧
      t.service.heap_.toList.length = t.service.armed_count ∧ t.service.armed_count = 1 := by
  have hrun : (((System.machine Nat Nat Unit).run init lapsedRun).bind fun s =>
      ((System.machine Nat Nat Unit).run s [.fire_due ()]).map fun t =>
        t.service.armed_count) = some 1 := by
    decide +kernel
  obtain ⟨s, hs, hfire⟩ := Option.bind_eq_some_iff.mp hrun
  obtain ⟨t, ht, hcount⟩ := Option.map_eq_some_iff.mp hfire
  have hnow : s.now = 20 := by
    have hclock : ((System.machine Nat Nat Unit).run init lapsedRun).map System.now = some 20 := by
      decide +kernel
    rw [hs] at hclock
    exact Option.some.inj hclock
  refine ⟨s, t, hs, ht, (only_live_iff (n := 0) hs ht).mpr ?_, hcount⟩
  rw [hnow]
  decide +kernel

-- A timer armed for later and cancelled at once stays in the heap.
theorem not_always_only_live :
    ¬∀ (history : List (Event Nat Nat Unit)) (s t : System Nat Nat Unit),
      (System.machine Nat Nat Unit).run init history = some s →
      (System.machine Nat Nat Unit).run s [.fire_due ()] = some t →
      t.service.heap_.toList.length = t.service.armed_count := by
  intro hall
  have hrun : (((System.machine Nat Nat Unit).run init
      [.arm 0 5 ⟨0, 1, 2, 10⟩ "a" "b", .handle (.reset 0)]).bind fun s =>
        ((System.machine Nat Nat Unit).run s [.fire_due ()]).map fun t =>
          (t.service.heap_.toList.length, t.service.armed_count)) = some (1, 0) := by
    decide +kernel
  obtain ⟨s, hs, hfire⟩ := Option.bind_eq_some_iff.mp hrun
  obtain ⟨t, ht, hcounts⟩ := Option.map_eq_some_iff.mp hfire
  obtain ⟨hheap, hcount⟩ := Prod.mk.inj hcounts
  have heq := hall _ s t hs ht
  omega

end System

end Timer

end CortexFlow
