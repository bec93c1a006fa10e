import CortexFlow.Core
import CortexFlow.Lib.Heap
import Mathlib

namespace CortexFlow

namespace TimerService

variable {π : Type*}

structure Entry (π : Type*) where
  due : Int
  seq : Nat
  envelope : Envelope π
  owner_name : String
  type_name : String
deriving DecidableEq

structure FiringRecord (π : Type*) where
  envelope : Envelope π
  owner_name : String
  type_name : String
deriving DecidableEq

def Entry.record (entry : Entry π) : FiringRecord π :=
  ⟨entry.envelope, entry.owner_name, entry.type_name⟩

-- A live sequence number names one entry of the heap, and every number in use
-- is below the next one to be given out.
structure Consistent (entries : List (Entry π)) (live_seqs : Finset Nat) (next_seq : Nat) :
    Prop where
  nodup : (entries.map Entry.seq).Nodup
  used : ∀ entry ∈ entries, entry.seq < next_seq
  live : ∀ seq ∈ live_seqs, ∃ entry ∈ entries, entry.seq = seq

theorem Consistent.nil (next_seq : Nat) : Consistent ([] : List (Entry π)) ∅ next_seq :=
  ⟨List.nodup_nil, by simp, by simp⟩

theorem Consistent.perm {entries entries' : List (Entry π)} {live_seqs : Finset Nat}
    {next_seq : Nat} (h : Consistent entries live_seqs next_seq) (hp : entries'.Perm entries) :
    Consistent entries' live_seqs next_seq where
  nodup := (hp.map Entry.seq).nodup_iff.mpr h.nodup
  used := fun entry he => h.used entry (hp.mem_iff.mp he)
  live := fun seq hs => by
    obtain ⟨entry, he, rfl⟩ := h.live seq hs
    exact ⟨entry, hp.mem_iff.mpr he, rfl⟩

theorem Consistent.erase {entries : List (Entry π)} {live_seqs : Finset Nat} {next_seq : Nat}
    (h : Consistent entries live_seqs next_seq) (seq : Nat) :
    Consistent entries (live_seqs.erase seq) next_seq where
  nodup := h.nodup
  used := h.used
  live := fun other ho => h.live other (Finset.mem_of_mem_erase ho)

theorem Consistent.push {entries : List (Entry π)} {live_seqs : Finset Nat} {next_seq : Nat}
    (h : Consistent entries live_seqs next_seq) (entry : Entry π) (hs : entry.seq = next_seq) :
    Consistent (entry :: entries) (insert entry.seq live_seqs) (next_seq + 1) where
  nodup := by
    refine List.nodup_cons.mpr ⟨fun hm => ?_, h.nodup⟩
    obtain ⟨other, ho, he⟩ := List.mem_map.mp hm
    have := h.used other ho
    omega
  used := fun other ho => by
    rcases List.mem_cons.mp ho with rfl | ho
    · omega
    · have := h.used other ho
      omega
  live := fun seq hm => by
    rcases Finset.mem_insert.mp hm with rfl | hm
    · exact ⟨entry, List.mem_cons_self, rfl⟩
    · obtain ⟨other, ho, he⟩ := h.live seq hm
      exact ⟨other, List.mem_cons_of_mem _ ho, he⟩

theorem Consistent.pop {entry : Entry π} {entries : List (Entry π)} {live_seqs : Finset Nat}
    {next_seq : Nat} (h : Consistent (entry :: entries) live_seqs next_seq) :
    Consistent entries (live_seqs.erase entry.seq) next_seq where
  nodup := (List.nodup_cons.mp h.nodup).2
  used := fun other ho => h.used other (List.mem_cons_of_mem _ ho)
  live := fun seq hm => by
    obtain ⟨hne, hm⟩ := Finset.mem_erase.mp hm
    obtain ⟨other, ho, rfl⟩ := h.live seq hm
    rcases List.mem_cons.mp ho with rfl | ho
    · exact absurd rfl hne
    · exact ⟨other, ho, rfl⟩

end TimerService

-- `next_seq_` counts arms and is taken never to wrap.
structure TimerService (π : Type*) where
  post_bound : Bool
  heap_ : Lib.Heap (@TimerService.Entry.due π)
  live_seqs_ : Finset Nat
  next_seq_ : Nat
  consistent : TimerService.Consistent heap_.toList live_seqs_ next_seq_

namespace TimerService

variable {π : Type*}

def init : TimerService π where
  post_bound := false
  heap_ := .empty
  live_seqs_ := ∅
  next_seq_ := 1
  consistent := .nil 1

def bind_post (service : TimerService π) : TimerService π :=
  { service with post_bound := true }

-- The critical section of `arm`.
def push (service : TimerService π) (due : Int) (env : Envelope π)
    (owner_name type_name : String) : TimerService π where
  post_bound := service.post_bound
  heap_ := service.heap_.push ⟨due, service.next_seq_, env, owner_name, type_name⟩
  live_seqs_ := insert service.next_seq_ service.live_seqs_
  next_seq_ := service.next_seq_ + 1
  consistent := (service.consistent.push ⟨due, service.next_seq_, env, owner_name, type_name⟩
    rfl).perm (Lib.Heap.toList_push _ _)

-- Returns the sequence number the `Timer` holds and the record it traces.
def arm (service : TimerService π) (now delay : Int) (env : Envelope π)
    (owner_name type_name : String) : Outcome (TimerService π) (Nat × TraceRecord) :=
  if delay < 0 then .fault service "TimerService::arm called with negative duration"
  else
    .ok (service.push (wrapTicks (now + delay)) env owner_name type_name)
      (service.next_seq_, ⟨.Full, "timer_arm", owner_name, "-", type_name,
        "due_ms=" ++ toString (delay.tdiv 1000000)⟩)

-- Pop the earliest entry; its sequence number is not live afterwards.
def reap (service : TimerService π) : TimerService π :=
  match h : service.heap_.front? with
  | none => service
  | some entry =>
      { service with
        heap_ := service.heap_.pop
        live_seqs_ := service.live_seqs_.erase entry.seq
        consistent := (service.consistent.perm (Lib.Heap.toList_pop h).symm).pop }

-- The loop of `fire_due` under its lock. A popped entry whose sequence number
-- is no longer live was cancelled and is dropped.
def collect (now : Int) : Nat → TimerService π → TimerService π × List (FiringRecord π)
  | 0, service => (service, [])
  | fuel + 1, service =>
      match service.heap_.front? with
      | none => (service, [])
      | some entry =>
          if entry.due ≤ now then
            let rest := collect now fuel service.reap
            if entry.seq ∈ service.live_seqs_ then (rest.1, entry.record :: rest.2) else rest
          else (service, [])

-- The critical section of `fire_due` and the assertion right after it. The
-- records are posted one by one once the lock is released.
def fire_due (service : TimerService π) (now : Int) :
    Outcome (TimerService π) (List (FiringRecord π)) :=
  let collected := collect now service.heap_.toList.length service
  if collected.2 ≠ [] ∧ service.post_bound = false then
    .fault collected.1 "TimerService: post sink not bound when firing timers"
  else .ok collected.1 collected.2

def fireTrace (rec : FiringRecord π) : TraceRecord :=
  ⟨.Full, "timer_fire", rec.owner_name, "-", rec.type_name, ""⟩

def clear (service : TimerService π) : TimerService π where
  post_bound := false
  heap_ := .empty
  live_seqs_ := ∅
  next_seq_ := service.next_seq_
  consistent := .nil _

def armed_count (service : TimerService π) : Nat := service.live_seqs_.card

def earlier (live_seqs : Finset Nat) (earliest : Option Int) (entry : Entry π) : Option Int :=
  if entry.seq ∈ live_seqs then
    match earliest with
    | none => some entry.due
    | some due => if entry.due < due then some entry.due else some due
  else earliest

def next_due_at (service : TimerService π) : Option Int :=
  service.heap_.toList.foldl (earlier service.live_seqs_) none

def cancel_by_seq (service : TimerService π) (seq : Nat) :
    TimerService π × Option TraceRecord :=
  if seq ∈ service.live_seqs_ then
    ({ service with
        live_seqs_ := service.live_seqs_.erase seq
        consistent := service.consistent.erase seq },
      (service.heap_.toList.find? fun entry => entry.seq = seq).map fun entry =>
        ⟨.Full, "timer_cancel", entry.owner_name, "-", entry.type_name, ""⟩)
  else (service, none)

-- A timer that has neither fired nor been cancelled or cleared.
def IsArmed (service : TimerService π) (entry : Entry π) : Prop :=
  entry ∈ service.heap_.toList ∧ entry.seq ∈ service.live_seqs_

theorem isArmed_unique {service : TimerService π} {a b : Entry π} (ha : service.IsArmed a)
    (hb : service.IsArmed b) (h : a.seq = b.seq) : a = b :=
  List.inj_on_of_nodup_map service.consistent.nodup ha.1 hb.1 h

theorem isArmed_used {service : TimerService π} {entry : Entry π} (h : service.IsArmed entry) :
    entry.seq < service.next_seq_ :=
  service.consistent.used entry h.1

theorem live_iff_isArmed (service : TimerService π) (seq : Nat) :
    seq ∈ service.live_seqs_ ↔ ∃ entry, service.IsArmed entry ∧ entry.seq = seq := by
  constructor
  · intro h
    obtain ⟨entry, he, rfl⟩ := service.consistent.live seq h
    exact ⟨entry, ⟨he, h⟩, rfl⟩
  · rintro ⟨entry, h, rfl⟩
    exact h.2

@[simp] theorem isArmed_init (entry : Entry π) : ¬(init : TimerService π).IsArmed entry := by
  simp [IsArmed, init]

@[simp] theorem isArmed_clear (service : TimerService π) (entry : Entry π) :
    ¬service.clear.IsArmed entry := by
  simp [IsArmed, clear]

theorem isArmed_push (service : TimerService π) (due : Int) (env : Envelope π)
    (owner_name type_name : String) (entry : Entry π) :
    (service.push due env owner_name type_name).IsArmed entry ↔
      entry = ⟨due, service.next_seq_, env, owner_name, type_name⟩ ∨ service.IsArmed entry := by
  have hheap : entry ∈ (service.push due env owner_name type_name).heap_.toList ↔
      entry = ⟨due, service.next_seq_, env, owner_name, type_name⟩ ∨
        entry ∈ service.heap_.toList :=
    (Lib.Heap.toList_push _ _).mem_iff.trans List.mem_cons
  unfold IsArmed
  rw [hheap]
  simp only [push, Finset.mem_insert]
  constructor
  · rintro ⟨rfl | he, hs⟩
    · exact Or.inl rfl
    · have := service.consistent.used entry he
      exact Or.inr ⟨he, hs.resolve_left (by omega)⟩
  · rintro (rfl | ⟨he, hs⟩)
    · exact ⟨Or.inl rfl, Or.inl rfl⟩
    · exact ⟨Or.inr he, Or.inr hs⟩

theorem isArmed_cancel_by_seq (service : TimerService π) (seq : Nat) (entry : Entry π) :
    (service.cancel_by_seq seq).1.IsArmed entry ↔ service.IsArmed entry ∧ entry.seq ≠ seq := by
  unfold cancel_by_seq
  split_ifs with h
  · simp only [IsArmed, Finset.mem_erase]
    tauto
  · constructor
    · exact fun he => ⟨he, fun hs => h (hs ▸ he.2)⟩
    · exact And.left

theorem cancel_by_seq_of_not_live {service : TimerService π} {seq : Nat}
    (h : seq ∉ service.live_seqs_) : service.cancel_by_seq seq = (service, none) :=
  if_neg h

@[simp] theorem next_seq_cancel_by_seq (service : TimerService π) (seq : Nat) :
    (service.cancel_by_seq seq).1.next_seq_ = service.next_seq_ := by
  unfold cancel_by_seq
  split_ifs <;> rfl

@[simp] theorem post_bound_cancel_by_seq (service : TimerService π) (seq : Nat) :
    (service.cancel_by_seq seq).1.post_bound = service.post_bound := by
  unfold cancel_by_seq
  split_ifs <;> rfl

theorem reap_eq {service : TimerService π} {entry : Entry π}
    (h : service.heap_.front? = some entry) :
    service.reap.heap_ = service.heap_.pop ∧
      service.reap.live_seqs_ = service.live_seqs_.erase entry.seq ∧
      service.reap.next_seq_ = service.next_seq_ ∧
      service.reap.post_bound = service.post_bound := by
  unfold reap
  split
  · rename_i hn
    exact absurd (hn.symm.trans h) nofun
  · rename_i other ho
    obtain rfl := Option.some.inj (ho.symm.trans h)
    exact ⟨rfl, rfl, rfl, rfl⟩

theorem isArmed_reap {service : TimerService π} {entry : Entry π}
    (h : service.heap_.front? = some entry) (other : Entry π) :
    service.reap.IsArmed other ↔ service.IsArmed other ∧ other ≠ entry := by
  obtain ⟨hheap, hlive, _⟩ := reap_eq h
  have hp := Lib.Heap.toList_pop h
  unfold IsArmed
  rw [hheap, hlive, hp.mem_iff, List.mem_cons, Finset.mem_erase]
  constructor
  · rintro ⟨ho, hne, hl⟩
    exact ⟨⟨Or.inr ho, hl⟩, fun he => hne (he ▸ rfl)⟩
  · rintro ⟨⟨ho, hl⟩, hne⟩
    have ho := ho.resolve_left hne
    refine ⟨ho, fun hs => ?_, hl⟩
    have hn := (hp.map Entry.seq).nodup_iff.mp service.consistent.nodup
    exact (List.nodup_cons.mp hn).1 (hs ▸ List.mem_map_of_mem ho)

-- Nothing is lost by it but the entry.
theorem armed_reap_and {service : TimerService π} {first : Entry π}
    (h : service.heap_.front? = some first) {p : Entry π → Prop}
    (hnot : service.IsArmed first → ¬p first) (entry : Entry π) :
    service.reap.IsArmed entry ∧ p entry ↔ service.IsArmed entry ∧ p entry := by
  rw [isArmed_reap h]
  constructor
  · rintro ⟨⟨he, _⟩, hp⟩
    exact ⟨he, hp⟩
  · rintro ⟨he, hp⟩
    refine ⟨⟨he, ?_⟩, hp⟩
    rintro rfl
    exact hnot he hp

-- What one call of `fire_due` takes out: exactly the armed entries that are
-- due, each once and earliest first, and every other armed entry stays.
theorem collect_spec (now : Int) (fuel : Nat) (service : TimerService π)
    (hf : service.heap_.toList.length ≤ fuel) :
    ∃ entries : List (Entry π),
      (collect now fuel service).2 = entries.map Entry.record ∧
      entries.Pairwise (fun a b => a.due ≤ b.due) ∧ entries.Nodup ∧
      (∀ entry, entry ∈ entries ↔ service.IsArmed entry ∧ entry.due ≤ now) ∧
      ∀ entry, (collect now fuel service).1.IsArmed entry ↔
        service.IsArmed entry ∧ now < entry.due := by
  induction fuel generalizing service with
  | zero =>
      have hnil := List.length_eq_zero_iff.mp (Nat.le_zero.mp hf)
      exact ⟨[], rfl, .nil, .nil, by simp [IsArmed, hnil], by simp [collect, IsArmed, hnil]⟩
  | succ fuel ih =>
      unfold collect
      cases hfront : service.heap_.front? with
      | none =>
          have hnil := (Lib.Heap.front?_eq_none_iff _).mp hfront
          exact ⟨[], rfl, .nil, .nil, by simp [IsArmed, hnil], by simp [IsArmed, hnil]⟩
      | some first =>
          have hleast {entry : Entry π} (he : service.IsArmed entry) : first.due ≤ entry.due :=
            Lib.Heap.front_le hfront he.1
          by_cases hdue : first.due ≤ now
          · have hlen := Lib.Heap.length_pop hfront
            obtain ⟨entries, hrec, hsort, hnd, hmem, hrest⟩ :=
              ih service.reap (by rw [(reap_eq hfront).1]; omega)
            have harmed := isArmed_reap hfront
            simp only [hdue, ite_true]
            have hstay : ∀ entry, (collect now fuel service.reap).1.IsArmed entry ↔
                service.IsArmed entry ∧ now < entry.due := by
              intro entry
              rw [hrest]
              have hnot : service.IsArmed first → ¬now < first.due := fun _ => Int.not_lt.mpr hdue
              exact armed_reap_and hfront (p := fun entry => now < entry.due) hnot entry
            by_cases hlive : first.seq ∈ service.live_seqs_
            · have hfirst : service.IsArmed first := by
                refine ⟨(Lib.Heap.toList_pop hfront).mem_iff.mpr List.mem_cons_self, hlive⟩
              simp only [hlive, ite_true]
              refine ⟨first :: entries, by rw [hrec]; rfl, ?_, ?_, ?_, hstay⟩
              · refine List.pairwise_cons.mpr ⟨fun entry he => ?_, hsort⟩
                exact hleast ((harmed entry).mp ((hmem entry).mp he).1).1
              · refine List.nodup_cons.mpr ⟨fun he => ?_, hnd⟩
                exact ((harmed first).mp ((hmem first).mp he).1).2 rfl
              · intro entry
                rw [List.mem_cons, hmem, harmed]
                constructor
                · rintro (rfl | h)
                  · exact ⟨hfirst, hdue⟩
                  · exact ⟨h.1.1, h.2⟩
                · rintro ⟨he, hle⟩
                  by_cases heq : entry = first
                  · exact Or.inl heq
                  · exact Or.inr ⟨⟨he, heq⟩, hle⟩
            · simp only [hlive, ite_false]
              refine ⟨entries, hrec, hsort, hnd, fun entry => ?_, hstay⟩
              rw [hmem]
              have hnot : service.IsArmed first → ¬first.due ≤ now := fun he => absurd he.2 hlive
              exact armed_reap_and hfront (p := fun entry => entry.due ≤ now) hnot entry
          · simp only [hdue, ite_false]
            refine ⟨[], rfl, .nil, .nil, fun entry => ?_, fun entry => ?_⟩
            · constructor
              · exact nofun
              · rintro ⟨he, hle⟩
                have := hleast he
                omega
            · constructor
              · intro he
                have := hleast he
                exact ⟨he, by omega⟩
              · exact And.left

theorem collect_frame (now : Int) (fuel : Nat) (service : TimerService π) :
    (collect now fuel service).1.next_seq_ = service.next_seq_ ∧
      (collect now fuel service).1.post_bound = service.post_bound := by
  induction fuel generalizing service with
  | zero => exact ⟨rfl, rfl⟩
  | succ fuel ih =>
      unfold collect
      cases hfront : service.heap_.front? with
      | none => exact ⟨rfl, rfl⟩
      | some first =>
          have hreap := reap_eq hfront
          have hnext := ih service.reap
          by_cases hdue : first.due ≤ now
          · simp only [hdue, ite_true]
            split_ifs <;> exact ⟨hnext.1.trans hreap.2.2.1, hnext.2.trans hreap.2.2.2⟩
          · simp only [hdue, ite_false, and_self]

-- An optional time that is the least one `p` holds of, or empty if there is none.
def IsEarliest (p : Int → Prop) : Option Int → Prop
  | none => ∀ due, ¬p due
  | some due => p due ∧ ∀ other, p other → due ≤ other

theorem IsEarliest.congr {p q : Int → Prop} {earliest : Option Int} (h : IsEarliest p earliest)
    (hpq : ∀ due, p due ↔ q due) : IsEarliest q earliest := by
  rwa [← show p = q from funext fun due => propext (hpq due)]

theorem isEarliest_earlier {p : Int → Prop} {earliest : Option Int} (h : IsEarliest p earliest)
    (live_seqs : Finset Nat) (entry : Entry π) :
    IsEarliest (fun due => p due ∨ entry.seq ∈ live_seqs ∧ entry.due = due)
      (earlier live_seqs earliest entry) := by
  unfold earlier
  split_ifs with hl
  · cases earliest with
    | none =>
        refine ⟨Or.inr ⟨hl, rfl⟩, fun other ho => ?_⟩
        rcases ho with ho | ⟨_, rfl⟩
        · exact absurd ho (h other)
        · exact le_rfl
    | some due =>
        simp only
        split_ifs with hlt
        · refine ⟨Or.inr ⟨hl, rfl⟩, fun other ho => ?_⟩
          rcases ho with ho | ⟨_, rfl⟩
          · exact hlt.le.trans (h.2 other ho)
          · exact le_rfl
        · refine ⟨Or.inl h.1, fun other ho => ?_⟩
          rcases ho with ho | ⟨_, rfl⟩
          · exact h.2 other ho
          · exact le_of_not_gt hlt
  · exact h.congr fun due => by simp only [hl, false_and, or_false]

-- The scan ends with the earliest due time of the live entries.
theorem isEarliest_foldl {p : Int → Prop} {earliest : Option Int} (live_seqs : Finset Nat)
    (entries : List (Entry π)) (h : IsEarliest p earliest) :
    IsEarliest (fun due => p due ∨ ∃ entry ∈ entries, entry.seq ∈ live_seqs ∧ entry.due = due)
      (entries.foldl (earlier live_seqs) earliest) := by
  induction entries generalizing p earliest with
  | nil => exact h.congr fun due => by simp
  | cons entry entries ih =>
      have hnext := ih (isEarliest_earlier h live_seqs entry)
      exact hnext.congr fun due => by simp [or_assoc]

theorem next_due_at_isEarliest (service : TimerService π) :
    IsEarliest (fun due => ∃ entry, service.IsArmed entry ∧ entry.due = due)
      service.next_due_at := by
  have hnone : IsEarliest (fun _ => False) none := fun _ => id
  exact (isEarliest_foldl service.live_seqs_ service.heap_.toList hnone).congr fun due => by
    simp only [IsArmed, false_or, and_assoc]

end TimerService

end CortexFlow
