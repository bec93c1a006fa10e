import CortexFlow.Lib.Token
import CortexFlow.Tracing.Basic

namespace CortexFlow

namespace Tracing

open Lib TimerService

-- What the trace stream says of one timer.
structure Causal (trace : List Traced) (seq : Nat) : Prop where
  once : (trace.filter fun traced => traced.ends seq).length ≤ 1
  armed_first : Preceded (fun traced => traced.is "timer_arm" seq) (fun traced => traced.ends seq)
    trace
  fired_first : Preceded (fun traced => traced.is "timer_fire" seq)
    (fun traced => traced.is "envelope" seq) trace

def labels {π : Type*} (records : List (FiringRecord (Tagged π))) : List Nat :=
  records.filterMap fun rec => rec.envelope.payload_.timer

namespace Call

variable {π ι : Type*}

-- The timer that a thread is arming.
def arms : Call π ι → Option Nat
  | .arming _ seq _ => some seq
  | _ => none

-- The timers that a thread has ended and not yet recorded as such.
def ends : Call π ι → List Nat
  | .cancelling seq _ => [seq]
  | .firing rec rest => labels (rec :: rest)
  | .posting _ rest => labels rest
  | _ => []

-- The timer whose envelope a thread has in hand.
def carries : Call π ι → Option Nat
  | .posting env _ => env.payload_.timer
  | .dispatching env => env.payload_.timer
  | _ => none

def cancels : Call π ι → Option Nat
  | .cancelling seq _ => some seq
  | _ => none

-- The records that wait to be emitted are of their kinds.
def Kinded : Call π ι → Prop
  | .arming _ _ record => record.kind = "timer_arm"
  | .cancelling _ record => record.kind = "timer_cancel"
  | _ => True

-- What `fire_due` leaves its thread to do.
@[simp] theorem ends_nextRecord (records : List (FiringRecord (Tagged π))) :
    (State.nextRecord records : Call π ι).ends = labels records := by
  cases records <;> rfl

@[simp] theorem arms_nextRecord (records : List (FiringRecord (Tagged π))) :
    (State.nextRecord records : Call π ι).arms = none := by
  cases records <;> rfl

@[simp] theorem carries_nextRecord (records : List (FiringRecord (Tagged π))) :
    (State.nextRecord records : Call π ι).carries = none := by
  cases records <;> rfl

@[simp] theorem cancels_nextRecord (records : List (FiringRecord (Tagged π))) :
    (State.nextRecord records : Call π ι).cancels = none := by
  cases records <;> rfl

theorem kinded_nextRecord (records : List (FiringRecord (Tagged π))) :
    (State.nextRecord records : Call π ι).Kinded := by
  cases records <;> trivial

end Call

-- Where the arming or the end of a timer can stand.
inductive Place (τ : Type*)
  | service
  | call (caller : τ)
  | trace

namespace State

variable {π ι τ : Type*}

def EndAt (s : State π ι τ) (seq : Nat) : Place τ → Prop
  | .service => seq ∈ s.service.live_seqs_
  | .call caller => seq ∈ (s.calls caller).ends
  | .trace => ∃ traced ∈ s.trace, traced.ends seq

def ArmAt (s : State π ι τ) (seq : Nat) : Place τ → Prop
  | .service => False
  | .call caller => (s.calls caller).arms = some seq
  | .trace => ∃ traced ∈ s.trace, traced.is "timer_arm" seq

-- Someone has the envelope of the timer.
def Sent (s : State π ι τ) (seq : Nat) : Prop :=
  (∃ caller, (s.calls caller).carries = some seq) ∨
    ∃ env ∈ s.queue_, env.payload_.timer = some seq

-- What holds of one timer in every state.
structure Recorded (s : State π ι τ) (seq : Nat) : Prop where
  ended : Token (s.EndAt seq)
  armed : Token (s.ArmAt seq)
  known : ∀ p, s.EndAt seq p → ∃ q, s.ArmAt seq q
  issued : ∀ p, s.ArmAt seq p → seq < s.service.next_seq_
  owned : Handle.Owned s.timers seq → s.ArmAt seq .trace
  cancelled : ∀ caller, (s.calls caller).cancels = some seq → s.ArmAt seq .trace
  sent : s.Sent seq → ∃ traced ∈ s.trace, traced.is "timer_fire" seq
  once : (s.trace.filter fun traced => traced.ends seq).length ≤ 1
  fired_first : Preceded (fun traced => traced.is "timer_fire" seq)
    (fun traced => traced.is "envelope" seq) s.trace

structure Invariant (s : State π ι τ) : Prop where
  recorded : ∀ seq, s.Recorded seq
  unique : Handle.Unique s.timers
  tagged : ∀ entry, s.service.IsArmed entry → entry.envelope.payload_.timer = some entry.seq
  kinded : ∀ caller, (s.calls caller).Kinded
  nodup : ∀ caller, (s.calls caller).ends.Nodup

-- A thread emits the record of a timer that fired when that of its arming is out.
def OnTime (s : State π ι τ) : Event π ι τ → Prop
  | .advance caller =>
      match s.calls caller with
      | .firing rec _ =>
          ∀ seq ∈ rec.envelope.payload_.timer, ∀ other, (s.calls other).arms ≠ some seq
      | _ => True
  | _ => True

instance [Fintype τ] (s : State π ι τ) (event : Event π ι τ) : Decidable (s.OnTime event) := by
  unfold OnTime
  split
  · split <;> infer_instance
  · infer_instance

-- What a step that changes the call of one thread may do with one timer: its end and its
-- arming go from the service to the thread and from the thread to the trace.
structure Update (s t : State π ι τ) (caller : τ) (call : Call π ι) (seq : Nat)
    [DecidableEq τ] : Prop where
  calls : t.calls = Function.update s.calls caller call
  live : seq ∈ t.service.live_seqs_ → seq ∈ s.service.live_seqs_
  next : s.service.next_seq_ ≤ t.service.next_seq_
  ends : seq ∈ call.ends →
    seq ∈ (s.calls caller).ends ∨ seq ∈ s.service.live_seqs_ ∧ seq ∉ t.service.live_seqs_
  arms : call.arms = some seq → (s.calls caller).arms = some seq
  armed : (s.calls caller).arms = some seq → call.arms = some seq ∨ t.ArmAt seq .trace
  trace : t.trace = s.trace ∨ ∃ x, t.trace = s.trace ++ [x] ∧
    (x.ends seq → seq ∈ (s.calls caller).ends ∧ seq ∉ call.ends) ∧
    (x.is "timer_arm" seq → (s.calls caller).arms = some seq ∧ call.arms ≠ some seq) ∧
    (x.is "envelope" seq → s.Sent seq)
  owned : Handle.Owned t.timers seq → Handle.Owned s.timers seq ∨ t.ArmAt seq .trace
  cancels : call.cancels = some seq → (s.calls caller).cancels = some seq ∨ s.ArmAt seq .trace
  carries : call.carries = some seq → s.Sent seq ∨ ∃ traced ∈ t.trace, traced.is "timer_fire" seq
  queue : ∀ env ∈ t.queue_, env.payload_.timer = some seq → s.Sent seq

variable [DecidableEq τ]

namespace Update

variable {s t : State π ι τ} {caller : τ} {call : Call π ι} {seq : Nat}

theorem traced (h : s.Update t caller call seq) {traced : Traced} (hm : traced ∈ s.trace) :
    traced ∈ t.trace := by
  rcases h.trace with heq | ⟨x, heq, _⟩
  · exact heq ▸ hm
  · exact heq ▸ List.mem_append_left _ hm

-- A record of the trace is an old one, or the one that the thread was to emit.
theorem emitted (h : s.Update t caller call seq) {traced : Traced} (hm : traced ∈ t.trace) :
    traced ∈ s.trace ∨
      (traced.ends seq → seq ∈ (s.calls caller).ends ∧ seq ∉ call.ends) ∧
      (traced.is "timer_arm" seq → (s.calls caller).arms = some seq ∧ call.arms ≠ some seq) := by
  rcases h.trace with heq | ⟨x, heq, hends, harms, _⟩
  · exact Or.inl (heq ▸ hm)
  · rw [heq] at hm
    rcases List.mem_append.mp hm with hold | hlast
    · exact Or.inl hold
    · obtain rfl := List.mem_singleton.mp hlast
      exact Or.inr ⟨hends, harms⟩

theorem call_eq (h : s.Update t caller call seq) (other : τ) :
    t.calls other = if other = caller then call else s.calls other := by
  rw [h.calls, Function.update_apply]

theorem ended (h : s.Update t caller call seq) : Token.Moves (s.EndAt seq) (t.EndAt seq) := by
  have hother {other : τ} (ho : other ≠ caller) (hp : t.EndAt seq (.call other)) :
      s.EndAt seq (.call other) := by
    simpa only [EndAt, h.call_eq, ho, ite_false] using hp
  by_cases hnew : seq ∈ call.ends ∧ seq ∉ (s.calls caller).ends
  · have hlive := (h.ends hnew.1).resolve_left hnew.2
    refine ⟨.call caller, fun p hp => ?_⟩
    cases p with
    | service => exact absurd hp hlive.2
    | call other =>
        by_cases ho : other = caller
        · exact Or.inr ⟨congrArg Place.call ho, .service, hlive⟩
        · exact Or.inl (hother ho hp)
    | trace =>
        obtain ⟨record, hm, hrecord⟩ := hp
        rcases h.emitted hm with hold | ⟨hends, _⟩
        · exact Or.inl ⟨record, hold, hrecord⟩
        · exact absurd (hends hrecord).1 hnew.2
  · have hstay (hc : seq ∈ call.ends) : seq ∈ (s.calls caller).ends := by
      by_contra hn
      exact hnew ⟨hc, hn⟩
    refine ⟨.trace, fun p hp => ?_⟩
    cases p with
    | service => exact Or.inl (h.live hp)
    | call other =>
        by_cases ho : other = caller
        · subst ho
          refine Or.inl (hstay ?_)
          simpa only [EndAt, h.call_eq, ite_true] using hp
        · exact Or.inl (hother ho hp)
    | trace =>
        obtain ⟨record, hm, hrecord⟩ := hp
        rcases h.emitted hm with hold | ⟨hends, _⟩
        · exact Or.inl ⟨record, hold, hrecord⟩
        · refine Or.inr ⟨rfl, .call caller, (hends hrecord).1, ?_⟩
          simpa only [EndAt, h.call_eq, ite_true] using (hends hrecord).2

theorem arming (h : s.Update t caller call seq) : Token.Moves (s.ArmAt seq) (t.ArmAt seq) := by
  refine ⟨.trace, fun p hp => ?_⟩
  cases p with
  | service => exact absurd hp id
  | call other =>
      refine Or.inl ?_
      by_cases ho : other = caller
      · subst ho
        simp only [ArmAt, h.call_eq, ite_true] at hp
        exact h.arms hp
      · simpa only [ArmAt, h.call_eq, ho, ite_false] using hp
  | trace =>
      obtain ⟨record, hm, hrecord⟩ := hp
      rcases h.emitted hm with hold | ⟨_, harms⟩
      · exact Or.inl ⟨record, hold, hrecord⟩
      · refine Or.inr ⟨rfl, .call caller, (harms hrecord).1, ?_⟩
        simpa only [ArmAt, h.call_eq, ite_true] using (harms hrecord).2

theorem arm_traced (h : s.Update t caller call seq) (ha : s.ArmAt seq .trace) :
    t.ArmAt seq .trace := by
  obtain ⟨record, hm, hrecord⟩ := ha
  exact ⟨record, h.traced hm, hrecord⟩

-- What is armed stays known as armed.
theorem kept (h : s.Update t caller call seq) {p : Place τ} (ha : s.ArmAt seq p) :
    ∃ q, t.ArmAt seq q := by
  cases p with
  | service => exact absurd ha id
  | call other =>
      by_cases ho : other = caller
      · subst ho
        rcases h.armed ha with hcall | htrace
        · refine ⟨.call other, ?_⟩
          simpa only [ArmAt, h.call_eq, ite_true] using hcall
        · exact ⟨.trace, htrace⟩
      · refine ⟨.call other, ?_⟩
        simpa only [ArmAt, h.call_eq, ho, ite_false] using ha
  | trace => exact ⟨.trace, h.arm_traced ha⟩

end Update

variable {s t : State π ι τ} {caller : τ} {seq : Nat}

theorem Recorded.update (hr : s.Recorded seq) (caller : τ) (call : Call π ι)
    (h : s.Update t caller call seq) : t.Recorded seq := by
  have hfire (hs : s.Sent seq) : ∃ traced ∈ t.trace, traced.is "timer_fire" seq := by
    obtain ⟨traced, hm, hrecord⟩ := hr.sent hs
    exact ⟨traced, h.traced hm, hrecord⟩
  refine ⟨hr.ended.moved h.ended, hr.armed.moved h.arming, fun p hp => ?_, fun p hp => ?_,
    fun ho => ?_, fun other hc => ?_, fun hs => ?_, ?_, ?_⟩
  · obtain ⟨dst, hmove⟩ := h.ended
    rcases hmove p hp with hold | ⟨_, src, hsrc, _⟩
    · obtain ⟨q, hq⟩ := hr.known p hold
      exact h.kept hq
    · obtain ⟨q, hq⟩ := hr.known src hsrc
      exact h.kept hq
  · obtain ⟨dst, hmove⟩ := h.arming
    rcases hmove p hp with hold | ⟨_, src, hsrc, _⟩
    · exact (hr.issued p hold).trans_le h.next
    · exact (hr.issued src hsrc).trans_le h.next
  · rcases h.owned ho with hold | htrace
    · exact h.arm_traced (hr.owned hold)
    · exact htrace
  · rw [h.call_eq] at hc
    split_ifs at hc with he
    · rcases h.cancels hc with hold | htrace
      · exact h.arm_traced (hr.cancelled caller hold)
      · exact h.arm_traced htrace
    · exact h.arm_traced (hr.cancelled other hc)
  · rcases hs with ⟨other, hc⟩ | ⟨env, hm, henv⟩
    · rw [h.call_eq] at hc
      split_ifs at hc
      · rcases h.carries hc with hold | hfired
        · exact hfire hold
        · exact hfired
      · exact hfire (Or.inl ⟨other, hc⟩)
    · exact hfire (h.queue env hm henv)
  · rcases h.trace with heq | ⟨x, heq, hends, _⟩
    · exact heq ▸ hr.once
    · rw [heq, List.filter_append, List.length_append]
      by_cases hx : x.ends seq
      · have hnone : s.trace.filter (fun traced => traced.ends seq) = [] := by
          refine List.filter_eq_nil_iff.mpr fun traced hm hrecord => ?_
          have hplace := hr.ended (.call caller) .trace (hends hx).1
            ⟨traced, hm, of_decide_eq_true hrecord⟩
          cases hplace
        rw [hnone]
        simp [hx]
      · have := hr.once
        simpa [hx] using this
  · rcases h.trace with heq | ⟨x, heq, _, _, henvelope⟩
    · exact heq ▸ hr.fired_first
    · rw [heq, preceded_concat]
      exact ⟨hr.fired_first, fun hx => hr.sent (henvelope hx)⟩

omit [DecidableEq τ] in
theorem idle_outside (h : s.idle caller = true) : s.calls caller = .outside := by
  unfold idle at h
  split at h
  · assumption
  · cases h

omit [DecidableEq τ] in
-- Steps that no call takes part in.
theorem Recorded.frame (h : s.Recorded seq) (hcalls : t.calls = s.calls)
    (htrace : t.trace = s.trace) (hlive : t.service.live_seqs_ ⊆ s.service.live_seqs_)
    (hnext : t.service.next_seq_ = s.service.next_seq_)
    (howned : Handle.Owned t.timers seq → Handle.Owned s.timers seq)
    (hqueue : t.queue_ ⊆ s.queue_) : t.Recorded seq := by
  have hend (p : Place τ) (hp : t.EndAt seq p) : s.EndAt seq p := by
    cases p with
    | service => exact hlive hp
    | call other => simpa only [EndAt, hcalls] using hp
    | trace => simpa only [EndAt, htrace] using hp
  have harm : t.ArmAt seq = s.ArmAt seq := by
    funext p
    cases p <;> simp only [ArmAt, hcalls, htrace]
  refine ⟨h.ended.kept hend, harm ▸ h.armed, fun p hp => ?_, ?_, fun ho => ?_, fun other hc => ?_,
    fun hs => ?_, htrace ▸ h.once, htrace ▸ h.fired_first⟩
  · rw [harm]
    exact h.known p (hend p hp)
  · rw [harm, hnext]
    exact h.issued
  · rw [harm]
    exact h.owned (howned ho)
  · rw [harm]
    exact h.cancelled other (hcalls ▸ hc)
  · rw [htrace]
    apply h.sent
    rcases hs with ⟨other, hc⟩ | ⟨env, hm, henv⟩
    · exact Or.inl ⟨other, hcalls ▸ hc⟩
    · exact Or.inr ⟨env, hqueue hm, henv⟩

-- A timer is armed under a number that nothing says anything of yet.
theorem recorded_fresh (h : s.Recorded s.service.next_seq_) {due : Int}
    {env : Envelope (Tagged π)} {owner_name type_name : String} {dst : ι} {record : TraceRecord} :
    (({ s with service := s.service.push due env owner_name type_name } : State π ι τ).setCall
      caller (.arming dst s.service.next_seq_ record)).Recorded s.service.next_seq_ := by
  have hnone (p : Place τ) : ¬s.ArmAt s.service.next_seq_ p := fun hp =>
    absurd (h.issued p hp) (lt_irrefl _)
  have hopen (p : Place τ) : ¬s.EndAt s.service.next_seq_ p := fun hp => by
    obtain ⟨q, hq⟩ := h.known p hp
    exact hnone q hq
  refine ⟨.created fun p hp => (?_ : p = .service), .created fun p hp => (?_ : p = .call caller),
    fun _ _ => ⟨.call caller, ?_⟩, fun _ _ => Nat.lt_succ_self _,
    fun ho => absurd (h.owned ho) (hnone .trace), fun other hc => ?_, fun hs => ?_, h.once,
    h.fired_first⟩
  · cases p with
    | service => rfl
    | call other =>
        by_cases ho : other = caller
        · subst ho
          simp [EndAt, setCall, Call.ends] at hp
        · refine absurd ?_ (hopen (.call other))
          simpa only [EndAt, setCall, Function.update_of_ne ho] using hp
    | trace => exact absurd hp (hopen .trace)
  · cases p with
    | service => exact absurd hp id
    | call other =>
        by_cases ho : other = caller
        · rw [ho]
        · refine absurd ?_ (hnone (.call other))
          simpa only [ArmAt, setCall, Function.update_of_ne ho] using hp
    | trace => exact absurd hp (hnone .trace)
  · simp [ArmAt, setCall, Call.arms]
  · by_cases ho : other = caller
    · subst ho
      simp [setCall, Call.cancels] at hc
    · refine absurd (h.cancelled other ?_) (hnone .trace)
      simpa only [setCall, Function.update_of_ne ho] using hc
  · apply h.sent
    rcases hs with ⟨other, hc⟩ | hqueue
    · by_cases ho : other = caller
      · subst ho
        simp [setCall, Call.carries] at hc
      · refine Or.inl ⟨other, ?_⟩
        simpa only [setCall, Function.update_of_ne ho] using hc
    · exact Or.inr hqueue

-- The number is live no more, and nothing else about the timers changes.
theorem live_cancel {service : TimerService π} {seq other : Nat} :
    other ∈ (service.cancel_by_seq seq).1.live_seqs_ ↔
      other ∈ service.live_seqs_ ∧ other ≠ seq := by
  simp only [live_iff_isArmed, isArmed_cancel_by_seq]
  constructor
  · rintro ⟨entry, ⟨harmed, hne⟩, rfl⟩
    exact ⟨⟨entry, harmed, rfl⟩, hne⟩
  · rintro ⟨⟨entry, harmed, rfl⟩, hne⟩
    exact ⟨entry, ⟨harmed, hne⟩, rfl⟩

theorem cancel_record {service : TimerService π} {seq : Nat} {record : TraceRecord}
    (h : (service.cancel_by_seq seq).2 = some record) :
    seq ∈ service.live_seqs_ ∧ record.kind = "timer_cancel" := by
  unfold cancel_by_seq at h
  split_ifs at h with hlive
  · obtain ⟨entry, _, rfl⟩ := Option.map_eq_some_iff.mp h
    exact ⟨hlive, rfl⟩

-- What `fire_due` collects: timers that were live and are not any more, each once.
theorem collected {service : TimerService (Tagged π)} (now : Int)
    (htagged : ∀ entry, service.IsArmed entry → entry.envelope.payload_.timer = some entry.seq) :
    (labels (collect now service.heap_.toList.length service).2).Nodup ∧
      (∀ seq ∈ labels (collect now service.heap_.toList.length service).2,
        seq ∈ service.live_seqs_ ∧
          seq ∉ (collect now service.heap_.toList.length service).1.live_seqs_) ∧
      (collect now service.heap_.toList.length service).1.live_seqs_ ⊆ service.live_seqs_ ∧
      ∀ entry, (collect now service.heap_.toList.length service).1.IsArmed entry →
        service.IsArmed entry := by
  obtain ⟨entries, hrec, _, hnd, hmem, hrest⟩ := collect_spec now _ service le_rfl
  have hlabels : labels (collect now service.heap_.toList.length service).2 =
      entries.map Entry.seq := by
    rw [hrec, labels, List.filterMap_map]
    refine (List.filterMap_congr fun entry he => ?_).trans
      (congrFun List.filterMap_eq_map' entries)
    exact htagged entry ((hmem entry).mp he).1
  rw [hlabels]
  refine ⟨hnd.map_on fun a ha b hb => isArmed_unique ((hmem a).mp ha).1 ((hmem b).mp hb).1,
    fun seq hseq => ?_, fun seq hseq => ?_, fun entry he => ((hrest entry).mp he).1⟩
  · obtain ⟨entry, he, rfl⟩ := List.mem_map.mp hseq
    obtain ⟨harmed, hdue⟩ := (hmem entry).mp he
    refine ⟨harmed.2, fun hlive => ?_⟩
    obtain ⟨other, ho, hsame⟩ := (live_iff_isArmed _ _).mp hlive
    obtain ⟨hold, hlate⟩ := (hrest other).mp ho
    obtain rfl := isArmed_unique hold harmed hsame
    omega
  · obtain ⟨entry, he, rfl⟩ := (live_iff_isArmed _ _).mp hseq
    exact ((hrest entry).mp he).1.2

theorem Invariant.update {call : Call π ι} (h : s.Invariant)
    (hrecorded : ∀ seq, t.Recorded seq) (hcalls : t.calls = Function.update s.calls caller call)
    (hunique : Handle.Unique t.timers)
    (htagged : ∀ entry, t.service.IsArmed entry → entry.envelope.payload_.timer = some entry.seq)
    (hkinded : call.Kinded) (hnodup : call.ends.Nodup) : t.Invariant where
  recorded := hrecorded
  unique := hunique
  tagged := htagged
  kinded := fun other => by
    rw [hcalls, Function.update_apply]
    split_ifs
    · exact hkinded
    · exact h.kinded other
  nodup := fun other => by
    rw [hcalls, Function.update_apply]
    split_ifs
    · exact hnodup
    · exact h.nodup other

omit [DecidableEq τ] in
theorem Invariant.frame (h : s.Invariant) (hcalls : t.calls = s.calls) (htrace : t.trace = s.trace)
    (hservice : ∀ entry, t.service.IsArmed entry → s.service.IsArmed entry)
    (hnext : t.service.next_seq_ = s.service.next_seq_) (hunique : Handle.Unique t.timers)
    (howned : ∀ seq, Handle.Owned t.timers seq → Handle.Owned s.timers seq)
    (hqueue : t.queue_ ⊆ s.queue_) : t.Invariant where
  recorded := fun seq => (h.recorded seq).frame hcalls htrace
    (fun other ho => by
      obtain ⟨entry, he, rfl⟩ := (live_iff_isArmed _ _).mp ho
      exact (hservice entry he).2) hnext (howned seq) hqueue
  unique := hunique
  tagged := fun entry he => h.tagged entry (hservice entry he)
  kinded := fun other => hcalls ▸ h.kinded other
  nodup := fun other => hcalls ▸ h.nodup other

theorem invariant_arm (h : s.Invariant) (hidle : s.calls caller = .outside) {delay : Int}
    {env : Envelope π} {owner_name type_name : String} {dst : ι} {seq : Nat} {record : TraceRecord}
    {service : TimerService (Tagged π)}
    (harm : s.service.arm s.now delay (tagged env (some s.service.next_seq_)) owner_name
      type_name = .ok service (seq, record)) :
    (({ s with service := service } : State π ι τ).setCall caller
      (.arming dst seq record)).Invariant := by
  unfold TimerService.arm at harm
  split_ifs at harm
  simp only [Outcome.ok.injEq, Prod.mk.injEq] at harm
  obtain ⟨rfl, rfl, hrecord⟩ := harm
  have hkind : record.kind = "timer_arm" := hrecord ▸ rfl
  refine h.update (fun seq => ?_) rfl h.unique (fun entry he => ?_) hkind List.nodup_nil
  · by_cases hseq : seq = s.service.next_seq_
    · subst hseq
      exact recorded_fresh (h.recorded _)
    · refine (h.recorded seq).update caller (.arming dst s.service.next_seq_ record) ?_
      refine ⟨rfl, fun hlive => ?_, Nat.le_succ _, fun he => ?_, fun ha => ?_, fun ha => ?_,
        Or.inl rfl, Or.inl, fun hc => ?_, fun hc => ?_, fun env hm he => Or.inr ⟨env, hm, he⟩⟩
      · exact (Finset.mem_insert.mp hlive).resolve_left hseq
      · cases he
      · exact absurd (Option.some.inj ha).symm hseq
      · rw [hidle] at ha
        cases ha
      · cases hc
      · cases hc
  · cases (isArmed_push ..).mp he with
    | inl hnew =>
        subst hnew
        rfl
    | inr hold => exact h.tagged entry hold

theorem invariant_cancelling (h : s.Invariant) (hidle : s.calls caller = .outside)
    [DecidableEq ι] {op : Handle.Op ι} {timers : Handle.Store ι Nat} {seq : Nat}
    (hop : s.timers.apply op = some (timers, some seq)) {record : TraceRecord}
    (hrecord : (s.service.cancel_by_seq seq).2 = some record) :
    (({ s with timers := timers, service := (s.service.cancel_by_seq seq).1 } :
      State π ι τ).setCall caller (.cancelling seq record)).Invariant := by
  obtain ⟨hunique, howned, hreleased⟩ := Handle.apply_owned h.unique hop
  obtain ⟨hlive, hkind⟩ := cancel_record hrecord
  refine h.update (fun other => ?_) rfl hunique (fun entry he => ?_) hkind
    (List.nodup_singleton seq)
  · refine (h.recorded other).update caller (.cancelling seq record) ?_
    refine ⟨rfl, fun ho => ?_, ?_, fun he => ?_, fun ha => ?_, fun ha => ?_, Or.inl rfl,
      fun ho => Or.inl ((howned other).mp ho).1, fun hc => ?_, fun hc => ?_,
      fun env hm he => Or.inr ⟨env, hm, he⟩⟩
    · exact (live_cancel.mp ho).1
    · exact (next_seq_cancel_by_seq ..).ge
    · obtain rfl := List.mem_singleton.mp he
      exact Or.inr ⟨hlive, fun ho => (live_cancel.mp ho).2 rfl⟩
    · cases ha
    · rw [hidle] at ha
      cases ha
    · obtain rfl := Option.some.inj hc
      exact Or.inr ((h.recorded seq).owned (hreleased seq rfl))
    · cases hc
  · exact h.tagged entry ((isArmed_cancel_by_seq ..).mp he).1

theorem invariant_fire_due (h : s.Invariant) (hidle : s.calls caller = .outside) :
    (({ s with service := (collect s.now s.service.heap_.toList.length s.service).1 } :
      State π ι τ).setCall caller
        (nextRecord (collect s.now s.service.heap_.toList.length s.service).2)).Invariant := by
  obtain ⟨hnodup, htaken, hlive, harmed⟩ := collected s.now h.tagged
  refine h.update (fun seq => ?_) rfl h.unique (fun entry he => h.tagged entry (harmed entry he))
    (Call.kinded_nextRecord _) ((Call.ends_nextRecord _).symm ▸ hnodup)
  refine (h.recorded seq).update caller
    (nextRecord (collect s.now s.service.heap_.toList.length s.service).2) ?_
  refine ⟨rfl, fun ho => hlive ho, (collect_frame ..).1.ge, fun he => ?_, fun ha => ?_,
    fun ha => ?_, Or.inl rfl, Or.inl, fun hc => ?_, fun hc => ?_,
    fun env hm he => Or.inr ⟨env, hm, he⟩⟩
  · rw [Call.ends_nextRecord] at he
    exact Or.inr (htaken seq he)
  · rw [Call.arms_nextRecord] at ha
    cases ha
  · rw [hidle] at ha
    cases ha
  · rw [Call.cancels_nextRecord] at hc
    cases hc
  · rw [Call.carries_nextRecord] at hc
    cases hc

-- `arm` returns: its record is out and the `Timer` is there.
theorem invariant_armed [DecidableEq ι] (h : s.Invariant) {dst : ι} {seq : Nat}
    {record : TraceRecord} (hc : s.calls caller = .arming dst seq record)
    {timers : Handle.Store ι Nat} (hadopt : s.timers.adopt dst seq = some timers) :
    ((({ s with timers := timers } : State π ι τ).emit (some seq) record).setCall caller
      .outside).Invariant := by
  have hkind : record.kind = "timer_arm" := by
    have := h.kinded caller
    rwa [hc] at this
  have harms : (s.calls caller).arms = some seq := by rw [hc]; rfl
  have hfresh : ¬Handle.Owned s.timers seq := by
    intro ho
    have hplace := (h.recorded seq).armed (.call caller) .trace harms ((h.recorded seq).owned ho)
    cases hplace
  obtain ⟨hunique, howned⟩ := Handle.adopt_owned h.unique hfresh hadopt
  refine h.update (fun other => ?_) rfl hunique h.tagged trivial List.nodup_nil
  refine (h.recorded other).update caller .outside ?_
  have htraced (he : other = seq) : ∃ traced ∈ s.trace ++ [(⟨some seq, record⟩ : Traced)],
      traced.is "timer_arm" other :=
    ⟨⟨some seq, record⟩, by simp, by rw [he], hkind⟩
  refine ⟨rfl, id, le_rfl, fun he => ?_, fun ha => ?_, fun ha => ?_,
    Or.inr ⟨_, rfl, fun hx => ?_, fun hx => ?_, fun hx => ?_⟩, fun ho => ?_, fun hc => ?_,
    fun hc => ?_, fun env hm he => Or.inr ⟨env, hm, he⟩⟩
  · cases he
  · cases ha
  · rw [harms] at ha
    exact Or.inr (htraced (Option.some.inj ha).symm)
  · simp [Traced.ends, Traced.is, hkind] at hx
  · obtain rfl := Option.some.inj hx.1
    exact ⟨harms, by simp [Call.arms]⟩
  · simp [Traced.is, hkind] at hx
  · cases (howned other).mp ho with
    | inl hold => exact Or.inl hold
    | inr he => exact Or.inr (htraced he)
  · cases hc
  · cases hc

theorem invariant_cancelled (h : s.Invariant) {seq : Nat} {record : TraceRecord}
    (hc : s.calls caller = .cancelling seq record) :
    ((s.emit (some seq) record).setCall caller .outside).Invariant := by
  have hkind : record.kind = "timer_cancel" := by
    have := h.kinded caller
    rwa [hc] at this
  refine h.update (fun other => ?_) rfl h.unique h.tagged trivial List.nodup_nil
  refine (h.recorded other).update caller .outside ?_
  refine ⟨rfl, id, le_rfl, fun he => ?_, fun ha => ?_, fun ha => ?_,
    Or.inr ⟨_, rfl, fun hx => ?_, fun hx => ?_, fun hx => ?_⟩, Or.inl, fun hc => ?_,
    fun hc => ?_, fun env hm he => Or.inr ⟨env, hm, he⟩⟩
  · cases he
  · cases ha
  · rw [hc] at ha
    cases ha
  · have he : seq = other := by
      rcases hx with hx | hx
      · exact Option.some.inj hx.1
      · exact Option.some.inj hx.1
    subst he
    rw [hc]
    exact ⟨List.mem_singleton_self _, List.not_mem_nil⟩
  · simp [Traced.is, hkind] at hx
  · simp [Traced.is, hkind] at hx
  · cases hc
  · cases hc

theorem invariant_fired (h : s.Invariant) {rec : FiringRecord (Tagged π)}
    {rest : List (FiringRecord (Tagged π))} (hc : s.calls caller = .firing rec rest) :
    ((s.emit rec.envelope.payload_.timer (fireTrace rec)).setCall caller
      (.posting rec.envelope rest)).Invariant := by
  have hends : (s.calls caller).ends = labels (rec :: rest) := by rw [hc]; rfl
  have hnodup := hends ▸ h.nodup caller
  have hfire {other : Nat} (hlabel : rec.envelope.payload_.timer = some other) :
      (Traced.mk rec.envelope.payload_.timer (fireTrace rec)).is "timer_fire" other :=
    ⟨hlabel, rfl⟩
  have hsplit {other : Nat} (hlabel : rec.envelope.payload_.timer = some other) :
      labels (rec :: rest) = other :: labels rest := by
    simp [labels, hlabel]
  have hrest : labels rest <:+ labels (rec :: rest) :=
    (List.suffix_cons rec rest).filterMap _
  refine h.update (fun other => ?_) rfl h.unique h.tagged trivial (hnodup.sublist hrest.sublist)
  refine (h.recorded other).update caller (.posting rec.envelope rest) ?_
  refine ⟨rfl, id, le_rfl, fun he => ?_, fun ha => ?_, fun ha => ?_,
    Or.inr ⟨_, rfl, fun hx => ?_, fun hx => ?_, fun hx => ?_⟩, Or.inl, fun hc => ?_,
    fun hlabel => ?_, fun env hm he => Or.inr ⟨env, hm, he⟩⟩
  · rw [hends]
    exact Or.inl (hrest.subset he)
  · cases ha
  · rw [hc] at ha
    cases ha
  · have hlabel : rec.envelope.payload_.timer = some other := by
      rcases hx with hx | hx
      · exact hx.1
      · exact hx.1
    rw [hsplit hlabel] at hnodup hends
    rw [hends]
    exact ⟨List.mem_cons_self, (List.nodup_cons.mp hnodup).1⟩
  · simp [Traced.is, fireTrace] at hx
  · simp [Traced.is, fireTrace] at hx
  · cases hc
  · exact Or.inr ⟨_, List.mem_append_right _ (List.mem_singleton_self _), hfire hlabel⟩

theorem invariant_posted (h : s.Invariant) {env : Envelope (Tagged π)}
    {rest : List (FiringRecord (Tagged π))} (hc : s.calls caller = .posting env rest) :
    ((s.push env).setCall caller (nextRecord rest)).Invariant := by
  have hends : (s.calls caller).ends = labels rest := by rw [hc]; rfl
  have hframe : (s.push env).service = s.service ∧ (s.push env).timers = s.timers ∧
      (s.push env).calls = s.calls ∧ (s.push env).trace = s.trace ∧
      ∀ other ∈ (s.push env).queue_, other ∈ s.queue_ ∨ other = env := by
    unfold push
    split_ifs
    · exact ⟨rfl, rfl, rfl, rfl, fun _ => Or.inl⟩
    · refine ⟨rfl, rfl, rfl, rfl, fun other hm => ?_⟩
      simpa using hm
  obtain ⟨hservice, htimers, hcalls, htrace, hqueue⟩ := hframe
  have hupdate : ((s.push env).setCall caller (nextRecord rest)).calls =
      Function.update s.calls caller (nextRecord rest) := by
    simp only [setCall, hcalls]
  refine h.update (fun other => ?_) hupdate (htimers.symm ▸ h.unique)
    (fun entry he => h.tagged entry (hservice ▸ he)) (Call.kinded_nextRecord _)
    ((Call.ends_nextRecord rest).symm ▸ hends ▸ h.nodup caller)
  refine (h.recorded other).update caller (nextRecord rest) ?_
  refine ⟨hupdate, fun ho => hservice ▸ ho, hservice.symm ▸ le_rfl, fun he => ?_, fun ha => ?_,
    fun ha => ?_, Or.inl htrace, fun ho => Or.inl (htimers ▸ ho), fun hc => ?_, fun hc => ?_,
    fun new hm hlabel => ?_⟩
  · rw [Call.ends_nextRecord] at he
    exact Or.inl (hends ▸ he)
  · rw [Call.arms_nextRecord] at ha
    cases ha
  · rw [hc] at ha
    cases ha
  · rw [Call.cancels_nextRecord] at hc
    cases hc
  · rw [Call.carries_nextRecord] at hc
    cases hc
  · rcases hqueue new hm with hold | rfl
    · exact Or.inr ⟨new, hold, hlabel⟩
    · refine Or.inl ⟨caller, ?_⟩
      rw [hc]
      exact hlabel

theorem invariant_dispatched (h : s.Invariant) {names : Names} {env : Envelope (Tagged π)}
    (hc : s.calls caller = .dispatching env) :
    ((s.emit env.payload_.timer (dispatchTrace names env)).setCall caller .outside).Invariant := by
  refine h.update (fun other => ?_) rfl h.unique h.tagged trivial List.nodup_nil
  refine (h.recorded other).update caller .outside ?_
  refine ⟨rfl, id, le_rfl, fun he => ?_, fun ha => ?_, fun ha => ?_,
    Or.inr ⟨_, rfl, fun hx => ?_, fun hx => ?_, fun hx => ?_⟩, Or.inl, fun hc => ?_,
    fun hc => ?_, fun env hm he => Or.inr ⟨env, hm, he⟩⟩
  · cases he
  · cases ha
  · rw [hc] at ha
    cases ha
  · simp [Traced.ends, Traced.is, dispatchTrace] at hx
  · simp [Traced.is, dispatchTrace] at hx
  · refine Or.inl ⟨caller, ?_⟩
    rw [hc]
    exact hx.1
  · cases hc
  · cases hc

-- A thread that was outside takes an envelope in hand.
theorem invariant_taken (h : s.Invariant) (hidle : s.calls caller = .outside)
    {queue : List (Envelope (Tagged π))} (hqueue : queue ⊆ s.queue_) {call : Call π ι}
    (hends : call.ends = []) (harms : call.arms = none) (hcancels : call.cancels = none)
    (hkinded : call.Kinded) (hcarries : ∀ seq, call.carries = some seq → s.Sent seq) :
    (({ s with queue_ := queue } : State π ι τ).setCall caller call).Invariant := by
  refine h.update (fun other => ?_) rfl h.unique h.tagged hkinded (hends ▸ List.nodup_nil)
  refine (h.recorded other).update caller call ?_
  refine ⟨rfl, id, le_rfl, fun he => ?_, fun ha => ?_, fun ha => ?_, Or.inl rfl, Or.inl,
    fun hc => ?_, fun hc => Or.inl (hcarries other hc),
    fun env hm he => Or.inr ⟨env, hqueue hm, he⟩⟩
  · rw [hends] at he
    cases he
  · rw [harms] at ha
    cases ha
  · rw [hidle] at ha
    cases ha
  · rw [hcancels] at hc
    cases hc

omit [DecidableEq τ] in
theorem invariant_init : (init : State π ι τ).Invariant where
  recorded := fun seq => by
    have hend (p : Place τ) : ¬(init : State π ι τ).EndAt seq p := by
      cases p <;> simp [EndAt, init, TimerService.init, Call.ends]
    have harm (p : Place τ) : ¬(init : State π ι τ).ArmAt seq p := by
      cases p <;> simp [ArmAt, init, Call.arms]
    refine ⟨.absent hend, .absent harm, fun p hp => absurd hp (hend p),
      fun p hp => absurd hp (harm p), fun ho => ?_, fun caller hc => ?_, fun hs => ?_,
      Nat.zero_le _, preceded_nil⟩
    · obtain ⟨i, hi⟩ := ho
      cases hi
    · cases hc
    · rcases hs with ⟨caller, hc⟩ | ⟨env, hm, _⟩
      · cases hc
      · cases hm
  unique := fun i j key hi => by cases hi
  tagged := fun entry he => absurd he (isArmed_init entry)
  kinded := fun _ => trivial
  nodup := fun _ => List.nodup_nil

variable [DecidableEq ι] {names : Names}

theorem invariant_advance (h : s.Invariant) (hs : s.advance names caller = some t) :
    t.Invariant := by
  unfold advance at hs
  split at hs
  · cases hs
  · rename_i dst seq record hc
    obtain ⟨timers, hadopt, rfl⟩ := Option.map_eq_some_iff.mp hs
    exact invariant_armed h hc hadopt
  · rename_i seq record hc
    obtain rfl := Option.some.inj hs
    exact invariant_cancelled h hc
  · rename_i rec rest hc
    obtain rfl := Option.some.inj hs
    exact invariant_fired h hc
  · rename_i env rest hc
    obtain rfl := Option.some.inj hs
    exact invariant_posted h hc
  · rename_i env hc
    obtain rfl := Option.some.inj hs
    exact invariant_dispatched h hc

theorem invariant_handle (h : s.Invariant) (hidle : s.calls caller = .outside) {op : Handle.Op ι}
    (hs : s.begin_handle caller op = some t) : t.Invariant := by
  unfold begin_handle at hs
  split at hs
  · cases hs
  · rename_i timers hop
    obtain rfl := Option.some.inj hs
    obtain ⟨hunique, howned, _⟩ := Handle.apply_owned h.unique hop
    exact h.frame rfl rfl (fun _ he => he) rfl hunique (fun seq ho => ((howned seq).mp ho).1)
      (List.Subset.refl _)
  · rename_i timers seq hop
    simp only at hs
    split at hs
    · -- The timer had fired or been cleared.
      obtain rfl := Option.some.inj hs
      obtain ⟨hunique, howned, _⟩ := Handle.apply_owned h.unique hop
      exact h.frame rfl rfl (fun entry he => ((isArmed_cancel_by_seq ..).mp he).1)
        (next_seq_cancel_by_seq ..) hunique (fun other ho => ((howned other).mp ho).1)
        (List.Subset.refl _)
    · rename_i record hrecord
      obtain rfl := Option.some.inj hs
      exact invariant_cancelling h hidle hop hrecord

theorem invariant_step (h : s.Invariant) {event : Event π ι τ}
    (hs : s.step names event = some t) : t.Invariant := by
  cases event with
  | tick now =>
      simp only [step] at hs
      split_ifs at hs
      obtain rfl := Option.some.inj hs
      exact h.frame rfl rfl (fun _ he => he) rfl h.unique (fun _ ho => ho) (List.Subset.refl _)
  | bind_post =>
      obtain rfl := Option.some.inj hs
      exact h.frame rfl rfl (fun _ he => he) rfl h.unique (fun _ ho => ho) (List.Subset.refl _)
  | clear =>
      obtain rfl := Option.some.inj hs
      exact h.frame rfl rfl (fun entry he => absurd he (isArmed_clear s.service entry)) rfl
        h.unique (fun _ ho => ho) (List.Subset.refl _)
  | set_stop requested =>
      obtain rfl := Option.some.inj hs
      exact h.frame rfl rfl (fun _ he => he) rfl h.unique (fun _ ho => ho) (List.Subset.refl _)
  | discard =>
      obtain rfl := Option.some.inj hs
      exact h.frame rfl rfl (fun _ he => he) rfl h.unique (fun _ ho => ho) (List.nil_subset _)
  | arm caller dst delay env owner_name type_name =>
      simp only [step] at hs
      split_ifs at hs with hidle
      split at hs
      · cases hs
      · rename_i service seq record harm
        obtain rfl := Option.some.inj hs
        exact invariant_arm h (idle_outside hidle) harm
  | handle caller op =>
      simp only [step] at hs
      split_ifs at hs with hidle
      exact invariant_handle h (idle_outside hidle) hs
  | fire_due caller =>
      simp only [step, TimerService.fire_due] at hs
      split_ifs at hs with hidle
      obtain rfl := Option.some.inj hs
      exact invariant_fire_due h (idle_outside hidle)
  | post caller env =>
      simp only [step] at hs
      split_ifs at hs with hidle
      obtain rfl := Option.some.inj hs
      exact invariant_taken h (idle_outside hidle) (List.Subset.refl _) rfl rfl rfl trivial
        fun seq hc => by cases hc
  | take caller =>
      simp only [step] at hs
      split_ifs at hs with hidle
      split at hs
      · cases hs
      · rename_i env queue hqueue
        obtain rfl := Option.some.inj hs
        refine invariant_taken h (idle_outside hidle) ?_ rfl rfl rfl trivial fun seq hc => ?_
        · exact hqueue ▸ List.subset_cons_self env queue
        · exact Or.inr ⟨env, hqueue ▸ List.mem_cons_self, hc⟩
  | advance caller => exact invariant_advance h hs

-- The arming of each timer is recorded before its end.
def ArmedFirst (trace : List Traced) : Prop :=
  ∀ seq, Preceded (fun traced => traced.is "timer_arm" seq) (fun traced => traced.ends seq) trace

omit [DecidableEq τ] [DecidableEq ι] in
theorem causal_iff_armedFirst (h : s.Invariant) :
    (∀ seq, Causal s.trace seq) ↔ ArmedFirst s.trace :=
  ⟨fun hc seq => (hc seq).armed_first,
    fun ha seq => ⟨(h.recorded seq).once, ha seq, (h.recorded seq).fired_first⟩⟩

omit [DecidableEq τ] [DecidableEq ι] in
theorem armedFirst_emit (timer : Option Nat) (record : TraceRecord) :
    ArmedFirst (s.emit timer record).trace ↔ ArmedFirst s.trace ∧
      ∀ seq, (Traced.mk timer record).ends seq → s.ArmAt seq .trace := by
  unfold ArmedFirst
  simp only [emit, preceded_concat, forall_and]
  rfl

omit [DecidableEq τ] [DecidableEq ι] in
-- A timer that is to be recorded as fired has been recorded as armed, or its `arm` is
-- still to do so.
theorem armed_trace_iff (h : s.Recorded seq) (caller : τ) (he : seq ∈ (s.calls caller).ends) :
    s.ArmAt seq .trace ↔ ∀ other, (s.calls other).arms ≠ some seq := by
  constructor
  · intro ha other harms
    have hplace := h.armed (.call other) .trace harms ha
    cases hplace
  · intro hnone
    obtain ⟨q, hq⟩ := h.known (.call caller) he
    cases q with
    | service => exact absurd hq id
    | call other => exact absurd hq (hnone other)
    | trace => exact hq

theorem armedFirst_advance (h : s.Invariant) (hs : s.advance names caller = some t) :
    ArmedFirst t.trace ↔ ArmedFirst s.trace ∧ s.OnTime (.advance caller : Event π ι τ) := by
  unfold advance at hs
  split at hs
  · cases hs
  · rename_i dst seq record hc
    obtain ⟨timers, _, rfl⟩ := Option.map_eq_some_iff.mp hs
    have hkind : record.kind = "timer_arm" := by
      have := h.kinded caller
      rwa [hc] at this
    refine (armedFirst_emit (some seq) record).trans ?_
    simp [OnTime, hc, Traced.ends, Traced.is, hkind]
  · rename_i seq record hc
    obtain rfl := Option.some.inj hs
    refine (armedFirst_emit (some seq) record).trans ?_
    simp only [OnTime, hc, and_true, and_iff_left_iff_imp]
    intro _ other hx
    have he : seq = other := by
      rcases hx with hx | hx
      · exact Option.some.inj hx.1
      · exact Option.some.inj hx.1
    subst he
    exact (h.recorded seq).cancelled caller (by rw [hc]; rfl)
  · rename_i rec rest hc
    obtain rfl := Option.some.inj hs
    refine (armedFirst_emit rec.envelope.payload_.timer (fireTrace rec)).trans ?_
    simp only [OnTime, hc]
    refine and_congr_right fun _ => forall_congr' fun seq => ?_
    have hends : (Traced.mk rec.envelope.payload_.timer (fireTrace rec)).ends seq ↔
        seq ∈ rec.envelope.payload_.timer := by
      simp [Traced.ends, Traced.is, fireTrace, Option.mem_def]
    rw [hends]
    refine forall_congr' fun hlabel => armed_trace_iff (h.recorded seq) caller ?_
    rw [hc]
    exact List.mem_filterMap.mpr ⟨rec, List.mem_cons_self, hlabel⟩
  · rename_i env rest hc
    obtain rfl := Option.some.inj hs
    have htrace : (s.push env).trace = s.trace := by
      unfold push
      split_ifs <;> rfl
    simp only [OnTime, hc, and_true]
    exact iff_of_eq (congrArg ArmedFirst htrace)
  · rename_i env hc
    obtain rfl := Option.some.inj hs
    refine (armedFirst_emit env.payload_.timer (dispatchTrace names env)).trans ?_
    simp [OnTime, hc, Traced.ends, Traced.is, dispatchTrace]

-- Only `advance` emits records.
theorem trace_step {event : Event π ι τ} (hs : s.step names event = some t) :
    t.trace = s.trace ∧ s.OnTime event ∨ ∃ caller, event = .advance caller := by
  cases event with
  | tick now =>
      simp only [step] at hs
      split_ifs at hs
      exact Or.inl ⟨Option.some.inj hs ▸ rfl, trivial⟩
  | bind_post | clear | set_stop | discard => exact Or.inl ⟨Option.some.inj hs ▸ rfl, trivial⟩
  | arm caller =>
      simp only [step] at hs
      split_ifs at hs
      split at hs
      · cases hs
      · exact Or.inl ⟨Option.some.inj hs ▸ rfl, trivial⟩
  | handle caller op =>
      simp only [step, begin_handle] at hs
      split_ifs at hs
      split at hs
      · cases hs
      · exact Or.inl ⟨Option.some.inj hs ▸ rfl, trivial⟩
      · split at hs
        · exact Or.inl ⟨Option.some.inj hs ▸ rfl, trivial⟩
        · exact Or.inl ⟨Option.some.inj hs ▸ rfl, trivial⟩
  | fire_due caller =>
      simp only [step] at hs
      split_ifs at hs
      split at hs
      · cases hs
      · exact Or.inl ⟨Option.some.inj hs ▸ rfl, trivial⟩
  | post caller env =>
      simp only [step] at hs
      split_ifs at hs
      exact Or.inl ⟨Option.some.inj hs ▸ rfl, trivial⟩
  | take caller =>
      simp only [step] at hs
      split_ifs at hs
      split at hs
      · cases hs
      · exact Or.inl ⟨Option.some.inj hs ▸ rfl, trivial⟩
  | advance caller => exact Or.inr ⟨caller, rfl⟩

theorem armedFirst_step (h : s.Invariant) {event : Event π ι τ}
    (hs : s.step names event = some t) :
    ArmedFirst t.trace ↔ ArmedFirst s.trace ∧ s.OnTime event := by
  obtain ⟨htrace, htime⟩ | ⟨caller, rfl⟩ := trace_step hs
  · rw [htrace]
    exact (and_iff_left htime).symm
  · exact armedFirst_advance h hs

-- The trace of a run is in causal order exactly if no thread records that a timer
-- fired while the thread that armed it has still to record that.
theorem causal_iff_onTime {events : List (Event π ι τ)}
    (hr : (machine π ι τ names).run init events = some s) :
    (∀ seq, Causal s.trace seq) ↔ (machine π ι τ names).Meets OnTime init events := by
  have hstep (u : State π ι τ) (event : Event π ι τ) (v : State π ι τ) (hi : u.Invariant)
      (hs : (machine π ι τ names).step u event = some v) : v.Invariant := invariant_step hi hs
  have hinv : s.Invariant := Machine.run_invariant hstep invariant_init hr
  rw [causal_iff_armedFirst hinv, Machine.run_iff_meets (P := fun u => ArmedFirst u.trace) hstep
    (fun _ _ _ hi hs => armedFirst_step hi hs) invariant_init hr]
  exact and_iff_right fun seq => preceded_nil

def noNames : Names := ⟨fun _ => "-", fun _ => "-", fun _ _ => "-"⟩

-- One thread arms two timers and cancels one of them; another lets the other fire.
def orderlyRun : List (Event Nat Nat Bool) :=
  [.bind_post, .arm true 0 5 ⟨0, 1, 2, 10⟩ "M" "T", .advance true,
    .arm true 1 9 ⟨0, 1, 2, 11⟩ "M" "T", .advance true, .tick 6, .fire_due false,
    .handle true (.reset 1), .advance true, .advance false, .advance false, .take true,
    .advance true]

theorem causal_orderlyRun :
    ∃ s, (machine Nat Nat Bool noNames).run init orderlyRun = some s ∧
      s.trace.map (fun traced => (traced.timer, traced.record.kind)) =
        [(some 1, "timer_arm"), (some 2, "timer_arm"), (some 2, "timer_cancel"),
          (some 1, "timer_fire"), (some 1, "envelope")] ∧
      ∀ seq, Causal s.trace seq := by
  have hrun : ((machine Nat Nat Bool noNames).run init orderlyRun).map
      (fun s => s.trace.map fun traced => (traced.timer, traced.record.kind)) =
        some [(some 1, "timer_arm"), (some 2, "timer_arm"), (some 2, "timer_cancel"),
          (some 1, "timer_fire"), (some 1, "envelope")] := by
    decide +kernel
  obtain ⟨s, hs, htrace⟩ := Option.map_eq_some_iff.mp hrun
  exact ⟨s, hs, htrace, (causal_iff_onTime hs).mpr (by decide +kernel)⟩

-- A timer without delay fires before the thread that armed it comes to its record.
theorem not_always_causal :
    ¬∀ (events : List (Event Unit Unit Bool)) (s : State Unit Unit Bool),
      (machine Unit Unit Bool noNames).run init events = some s → ∀ seq, Causal s.trace seq := by
  intro hall
  have hrun : ((machine Unit Unit Bool noNames).run init
      [.bind_post, .arm true () 0 ⟨0, 1, 2, ()⟩ "M" "T", .fire_due false, .advance false]).map
        (fun s => s.trace.map fun traced => (traced.timer, traced.record.kind)) =
          some [(some 1, "timer_fire")] := by
    decide +kernel
  obtain ⟨s, hs, htrace⟩ := Option.map_eq_some_iff.mp hrun
  obtain ⟨traced, rest, hcons, hfirst, _⟩ := List.map_eq_cons_iff.mp htrace
  obtain ⟨htimer, hkind⟩ := Prod.mk.inj hfirst
  obtain ⟨_, hbefore, _⟩ := (hall _ s hs 1).armed_first [] traced rest hcons
    (Or.inl ⟨htimer, hkind⟩)
  exact absurd hbefore List.not_mem_nil

end State

end Tracing

end CortexFlow
