import CortexFlow.App.Atomic

namespace CortexFlow

namespace Atomic

open Lib Cache

section Timed

variable {π ρ ι : Type*}

-- The timers of the service are those that the objects hold, and each goes off no
-- earlier than its code could tell. `f` wraps a payload for the queue.
structure Timed (f : π → ρ) (held : ι → Option Nat) (service : TimerService ρ) (now : Int)
    (timers : ι → Option (Armed π)) : Prop where
  armed : ∀ dst armed, timers dst = some armed → ∃ entry, service.IsArmed entry ∧
    held dst = some entry.seq ∧ entry.envelope = armed.env.map f ∧
    (armed.since + armed.delay ≤ entry.due ∨ 2 ^ 63 ≤ now + armed.delay)
  owned : ∀ entry, service.IsArmed entry →
    ∃ dst armed, timers dst = some armed ∧ held dst = some entry.seq
  apart : ∀ dst other seq, held dst = some seq → held other = some seq → dst = other
  used : ∀ dst seq, held dst = some seq → seq < service.next_seq_
  bound : ∀ entry, service.IsArmed entry → service.post_bound = true

variable {f : π → ρ} {held : ι → Option Nat} {service : TimerService ρ} {now : Int}
  {timers : ι → Option (Armed π)}

theorem timed_init : Timed f (fun _ => none) (.init : TimerService ρ) now
    (fun _ : ι => (none : Option (Armed π))) where
  armed := fun _ _ => nofun
  owned := fun entry he => absurd he (TimerService.isArmed_init entry)
  apart := fun _ _ _ => nofun
  used := fun _ _ => nofun
  bound := fun entry he => absurd he (TimerService.isArmed_init entry)

theorem Timed.later (h : Timed f held service now timers) {later : Int} (hle : now ≤ later) :
    Timed f held service later timers := by
  refine ⟨fun dst armed hdst => ?_, h.owned, h.apart, h.used, h.bound⟩
  obtain ⟨entry, he, hseq, henv, hdue⟩ := h.armed dst armed hdst
  exact ⟨entry, he, hseq, henv, hdue.imp_right fun hlate => by omega⟩

-- The service binds its post sink, or is replaced by one with the same timers.
theorem Timed.rebound (h : Timed f held service now timers) :
    Timed f held service.bind_post now timers where
  armed := h.armed
  owned := h.owned
  apart := h.apart
  used := h.used
  bound := fun _ _ => rfl

theorem Timed.clear (h : Timed f held service now timers) :
    Timed f held service.clear now (fun _ => none) where
  armed := fun _ _ => nofun
  owned := fun entry he => absurd he (TimerService.isArmed_clear service entry)
  apart := h.apart
  used := h.used
  bound := fun entry he => absurd he (TimerService.isArmed_clear service entry)

variable [DecidableEq ι]

-- The due time as the service stores it, unless it has overflown.
theorem due_of_arm {since now delay : Int} (h0 : 0 ≤ now) (hd : 0 ≤ delay) (hs : since ≤ now) :
    since + delay ≤ wrapTicks (now + delay) ∨ 2 ^ 63 ≤ now + delay := by
  by_cases hlate : 2 ^ 63 ≤ now + delay
  · exact Or.inr hlate
  · have hrep : Representable (now + delay) := ⟨by omega, by omega⟩
    rw [wrapTicks_of_representable hrep]
    exact Or.inl (by omega)

theorem Timed.arm (h : Timed f held service now timers) {dst : ι} (hfree : timers dst = none)
    {since delay : Int} (hnow : 0 ≤ now) (hd : 0 ≤ delay) (hs : since ≤ now)
    (hb : service.post_bound = true) (env : Envelope π) (owner_name type_name : String) :
    Timed f (Function.update held dst (some service.next_seq_))
      (service.push (wrapTicks (now + delay)) (env.map f) owner_name type_name) now
      (Function.update timers dst (some ⟨since, delay, env⟩)) := by
  have hpush := TimerService.isArmed_push service (wrapTicks (now + delay)) (env.map f) owner_name
    type_name
  have hother {other : ι} {seq : Nat} (hseq : held other = some seq)
      (hlive : ∃ armed, timers other = some armed) :
      Function.update held dst (some service.next_seq_) other = some seq := by
    obtain ⟨armed, harmed⟩ := hlive
    rwa [Function.update_of_ne]
    rintro rfl
    exact nomatch hfree.symm.trans harmed
  refine ⟨fun other armed harmed => ?_, fun entry he => ?_, fun one other seq hone hother => ?_,
    fun other seq hseq => ?_, fun _ _ => hb⟩
  · by_cases ho : other = dst
    · subst ho
      rw [Function.update_self] at harmed
      obtain rfl := Option.some.inj harmed
      refine ⟨_, (hpush _).mpr (Or.inl rfl), Function.update_self .., rfl, ?_⟩
      exact due_of_arm hnow hd hs
    · rw [Function.update_of_ne ho] at harmed
      obtain ⟨entry, he, hseq, hrest⟩ := h.armed other armed harmed
      exact ⟨entry, (hpush entry).mpr (Or.inr he), hother hseq ⟨armed, harmed⟩, hrest⟩
  · cases (hpush entry).mp he with
    | inl hnew =>
        subst hnew
        exact ⟨dst, _, Function.update_self .., Function.update_self ..⟩
    | inr hold =>
        obtain ⟨other, armed, harmed, hseq⟩ := h.owned entry hold
        refine ⟨other, armed, ?_, hother hseq ⟨armed, harmed⟩⟩
        rwa [Function.update_of_ne]
        rintro rfl
        exact nomatch hfree.symm.trans harmed
  · simp only [Function.update_apply] at hone hother
    split_ifs at hone hother with h1 h2 h2
    · exact h1.trans h2.symm
    · obtain rfl := Option.some.inj hone
      exact absurd (h.used other _ hother) (Nat.lt_irrefl _)
    · obtain rfl := Option.some.inj hother
      exact absurd (h.used one _ hone) (Nat.lt_irrefl _)
    · exact h.apart one other seq hone hother
  · simp only [Function.update_apply] at hseq
    split_ifs at hseq with ho
    · exact Option.some.inj hseq ▸ Nat.lt_succ_self _
    · exact (h.used other seq hseq).trans (Nat.lt_succ_self _)

-- A `Timer` object without a timer stands for none that is armed.
theorem Timed.cancel_none (h : Timed f held service now timers) {dst : ι} (hd : held dst = none) :
    Function.update timers dst none = timers := by
  refine Function.update_eq_self_iff.mpr ?_
  cases ht : timers dst with
  | none => rfl
  | some armed =>
      obtain ⟨_, _, hseq, _⟩ := h.armed dst armed ht
      exact nomatch hd.symm.trans hseq

theorem Timed.cancel (h : Timed f held service now timers) {dst : ι} {seq : Nat}
    (hd : held dst = some seq) :
    Timed f (Function.update held dst none) (service.cancel_by_seq seq).1 now
      (Function.update timers dst none) := by
  have hcancel := TimerService.isArmed_cancel_by_seq service seq
  refine ⟨fun other armed harmed => ?_, fun entry he => ?_, fun one other number hone hother => ?_,
    fun other number hnumber => ?_, fun entry he => ?_⟩
  · by_cases ho : other = dst
    · subst ho
      rw [Function.update_self] at harmed
      exact nomatch harmed
    · rw [Function.update_of_ne ho] at harmed
      obtain ⟨entry, he, hseq, hrest⟩ := h.armed other armed harmed
      refine ⟨entry, (hcancel entry).mpr ⟨he, ?_⟩, by rwa [Function.update_of_ne ho], hrest⟩
      rintro rfl
      exact ho (h.apart other dst _ hseq hd)
  · obtain ⟨hold, hne⟩ := (hcancel entry).mp he
    obtain ⟨other, armed, harmed, hseq⟩ := h.owned entry hold
    have ho : other ≠ dst := by
      rintro rfl
      exact hne (Option.some.inj (hseq.symm.trans hd))
    exact ⟨other, armed, by rwa [Function.update_of_ne ho], by rwa [Function.update_of_ne ho]⟩
  · simp only [Function.update_apply] at hone hother
    split_ifs at hone hother with h1 h2
    exact h.apart one other number hone hother
  · simp only [Function.update_apply] at hnumber
    split_ifs at hnumber with ho
    rw [TimerService.next_seq_cancel_by_seq]
    exact h.used other number hnumber
  · rw [TimerService.post_bound_cancel_by_seq]
    exact h.bound entry ((hcancel entry).mp he).1

-- What goes off are timers that objects hold and whose time has come.
theorem Timed.fire (h : Timed f held service now timers) :
    ∃ (collected : TimerService ρ) (records : List (TimerService.FiringRecord ρ))
      (fired : List (ι × Armed π)), service.fire_due now = .ok collected records ∧
      (fired.map Prod.fst).Nodup ∧
      (∀ timer ∈ fired, timers timer.1 = some timer.2 ∧ timer.2.due now) ∧
      records.map TimerService.FiringRecord.envelope =
        fired.map (fun timer => timer.2.env.map f) ∧
      collected.post_bound = service.post_bound ∧
      Timed f held collected now fun dst =>
        if dst ∈ fired.map Prod.fst then none else timers dst := by
  obtain ⟨entries, hrecords, _, hnodup, hmem, hstay⟩ :=
    TimerService.collect_spec now service.heap_.toList.length service le_rfl
  obtain ⟨hnext, hbound⟩ := TimerService.collect_frame now service.heap_.toList.length service
  -- Each entry that is collected belongs to one object.
  have hholder : ∀ entry : { entry // service.IsArmed entry }, ∃ timer : ι × Armed π,
      timers timer.1 = some timer.2 ∧ held timer.1 = some entry.1.seq := by
    intro entry
    obtain ⟨dst, armed, hdst⟩ := h.owned entry.1 entry.2
    exact ⟨(dst, armed), hdst⟩
  choose holder hholder using hholder
  have harmed : ∀ entry ∈ entries, service.IsArmed entry := fun entry he => ((hmem entry).mp he).1
  have hentry (entry : { entry // service.IsArmed entry }) :
      entry.1.envelope = (holder entry).2.env.map f ∧
        ((holder entry).2.since + (holder entry).2.delay ≤ entry.1.due ∨
          2 ^ 63 ≤ now + (holder entry).2.delay) := by
    obtain ⟨other, ho, hseq, henv⟩ := h.armed _ _ (hholder entry).1
    have heq := Option.some.inj (hseq.symm.trans (hholder entry).2)
    exact TimerService.isArmed_unique ho entry.2 heq ▸ henv
  have hfst (dst : ι) : dst ∈ ((entries.pmap (fun entry he => holder ⟨entry, he⟩) harmed).map
      Prod.fst) ↔ ∃ entry ∈ entries, held dst = some entry.seq := by
    simp only [List.mem_map, List.mem_pmap]
    constructor
    · rintro ⟨_, ⟨entry, he, rfl⟩, rfl⟩
      exact ⟨entry, he, (hholder _).2⟩
    · rintro ⟨entry, he, hseq⟩
      exact ⟨_, ⟨entry, he, rfl⟩, h.apart _ _ _ (hholder ⟨entry, harmed entry he⟩).2 hseq⟩
  refine ⟨_, _, entries.pmap (fun entry he => holder ⟨entry, he⟩) harmed, if_neg ?_, ?_, ?_, ?_,
    hbound, ?_, ?_, h.apart, ?_, ?_⟩
  · rintro ⟨hne, hunbound⟩
    rw [hrecords] at hne
    obtain ⟨entry, he⟩ := List.exists_mem_of_ne_nil entries (by simpa using hne)
    rw [h.bound entry (harmed entry he)] at hunbound
    exact nomatch hunbound
  · have hseqs : (entries.map fun entry => some entry.seq).Nodup := by
      refine hnodup.map_on fun one hone other hother heq => ?_
      exact TimerService.isArmed_unique (harmed one hone) (harmed other hother)
        (Option.some.inj heq)
    refine List.Nodup.of_map held ?_
    rw [List.map_map, List.map_pmap]
    convert hseqs using 1
    rw [← List.pmap_eq_map harmed]
    exact List.pmap_congr_left _ fun entry _ he _ => (hholder ⟨entry, he⟩).2
  · intro timer htimer
    obtain ⟨entry, he, rfl⟩ := List.mem_pmap.mp htimer
    have hdue := ((hmem entry).mp he).2
    refine ⟨(hholder _).1, (hentry ⟨entry, harmed entry he⟩).2.imp_left fun hle => ?_⟩
    exact hle.trans hdue
  · rw [hrecords, List.map_map, List.map_pmap, ← List.pmap_eq_map harmed]
    exact List.pmap_congr_left _ fun entry _ he _ => (hentry ⟨entry, he⟩).1
  · intro dst armed hdst
    split_ifs at hdst with hfired
    obtain ⟨entry, he, hseq, hrest⟩ := h.armed dst armed hdst
    refine ⟨entry, (hstay entry).mpr ⟨he, ?_⟩, hseq, hrest⟩
    by_contra hlate
    exact hfired ((hfst dst).mpr ⟨entry, (hmem entry).mpr ⟨he, by omega⟩, hseq⟩)
  · intro entry he
    obtain ⟨hold, hlate⟩ := (hstay entry).mp he
    obtain ⟨dst, armed, hdst, hseq⟩ := h.owned entry hold
    refine ⟨dst, armed, (if_neg fun hfired => ?_).trans hdst, hseq⟩
    obtain ⟨other, ho, hsame⟩ := (hfst dst).mp hfired
    have heq := TimerService.isArmed_unique (harmed other ho) hold
      (Option.some.inj (hsame.symm.trans hseq))
    have := ((hmem other).mp ho).2
    rw [heq] at this
    omega
  · intro dst seq hseq
    rw [hnext]
    exact h.used dst seq hseq
  · intro entry he
    rw [hbound]
    exact h.bound entry ((hstay entry).mp he).1

end Timed

variable {κ : Type*} {V : κ → Type*} {π τ : Type*} {n : Nat} {ι M : Type*}

-- The world as it stands, before what the code of the module has still to do.
structure Mirrors (s : App.State V π τ n ι M) (w : World V π ι) : Prop where
  slots : w.slots = s.cached.cache.slots_
  registry : w.registry = s.cached.cache.session.registry
  session : s.cached.cache.session.Invariant
  outbox : w.outbox = (s.cached.runtime.calls .loop).envelopes
  timed : Timed .other s.timers s.cached.runtime.timers_ s.cached.runtime.now w.timers
  bound : s.cached.runtime.cache_ = true →
    s.cached.cache.post_bound = true ∧ s.cached.runtime.timers_.post_bound = true

-- A request leaves alone what is not its own.
structure Performed (s t : App.State V π τ n ι M) : Prop where
  objects : t.objects = s.objects
  ledger : t.cached.runtime.toLedger = s.cached.runtime.toLedger
  stage : t.cached.runtime.toStage = s.cached.runtime.toStage
  pc : t.cached.runtime.pc = s.cached.runtime.pc
  now : t.cached.runtime.now = s.cached.runtime.now
  foreign : ∀ thread, t.cached.runtime.calls (.foreign thread) =
    s.cached.runtime.calls (.foreign thread)

section Session

variable [DecidableEq ι]

theorem session_handle {s : Session n ι} (h : s.Invariant) {op : Handle.Op ι}
    {r : Registry type_id_t ι} (hr : s.registry.step n (.handle op) = some r) :
    ∃ t, s.step (.handle op) = some t ∧ t.registry = r ∧ t.Invariant := by
  have hsome : ∃ t, s.step (.handle op) = some t := by
    simp only [Session.step]
    cases ha : s.handles.apply op with
    | none =>
        have hmap := Handle.apply_map s.registered_at s.handles op
        simp only [Registry.step, Session.registry, hmap, ha, Option.map_none] at hr
        cases hr
    | some result =>
        obtain ⟨handles, released⟩ := result
        cases released with
        | none => exact ⟨_, rfl⟩
        | some slot =>
            simp only [Pool.release_slot_ok h.wellFormed (Session.release_ok h ha)]
            exact ⟨_, rfl⟩
  obtain ⟨t, ht⟩ := hsome
  refine ⟨t, ht, ?_, Session.step_invariant h ht⟩
  exact Option.some.inj ((Session.registry_step h ht).symm.trans hr)

theorem session_subscribe {s : Session n ι} (h : s.Invariant) {dst : ι} (key : String)
    {key_type_id subscriber_id : type_id_t} {r : Registry type_id_t ι}
    (hlt : s.registry.live.length < n)
    (hr : s.registry.step n (.subscribe dst key_type_id subscriber_id) = some r) :
    (∃ pool slot, s.pool.subscribe key key_type_id subscriber_id = .ok pool slot) ∧
      ∃ t, s.step (.subscribe dst key key_type_id subscriber_id) = some t ∧ t.registry = r ∧
        t.Invariant := by
  have hcount : s.pool.num_active_ < n := by
    rw [← Pool.length_live h.wellFormed]
    simpa only [Session.registry, List.length_map] using hlt
  obtain ⟨slot, _, _, hok⟩ := Pool.subscribe_ok h.wellFormed hcount key key_type_id subscriber_id
  have hsome : ∃ t, s.step (.subscribe dst key key_type_id subscriber_id) = some t := by
    simp only [Session.step, hok]
    cases ha : s.handles.adopt dst slot with
    | some handles => exact ⟨_, rfl⟩
    | none =>
        have hnone : s.handles dst ≠ none := by
          intro hfree
          simp [Handle.Store.adopt, hfree] at ha
        have hmap : s.registry.handles dst ≠ none := by
          simpa [Session.registry, Handle.Store.map] using hnone
        simp only [Registry.step, if_neg (Nat.not_le.mpr hlt), Handle.Store.adopt] at hr
        split at hr
        · exact absurd ‹_› hmap
        · cases hr
  obtain ⟨t, ht⟩ := hsome
  refine ⟨⟨_, slot, hok⟩, t, ht, ?_, Session.step_invariant h ht⟩
  exact Option.some.inj ((Session.registry_step h ht).symm.trans hr)

end Session

section Perform

variable [DecidableEq τ]

theorem envelopes_setCall (s : Runtime.State π τ) (caller other : Runtime.Caller τ)
    (call : Runtime.Call π) : ((s.setCall caller call).calls other).envelopes =
      if other = caller then call.envelopes else (s.calls other).envelopes := by
  simp only [Runtime.State.setCall, Function.update_apply]
  split_ifs <;> rfl

theorem envelopes_post_next (s : Runtime.State π τ) (caller other : Runtime.Caller τ)
    (envs : List (Envelope π)) : ((s.post_next caller envs).calls other).envelopes =
      if other = caller then envs else (s.calls other).envelopes := by
  cases envs with
  | nil => exact envelopes_setCall ..
  | cons env rest => exact envelopes_setCall ..

theorem envelopes_post (s : Runtime.State π τ) (envs : List (Envelope π)) :
    ((s.post_next .loop envs).calls .loop).envelopes = envs := by
  rw [envelopes_post_next, if_pos rfl]

variable [DecidableEq κ] [DecidableEq ι]

theorem call_loop (program : App.Program V π ι M) {s : App.State V π τ n ι M}
    (h : s.cached.ready = true) (op : Runtime.Op π) :
    s.call program (.runtime (.call .loop op)) =
      some { s with cached := { s.cached with
        runtime := s.cached.runtime.begin_op .loop (op.map .other) } } := by
  have hfree : s.cached.runtime.free = true := by
    simp only [Cached.State.ready, Bool.and_eq_true] at h
    exact h.1
  have hup : s.cached.runtime.pc.faulted = false := by
    unfold Runtime.State.free at hfree
    split at hfree
    · cases hp : s.cached.runtime.pc <;> first | rfl | simp [hp, Runtime.Pc.inUserCode] at hfree
    · cases hfree
  simp [App.State.call, Cached.State.step, Runtime.Event.map, Runtime.State.step, hup,
    Runtime.State.mayCall, hfree]

omit [DecidableEq κ] [DecidableEq ι] in
theorem performed_call {s : App.State V π τ n ι M} (timers : ι → Option Nat) (op : Runtime.Op π)
    (hpc : (s.cached.runtime.begin_op .loop (op.map .other)).pc = s.cached.runtime.pc) :
    Performed s { s with
      timers := timers
      cached := { s.cached with
        runtime := s.cached.runtime.begin_op .loop (op.map .other) } } := by
  obtain ⟨hledger, hstage, _⟩ := Runtime.State.begin_op_frame s.cached.runtime .loop (op.map .other)
  exact ⟨rfl, hledger, hstage, hpc, Runtime.State.now_begin_op ..,
    fun _ => Runtime.State.calls_begin_op _ nofun⟩

omit [DecidableEq κ] [DecidableEq ι] in
theorem performed_post (s : App.State V π τ n ι M) (envs : List (Envelope (Payload V π)))
    (cache : Cache.State V n ι) :
    Performed s { s with cached := ⟨s.cached.runtime.post_next .loop envs, cache⟩ } :=
  ⟨rfl, Runtime.State.ledger_post_next .., Runtime.State.stage_post_next ..,
    Runtime.State.pc_post_next .., Runtime.State.now_post_next ..,
    fun _ => Runtime.State.calls_post_next envs nofun⟩

omit [DecidableEq κ] [DecidableEq ι] in
theorem mirrors_post {s : App.State V π τ n ι M} {w : World V π ι} (h : Mirrors s w)
    (envs : List (Envelope (Payload V π))) (slots : App.Slots V) :
    Mirrors { s with cached := ⟨s.cached.runtime.post_next .loop envs,
      { s.cached.cache with slots_ := slots }⟩ } { w with slots := slots, outbox := envs } := by
  refine ⟨rfl, h.registry, h.session, (envelopes_post ..).symm, ?_, ?_⟩
  · simp only [Runtime.State.timers_post_next, Runtime.State.now_post_next]
    exact h.timed
  · simp only [Runtime.State.timers_post_next, Runtime.State.stage_post_next]
    exact h.bound

theorem arm_mirrors {program : App.Program V π ι M} {s : App.State V π τ n ι M}
    {w v : World V π ι} (h : Mirrors s w) (hready : s.cached.ready = true)
    (hnow : 0 ≤ s.cached.runtime.now) {since : Int} (hs : since ≤ s.cached.runtime.now) {dst : ι}
    {timer : Owner.LocalTimer π} (ha : w.apply program.keys n since (.arm dst timer) = some v) :
    ∃ t, s.perform program (.arm dst timer) = some t ∧ Mirrors t v ∧ Performed s t := by
  obtain ⟨-, hcache⟩ := Cached.State.ready_outside hready
  obtain ⟨hpost, hsink⟩ := h.bound hcache
  simp only [World.apply] at ha
  split at ha
  · exact nomatch ha
  · rename_i hfree
    split_ifs at ha with hneg
    obtain rfl := Option.some.inj ha
    have harm := h.timed.arm hfree hnow (not_lt.mp hneg) hs hsink timer.env timer.owner_name
      timer.type_name
    have hop : s.cached.runtime.begin_op .loop
        (.arm timer.delay (timer.env.map .other) timer.owner_name timer.type_name) =
        { s.cached.runtime with
          timers_ := s.cached.runtime.timers_.push
            (wrapTicks (s.cached.runtime.now + timer.delay)) (timer.env.map .other)
            timer.owner_name timer.type_name } := by
      simp only [Runtime.State.begin_op, TimerService.arm, if_neg hneg]
    let held := Function.update s.timers dst (some s.cached.runtime.timers_.next_seq_)
    have hcall := call_loop program (s := { s with timers := held }) hready
      (.arm timer.delay timer.env timer.owner_name timer.type_name)
    refine ⟨_, hcall, ?_, performed_call _ _ ?_⟩
    · simp only [Runtime.Op.map, hop]
      exact ⟨h.slots, h.registry, h.session, h.outbox, harm, fun _ => ⟨hpost, hsink⟩⟩
    · simp only [Runtime.Op.map, hop]

theorem set_mirrors {program : App.Program V π ι M} {s : App.State V π τ n ι M}
    {w v : World V π ι} (h : Mirrors s w) (hready : s.cached.ready = true)
    {since : Int} {k : κ} {value : V k}
    (ha : w.apply program.keys n since (.set k value) = some v) :
    ∃ t, s.perform program (.set k value) = some t ∧ Mirrors t v ∧ Performed s t := by
  obtain ⟨hout, hcache⟩ := Cached.State.ready_outside hready
  obtain ⟨hpost, -⟩ := h.bound hcache
  have hempty : w.outbox = [] := by
    rw [h.outbox, hout]
    rfl
  have hholds : w.holds program.keys k value = s.cached.cache.holds program.keys k value := by
    simp only [World.holds, Cache.State.holds, h.slots]
  have hset := Cache.State.set_eq program.keys h.session hpost k value
  simp only [World.apply, hholds] at ha
  simp only [App.State.perform, App.State.call, Cached.State.step, hready, ite_true, hset]
  by_cases hsame : s.cached.cache.holds program.keys k value = true
  · simp only [hsame, ite_true, Option.some.injEq] at ha ⊢
    subst ha
    refine ⟨_, rfl, ?_, performed_post s [] _⟩
    have hsilent : ({ w with slots := s.cached.cache.slots_, outbox := [] } : World V π ι) =
        w := by
      rw [← h.slots, ← hempty]
    exact hsilent ▸ mirrors_post h [] s.cached.cache.slots_
  · simp only [hsame, Bool.false_eq_true, ite_false, Option.some.injEq] at ha ⊢
    subst ha
    refine ⟨_, rfl, ?_, performed_post s _ _⟩
    have hnotices : List.zipWith Cached.mark
        (((s.cached.cache.session.registry.live.filter fun registration =>
          registration.key = program.keys.type_id k).map fun registration =>
            program.keys.notice k ⟨s.cached.cache.get k, value⟩ registration.subscriber_id))
        ((s.cached.addressed program.keys k).map fun registration => registration.serial) =
        w.outbox ++ w.notices program.keys k value := by
      simp only [Cached.State.addressed, List.zipWith_map, List.zipWith_self, hempty,
        World.notices, h.registry, h.slots]
      rfl
    rw [hnotices]
    have hpost := mirrors_post h (w.outbox ++ w.notices program.keys k value)
      (Function.update w.slots k (some value))
    rw [h.slots] at hpost ⊢
    exact hpost

-- A request that the world allows is met, and does to the application what it
-- does to the world.
theorem perform_mirrors {program : App.Program V π ι M} {s : App.State V π τ n ι M}
    {w v : World V π ι} (h : Mirrors s w) (hready : s.cached.ready = true)
    (hnow : 0 ≤ s.cached.runtime.now) {since : Int}
    (hs : since ≤ s.cached.runtime.now) {act : App.Act V π ι}
    (ha : w.apply program.keys n since act = some v) :
    ∃ t, s.perform program act = some t ∧ Mirrors t v ∧ Performed s t := by
  obtain ⟨hout, hcache⟩ := Cached.State.ready_outside hready
  obtain ⟨hpost, hsink⟩ := h.bound hcache
  have hempty : w.outbox = [] := by
    rw [h.outbox, hout]
    rfl
  cases act with
  | send env =>
      obtain rfl := Option.some.inj ha
      refine ⟨_, call_loop program hready _, { h with outbox := ?_ }, performed_call s.timers _ rfl⟩
      rw [hempty]
      exact (envelopes_post ..).symm
  | arm dst timer => exact arm_mirrors h hready hnow hs ha
  | cancel dst =>
      obtain rfl := Option.some.inj ha
      simp only [App.State.perform]
      cases hheld : s.timers dst with
      | none =>
          refine ⟨s, rfl, ?_, ⟨rfl, rfl, rfl, rfl, rfl, fun _ => rfl⟩⟩
          rw [h.timed.cancel_none hheld]
          exact h
      | some seq =>
          have hcall := call_loop program (s := { s with
            timers := Function.update s.timers dst none }) hready (.cancel seq)
          refine ⟨_, hcall, ?_, performed_call _ _ rfl⟩
          refine ⟨h.slots, h.registry, h.session, h.outbox, h.timed.cancel hheld, fun _ => ?_⟩
          exact ⟨hpost, (TimerService.post_bound_cancel_by_seq ..).trans hsink⟩
  | release dst =>
      obtain ⟨r, hr, rfl⟩ := Option.map_eq_some_iff.mp ha
      rw [h.registry] at hr
      obtain ⟨session, hsession, rfl, hinv⟩ := session_handle h.session hr
      refine ⟨{ s with cached := { s.cached with cache := { s.cached.cache with
        session := session } } }, ?_, ⟨h.slots, rfl, hinv, h.outbox, h.timed, h.bound⟩,
        ⟨rfl, rfl, rfl, rfl, rfl, fun _ => rfl⟩⟩
      simp [App.State.perform, App.State.call, Cached.State.step, hready, Cache.State.step,
        hsession]
  | subscribe dst k subscriber_id =>
      simp only [World.apply] at ha
      split_ifs at ha with hfull
      obtain ⟨r, hr, rfl⟩ := Option.map_eq_some_iff.mp ha
      rw [h.registry] at hr hfull
      obtain ⟨⟨pool, slot, hok⟩, session, hsession, rfl, hinv⟩ :=
        session_subscribe h.session (program.keys.type_name k) (not_le.mp hfull) hr
      refine ⟨{ s with cached := { s.cached with cache := { s.cached.cache with
        session := session } } }, ?_, ⟨h.slots, rfl, hinv, h.outbox, h.timed, h.bound⟩,
        ⟨rfl, rfl, rfl, rfl, rfl, fun _ => rfl⟩⟩
      simp [App.State.perform, App.State.call, hok, Cached.State.step, hready, Cache.State.step,
        hsession]
  | set k value => exact set_mirrors h hready ha

end Perform

end Atomic

end CortexFlow
