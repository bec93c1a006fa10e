import CortexFlow.App.Refinement
import CortexFlow.Runtime.Shutdown

namespace CortexFlow

namespace Atomic

open Lib Cache

variable {κ : Type*} {V : κ → Type*} {π τ : Type*} {n : Nat} {ι M : Type*} [DecidableEq κ]
  [DecidableEq ι] {program : App.Program V π ι M} {s t : App.State V π τ n ι M}
  {a : State V π ι M}

-- What a step of the application is to the abstract one: nothing, a step, or a
-- step that fails.
def Follows (program : App.Program V π ι M) (a : State V π ι M) (t : App.State V π τ n ι M) :
    Prop :=
  State.Step program n a none ∨ ∃ b, (b = a ∨ State.Step program n a (some b)) ∧ Refines program t b

theorem Follows.still (h : Refines program t a) : Follows program a t :=
  Or.inr ⟨a, Or.inl rfl, h⟩

theorem Follows.moves {b : State V π ι M} (hb : State.Step program n a (some b))
    (h : Refines program t b) : Follows program a t :=
  Or.inr ⟨b, Or.inr hb, h⟩

theorem Follows.of_option {o : Option (State V π ι M)} (hstep : State.Step program n a o)
    (h : o = none ∨ ∃ b, o = some b ∧ Refines program t b) : Follows program a t := by
  cases h with
  | inl hnone => exact Or.inl (hnone ▸ hstep)
  | inr hsome =>
      obtain ⟨b, rfl, hb⟩ := hsome
      exact .moves hstep hb

omit [DecidableEq κ] [DecidableEq ι] in
theorem enter_idle (h : s.cached.runtime.pc.serves = false) : s.enter program = s := by
  unfold App.State.enter
  split <;> simp_all [Runtime.Pc.serves]

theorem follows_begin_on_start (h : Refines program s a) (ht : s.todo = [])
    (hout : s.cached.runtime.calls .loop = .outside) (hd : a.draining = false) {i : Nat}
    (hphase : a.phase = .running i) (hi : i ≤ program.config.modules.length)
    {runtime : Runtime.State (Payload V π) τ} (hr : Quiet s.cached.runtime runtime) :
    Follows program a (({ s with cached := { s.cached with
      runtime := runtime.begin_on_start program.config i } } : App.State V π τ n ι M).enter
        program) := by
  unfold Runtime.State.begin_on_start
  split_ifs with hlt
  · have hcalled : Quiet s.cached.runtime { runtime.note [.on_start i] with pc := .on_start i } :=
      ⟨hr.queue, hr.dispatched, hr.stop, hr.shared, hr.cache⟩
    have hnext := h.relocate ht hcalled (.running (i + 1)) ⟨rfl, hlt⟩
      fun hdrain => nomatch hd.symm.trans hdrain
    refine .of_option (.on_start i hphase hlt (h.outbox_nil ht hout)) ?_
    have hreact := refines_react hnext ht rfl
      (program.on_start i s.cached.cache.slots_ s.objects)
    rw [← (h.settled ht).slots, ← h.objects] at hreact
    simp only [App.State.enter]
    rw [← (h.settled ht).slots, ← h.objects]
    exact hreact
  · have heq : i = program.config.modules.length := by omega
    have hstarted : Quiet s.cached.runtime { runtime with pc := .idle, started_ := true } :=
      ⟨hr.queue, hr.dispatched, hr.stop, hr.shared, hr.cache⟩
    have hnext := h.relocate ht hstarted a.phase (by rw [hphase, heq]; rfl)
      fun hdrain => nomatch hd.symm.trans hdrain
    rw [enter_idle rfl]
    exact .still hnext

theorem follows_begin_destroy (h : Refines program s a) (ht : s.todo = [])
    (hout : s.cached.runtime.calls .loop = .outside) {i : Nat}
    (hphase : a.phase = .closing i) (hi : i ≤ program.config.modules.length) :
    Follows program a (({ s with cached := { s.cached with
      runtime := s.cached.runtime.begin_destroy program.config i } } :
        App.State V π τ n ι M).enter program) := by
  unfold Runtime.State.begin_destroy
  split_ifs with hlt
  · have hcalled : Quiet s.cached.runtime
        { s.cached.runtime.note [.destroy i] with pc := .destroy i } := ⟨rfl, rfl, rfl, rfl, rfl⟩
    have hnext := h.relocate ht hcalled (.closing (i + 1)) ⟨rfl, hlt⟩ fun _ => rfl
    refine .of_option (.destroy i hphase hlt (h.outbox_nil ht hout)) ?_
    have hreact := refines_react hnext ht rfl
      (.ok s.objects (program.destroy i s.objects))
    rw [← h.objects] at hreact
    simp only [App.State.enter]
    rw [← h.objects]
    exact hreact
  · have heq : i = program.config.modules.length := by omega
    have hdone : Quiet s.cached.runtime
        { s.cached.runtime with pc := .clear_timers, modules_ := false } :=
      ⟨rfl, rfl, rfl, rfl, rfl⟩
    have hnext := h.relocate ht hdone a.phase (by rw [hphase, heq]; rfl) fun _ => rfl
    rw [enter_idle rfl]
    exact .still hnext

-- The owning thread goes on to a place where it calls no module.
theorem Refines.walk (h : Refines program s a) (ht : s.todo = [])
    {runtime : Runtime.State (Payload V π) τ} (hr : Quiet s.cached.runtime runtime)
    (hp : Placed program.config runtime.started_ a.phase runtime.pc)
    (hdrain : a.draining = true → runtime.pc.drains = true) (hserve : runtime.pc.serves = false) :
    Follows program a (({ s with cached := { s.cached with runtime := runtime } } :
      App.State V π τ n ι M).enter program) := by
  rw [enter_idle hserve]
  exact .still (h.relocate ht hr a.phase hp hdrain)

-- The loop over the queue has found it empty, or has spent its budget.
theorem follows_drained (h : Refines program s a) (ht : s.todo = [])
    (hout : s.cached.runtime.calls .loop = .outside) {drain : Runtime.Drain}
    (hp : s.cached.runtime.pc = .take drain)
    (hq : s.cached.runtime.queue_ = [] ∨ Runtime.State.budgetSpent program.config drain = true) :
    Follows program a (({ s with cached := { s.cached with
      runtime := s.cached.runtime.drained drain } } : App.State V π τ n ι M).enter program) := by
  have hplaced := h.placed
  rw [hp] at hplaced
  obtain ⟨hphase, hstarted⟩ := hplaced
  have hquiet : Quiet s.cached.runtime (s.cached.runtime.drained drain) := by
    cases drain <;> exact ⟨rfl, rfl, rfl, rfl, rfl⟩
  have hserve : (s.cached.runtime.drained drain).pc.serves = false := by
    cases drain <;> rfl
  have hto : Placed program.config (s.cached.runtime.drained drain).started_ a.phase
      (s.cached.runtime.drained drain).pc := by
    cases drain with
    | user | last =>
        simp only [Runtime.State.drained, Placed, hstarted, ite_true]
        exact hphase
    | first | shutdown => exact ⟨hphase, hstarted⟩
  rw [enter_idle hserve]
  cases hq with
  | inl hq =>
      have hempty : a.queue = [] := by
        rw [h.queue, hq]
        rfl
      have hpause : Refines program s { a with draining := false } :=
        { h with draining := nofun }
      exact .moves (.pause hphase (h.outbox_nil ht hout) hempty)
        (hpause.relocate ht hquiet a.phase hto nofun)
  | inr hspent =>
      refine .still (h.relocate ht hquiet a.phase hto fun _ => ?_)
      cases drain <;> first | rfl | exact nomatch hspent

theorem follows_take (h : Refines program s a) (ht : s.todo = [])
    (hout : s.cached.runtime.calls .loop = .outside) {drain : Runtime.Drain}
    (hp : s.cached.runtime.pc = .take drain) :
    Follows program a (({ s with cached := { s.cached with
      runtime := s.cached.runtime.take program.config drain } } :
        App.State V π τ n ι M).enter program) := by
  have hplaced := h.placed
  rw [hp] at hplaced
  obtain ⟨hphase, hstarted⟩ := hplaced
  unfold Runtime.State.take
  split_ifs with hspent
  · exact follows_drained h ht hout hp (Or.inr hspent)
  · split
    · exact follows_drained h ht hout hp (Or.inl ‹_›)
    · rename_i post queue hq
      have hqueue : a.queue = post.env :: queue.map Runtime.Post.env := by
        rw [h.queue, hq]
        rfl
      have hstep : State.Step program n a
          (a.dispatch program n post.env (queue.map Runtime.Post.env)) :=
        .dispatch _ _ hphase (h.outbox_nil ht hout) hqueue
      refine .of_option hstep ?_
      simp only [State.dispatch]
      cases hi : program.config.modules.findIdx? fun id => id = post.env.to_ with
      | none => exact Or.inl rfl
      | some i =>
          have hw := h.settled ht
          have hcalled : Refines program { s with cached := { s.cached with
              runtime := { { s.cached.runtime with
                queue_ := queue
                dispatched := s.cached.runtime.dispatched ++ [post] }.note [.dispatch post i] with
                  pc := .handle drain } } }
              { a with
                queue := queue.map Runtime.Post.env
                dispatched := a.dispatched ++ [post.env]
                draining := true } := by
            refine ⟨⟨s.cached.runtime.now, a.toWorld, le_rfl, ?_, ?_⟩, h.objects, rfl, ?_,
              h.stopping, h.now, h.nonneg, h.inputs, ⟨hphase, hstarted⟩, fun _ => rfl, absurd ht⟩
            · exact ⟨hw.slots, hw.registry, hw.session, hw.outbox, hw.timed, hw.bound⟩
            · rw [ht]
              rfl
            · rw [h.dispatched]
              simp [Runtime.State.note]
          have hreact := refines_react hcalled ht rfl
            (program.handle i post.env s.cached.cache.slots_ s.objects)
          simp only [App.State.enter, Runtime.State.note, List.getLast?_concat]
          rw [hw.slots, h.objects]
          exact hreact

omit [DecidableEq κ] [DecidableEq ι] in
-- The first `on_stop`, or the end of `shutdown` if there is no module.
theorem begins_to_stop (config : Runtime.Config) (r : Runtime.State (Payload V π) τ) :
    Quiet r (r.begin_on_stop config config.modules.length) ∧
      (r.begin_on_stop config config.modules.length).pc.serves = false ∧
      (r.begin_on_stop config config.modules.length).pc.drains = true ∧
      Placed config (r.begin_on_stop config config.modules.length).started_ (.closing 0)
        (r.begin_on_stop config config.modules.length).pc := by
  cases hl : config.modules.length with
  | zero =>
      have hnone : ¬0 < config.modules.length := by omega
      simp only [Runtime.State.begin_on_stop, Runtime.State.begin_destroy, if_neg hnone]
      exact ⟨⟨rfl, rfl, rfl, rfl, rfl⟩, rfl, rfl, congrArg Phase.closing hl.symm⟩
  | succ i => exact ⟨⟨rfl, rfl, rfl, rfl, rfl⟩, rfl, rfl, rfl⟩

theorem follows_discard (h : Refines program s a) (ht : s.todo = [])
    (hout : s.cached.runtime.calls .loop = .outside) (hp : s.cached.runtime.pc = .discard) :
    Follows program a (({ s with cached := { s.cached with
      runtime := s.cached.runtime.discard program.config } } :
        App.State V π τ n ι M).enter program) := by
  have hphase := h.placed
  rw [hp] at hphase
  refine .moves (.discard hphase.1 (h.outbox_nil ht hout)) ?_
  have hto (r : Runtime.State (Payload V π) τ)
      (hr : Refines program { s with cached := { s.cached with runtime := r } }
        { a with queue := [] }) (hd : r.pc.drains = true) :
      Refines program (({ s with cached := { s.cached with
        runtime := r.begin_on_stop program.config program.config.modules.length } } :
          App.State V π τ n ι M).enter program)
        { a with queue := [], draining := true, phase := .closing 0 } := by
    obtain ⟨hquiet, hserve, hdrain, hplaced⟩ := begins_to_stop program.config r
    rw [enter_idle hserve]
    have hr : Refines program { s with cached := { s.cached with runtime := r } }
        { a with queue := [], draining := true } :=
      { hr with draining := fun _ => hd }
    exact hr.relocate ht hquiet (.closing 0) hplaced fun _ => hdrain
  unfold Runtime.State.discard
  split
  · rename_i hq
    refine hto _ { h with queue := ?_ } (by rw [hp]; rfl)
    rw [hq]
    rfl
  · refine hto _ (h.flagged _ rfl h.stopping rfl rfl rfl rfl rfl h.inputs h.placed h.draining ?_)
      (by rw [hp]; rfl)
    exact h.busy

theorem follows_on_stop (h : Refines program s a) (ht : s.todo = [])
    (hout : s.cached.runtime.calls .loop = .outside) {i : Nat}
    (hp : s.cached.runtime.pc = .on_stop i) :
    Follows program a (({ s with cached := { s.cached with
      runtime := s.cached.runtime.begin_on_stop program.config i } } :
        App.State V π τ n ι M).enter program) := by
  have hphase := h.placed
  rw [hp] at hphase
  cases i with
  | zero => exact follows_begin_destroy h ht hout hphase (Nat.zero_le _)
  | succ i => exact h.walk ht ⟨rfl, rfl, rfl, rfl, rfl⟩ hphase (fun _ => rfl) rfl

theorem follows_clear (h : Refines program s a) (ht : s.todo = [])
    (hout : s.cached.runtime.calls .loop = .outside) (hp : s.cached.runtime.pc = .clear_timers) :
    Follows program a { s with cached := { s.cached with
      runtime := { s.cached.runtime with
        pc := .clear_flags, cache_ := false, timers_ := s.cached.runtime.timers_.clear } } } := by
  have hphase := h.placed
  rw [hp] at hphase
  have hw := h.settled ht
  refine .moves (.clear hphase (h.outbox_nil ht hout)) ?_
  refine ⟨⟨s.cached.runtime.now, { a.toWorld with timers := fun _ => none }, le_rfl,
    ⟨hw.slots, hw.registry, hw.session, hw.outbox, hw.timed.clear, nofun⟩, ?_⟩, h.objects, h.queue,
    h.dispatched, h.stopping, h.now, h.nonneg, h.inputs, rfl, fun _ => rfl, absurd ht⟩
  rw [ht]
  rfl

theorem follows_finish (h : Refines program s a) (ht : s.todo = [])
    (hout : s.cached.runtime.calls .loop = .outside) (hp : s.cached.runtime.pc = .clear_flags) :
    Follows program a { s with cached := { s.cached with
      runtime := s.cached.runtime.finish_shutdown } } := by
  have hphase := h.placed
  rw [hp] at hphase
  have hw := h.settled ht
  refine .moves (.finish hphase (h.outbox_nil ht hout)) ?_
  refine ⟨⟨s.cached.runtime.now, a.toWorld, le_rfl,
    ⟨hw.slots, hw.registry, hw.session, hw.outbox, hw.timed, hw.bound⟩, ?_⟩, h.objects, h.queue,
    rfl, rfl, h.now, h.nonneg, h.inputs, rfl, nofun, absurd ht⟩
  rw [ht]
  rfl

omit [DecidableEq κ] [DecidableEq ι] in
theorem begins_to_construct (config : Runtime.Config) (r : Runtime.State (Payload V π) τ) :
    Quiet r (r.begin_construct config config.modules.length) ∧
      (r.begin_construct config config.modules.length).pc.serves = false ∧
      Placed config (r.begin_construct config config.modules.length).started_ (.running 0)
        (r.begin_construct config config.modules.length).pc := by
  cases hl : config.modules.length with
  | zero =>
      have hnone : ¬0 < config.modules.length := by omega
      simp only [Runtime.State.begin_construct, Runtime.State.begin_on_start, if_neg hnone]
      exact ⟨⟨rfl, rfl, rfl, rfl, rfl⟩, rfl, congrArg Phase.running hl.symm⟩
  | succ i => exact ⟨⟨rfl, rfl, rfl, rfl, rfl⟩, rfl, rfl⟩

omit [DecidableEq κ] [DecidableEq ι] in
-- The subscriptions of a new cache, when the handles hold none of the old one.
theorem session_emplace (session : Session n ι)
    (h : ∀ dst slot, ¬Handle.Owns session.registry.handles dst slot) :
    ({ session with pool := .empty n } : Session n ι).Invariant ∧
      ({ session with pool := .empty n } : Session n ι).registry =
        { session.registry with live := [] } := by
  have hnone (dst : ι) (slot : Nat) : ¬Handle.Owns session.handles dst slot := by
    intro howns
    refine h dst (session.registered_at slot) ?_
    simp [Handle.Owns, Session.registry, Handle.Store.map, show session.handles dst = _ from howns]
  refine ⟨⟨Pool.wellFormed_empty n, fun one _ slot hone => absurd hone (hnone one slot),
    fun slot => ⟨fun howned => howned.elim fun dst howns => absurd howns (hnone dst slot),
      fun hactive => ?_⟩, .nil,
    fun slot hlive => ?_⟩, rfl⟩
  · exact absurd hactive (Pool.not_isActive_empty slot)
  · exact absurd hlive List.not_mem_nil

theorem follows_construct (h : Refines program s a) (ht : s.todo = [])
    (hout : s.cached.runtime.calls .loop = .outside) (hp : s.cached.runtime.pc = .idle)
    (hstarted : s.cached.runtime.started_ = false) {r : Runtime.State (Payload V π) τ}
    (hr : r = { s.cached.runtime with
      cache_ := true, timers_ := s.cached.runtime.timers_.bind_post, log := [] }.begin_construct
        program.config program.config.modules.length) :
    Follows program a (({ s with
      cached := ⟨r, Cached.State.emplace s.cached.cache⟩
      objects := program.fresh } : App.State V π τ n ι M).enter program) := by
  have hphase := h.placed
  rw [hp] at hphase
  simp only [Placed, hstarted, Bool.false_eq_true, ite_false] at hphase
  have hw := h.settled ht
  have hempty := h.outbox_nil ht hout
  by_cases howns : ∃ dst slot, Handle.Owns a.registry.handles dst slot
  · exact Or.inl (.stale hphase howns)
  · have hfree : ∀ dst slot, ¬Handle.Owns a.registry.handles dst slot :=
      fun dst slot hown => howns ⟨dst, slot, hown⟩
    obtain ⟨hsession, hregistry⟩ := session_emplace s.cached.cache.session
      (hw.registry ▸ hfree)
    obtain ⟨hquiet, hserve, hplaced⟩ := begins_to_construct program.config
      { s.cached.runtime with
        cache_ := true, timers_ := s.cached.runtime.timers_.bind_post, log := [] }
    rw [← hr] at hquiet hserve hplaced
    have hnow : r.now = s.cached.runtime.now :=
      (congrArg Runtime.Shared.now hquiet.shared).trans rfl
    have hcalls : r.calls = s.cached.runtime.calls :=
      (congrArg Runtime.Shared.calls hquiet.shared).trans rfl
    have htimers : r.timers_ = s.cached.runtime.timers_.bind_post :=
      (congrArg Runtime.Shared.timers_ hquiet.shared).trans rfl
    rw [enter_idle hserve]
    refine .moves (.start hphase hempty hfree) ?_
    refine ⟨⟨s.cached.runtime.now, (a.start program).toWorld, hnow.ge,
      ⟨rfl, ?_, hsession, ?_, ?_, fun _ => ⟨rfl, ?_⟩⟩, ?_⟩, rfl, ?_, ?_, ?_, ?_, ?_,
      fun thread env he => ?_, hplaced, fun hdrain => ?_, absurd ht⟩
    · rw [State.start, hw.registry]
      exact hregistry.symm
    · rw [hcalls]
      exact hw.outbox
    · rw [htimers, hnow]
      exact hw.timed.rebound
    · rw [htimers]
      rfl
    · rw [ht]
      rfl
    · rw [hquiet.queue]
      exact h.queue
    · rw [hquiet.dispatched]
      exact h.dispatched
    · rw [hquiet.stop]
      exact h.stopping
    · rw [hnow]
      exact h.now
    · rw [hnow]
      exact h.nonneg
    · rw [hcalls] at he
      exact h.inputs thread env he
    · have := h.draining hdrain
      rw [hp] at this
      exact nomatch this

theorem follows_start (h : Refines program s a) (htop : s.cached.runtime.atTop = true) :
    Follows program a (({ s with
      cached :=
        if s.cached.runtime.started_ then
          { s.cached with runtime := s.cached.runtime.start program.config }
        else
          ⟨s.cached.runtime.start program.config, Cached.State.emplace s.cached.cache⟩
      objects := if s.cached.runtime.started_ then s.objects else program.fresh } :
        App.State V π τ n ι M).enter program) := by
  have hp := Runtime.State.atTop_pc htop
  obtain ⟨ht, hd⟩ := h.idle hp
  have hout : s.cached.runtime.calls .loop = .outside :=
    Runtime.State.atTop_calls htop
  unfold Runtime.State.start
  by_cases hstarted : s.cached.runtime.started_ = true
  · rw [if_pos hstarted, if_pos hstarted, if_pos hstarted]
    refine h.walk ht ⟨rfl, rfl, rfl, rfl, rfl⟩ ?_ (fun hdrain => nomatch hd.symm.trans hdrain) rfl
    simp [Placed, Runtime.State.fail, misuses]
  · rw [if_neg hstarted, if_neg hstarted, if_neg hstarted]
    exact follows_construct h ht hout hp (by simpa using hstarted) rfl

variable [DecidableEq τ]

theorem follows_drop (h : Refines program s a) {caller : Runtime.Caller τ}
    {env : Envelope (Payload V π)} {rest : List (Envelope (Payload V π))}
    (hc : (s.cached.runtime.calls caller).envelopes = env :: rest)
    (hstop : s.cached.runtime.stop_requested_ = true) :
    Follows program a { s with cached := { s.cached with
      runtime := s.cached.runtime.post_next caller rest } } := by
  cases caller with
  | loop =>
      obtain ⟨outbox, hout, hb⟩ := h.posted hc (s.cached.runtime.post_next .loop rest)
        (by simpa using h.queue) (by simp) (by simp) (by simp)
        (Runtime.State.timers_post_next ..) (Runtime.State.now_post_next ..) (by simp)
        (envelopes_post ..) fun thread => Runtime.State.calls_post_next rest nofun
      exact .moves (.drop env outbox hout (h.stopping.trans hstop)) hb
  | foreign thread =>
      refine .still (h.post_next s.cached.runtime rfl rfl rfl (Or.inr rfl) (.foreign thread)
        rest nofun fun other ho env he => ?_)
      obtain rfl := Runtime.Caller.foreign.inj ho
      exact h.inputs thread env (hc ▸ List.mem_cons_of_mem _ he)

theorem follows_push (h : Refines program s a) {caller : Runtime.Caller τ}
    {env : Envelope (Payload V π)} {rest : List (Envelope (Payload V π))}
    (hc : s.cached.runtime.calls caller = .post_lock env rest)
    (hstop : s.cached.runtime.stop_requested_ = false) :
    Follows program a { s with cached := { s.cached with
      runtime := (s.cached.runtime.push caller env).setCall caller (.post_notify rest) } } := by
  have hqueue : a.queue ++ [env] =
      (s.cached.runtime.push caller env).queue_.map Runtime.Post.env := by
    simp [Runtime.State.push, h.queue]
  have henvs : (s.cached.runtime.calls caller).envelopes = env :: rest := by
    rw [hc]
    rfl
  have hcalls (other : Runtime.Caller τ) := envelopes_setCall (s.cached.runtime.push caller env)
    caller other (.post_notify rest)
  cases caller with
  | loop =>
      have hforeign (thread : τ) : ((s.cached.runtime.push .loop env).setCall .loop
          (.post_notify rest)).calls (.foreign thread) =
          s.cached.runtime.calls (.foreign thread) :=
        Runtime.State.calls_setCall (s := s.cached.runtime.push .loop env) _ (by simp)
      obtain ⟨outbox, hout, hb⟩ := h.posted henvs ((s.cached.runtime.push .loop env).setCall
        .loop (.post_notify rest)) hqueue rfl rfl rfl rfl rfl rfl (hcalls .loop) hforeign
      exact .moves (.accept env outbox hout (h.stopping.trans hstop)) hb
  | foreign thread =>
      obtain ⟨input, hinput, rfl⟩ := h.inputs thread env (henvs ▸ List.mem_cons_self)
      refine .moves (.foreign input hinput (h.stopping.trans hstop)) ?_
      refine h.flagged ((s.cached.runtime.push (.foreign thread) (input.map .other)).setCall
        (.foreign thread) (.post_notify rest)) hqueue h.stopping rfl rfl rfl rfl (hcalls .loop)
        (fun other env he => ?_) h.placed h.draining h.busy
      rw [hcalls] at he
      split_ifs at he with ho
      · refine h.inputs thread env ?_
        rw [henvs]
        exact List.mem_cons_of_mem _ he
      · exact h.inputs other env he

theorem follows_advance (h : Refines program s a) {caller : Runtime.Caller τ}
    {runtime : Runtime.State (Payload V π) τ}
    (hr : s.cached.runtime.advance caller = some runtime) :
    Follows program a { s with cached := { s.cached with runtime := runtime } } := by
  have henvs {call : Runtime.Call (Payload V π)} (hc : s.cached.runtime.calls caller = call) :
      (s.cached.runtime.calls caller).envelopes = call.envelopes := congrArg _ hc
  have hrule : Runtime.State.Rule program.config s.cached.runtime (.advance caller) runtime :=
    Runtime.State.advance_rule hr
  cases hrule with
  | post_dropped _ env rest hc hstop => exact follows_drop h (henvs hc) hstop
  | post_tested _ env rest hc hstop => exact .still (h.setCall (henvs hc).symm)
  | post_refused _ env rest hc hm hstop => exact follows_drop h (henvs hc) hstop
  | post_pushed _ env rest hc hm hstop => exact follows_push h hc hstop
  | post_notified _ rest hc =>
      refine .still (h.post_next s.cached.runtime.notify rfl rfl rfl (Or.inl rfl) caller rest
        (fun ho => ?_) fun thread ho env he => ?_)
      · subst ho
        exact (henvs hc).symm
      · subst ho
        exact h.inputs thread env (henvs hc ▸ he)
  | stop_set _ hc hm =>
      have hsame (other : Runtime.Caller τ) :
          ((s.cached.runtime.setCall caller .stop_notify).calls other).envelopes =
            (s.cached.runtime.calls other).envelopes := by
        rw [envelopes_setCall]
        split_ifs with ho
        · rw [ho]
          exact (henvs hc).symm
        · rfl
      refine .moves .stop ?_
      refine h.flagged ({ s.cached.runtime with stop_requested_ := true }.setCall caller
        .stop_notify) h.queue rfl rfl rfl rfl rfl (hsame .loop) (fun thread env he => ?_) h.placed
        h.draining h.busy
      exact h.inputs thread env (hsame (.foreign thread) ▸ he)
  | stop_notified _ hc =>
      have hout : s.cached.runtime.notify.post_next caller [] =
          s.cached.runtime.notify.setCall caller .outside := rfl
      refine .still (hout ▸ h.post_next s.cached.runtime.notify rfl rfl rfl (Or.inl rfl) caller []
        (fun ho => ?_) fun _ _ _ => nofun)
      subst ho
      exact (henvs hc).symm

theorem follows_fire (h : Refines program s a) (ht : s.todo = [])
    (hout : s.cached.runtime.calls .loop = .outside) (hd : a.draining = false) :
    Follows program a { s with cached := { s.cached with
      runtime := s.cached.runtime.fire_due .loop } } := by
  have hw := h.settled ht
  obtain ⟨collected, records, fired, hfire, hnodup, hfired, henvs, hbound, htimed⟩ := hw.timed.fire
  have hruntime : s.cached.runtime.fire_due .loop =
      { s.cached.runtime with timers_ := collected }.post_next .loop
        (fired.map fun timer : ι × Armed π => timer.2.env.map .other) := by
    simp only [Runtime.State.fire_due, hfire, henvs]
  rw [hruntime]
  have hcalls (other : Runtime.Caller τ) := envelopes_post_next
    { s.cached.runtime with timers_ := collected } .loop other
    (fired.map fun timer : ι × Armed π => timer.2.env.map (.other : π → Payload V π))
  refine .moves (.fire fired (h.outbox_nil ht hout) hd hnodup fun timer htimer => ?_) ?_
  · rw [h.now]
    exact hfired timer htimer
  · let world : World V π ι :=
      { a.toWorld with
        timers := fun dst => if dst ∈ fired.map Prod.fst then none else a.timers dst
        outbox := fired.map fun timer => timer.2.env.map .other }
    refine ⟨⟨s.cached.runtime.now, world, ?_, ⟨hw.slots, hw.registry, hw.session,
      (hcalls .loop).symm, ?_, ?_⟩, ?_⟩, h.objects, ?_, ?_, ?_, ?_, ?_, fun thread env he => ?_,
      ?_, ?_, ?_⟩
    · rw [Runtime.State.now_post_next]
    · simp only [Runtime.State.timers_post_next, Runtime.State.now_post_next]
      exact htimed
    · simp only [Runtime.State.timers_post_next, Runtime.State.stage_post_next, hbound]
      exact hw.bound
    · rw [ht]
      rfl
    · simpa using h.queue
    · simpa using h.dispatched
    · simpa using h.stopping
    · rw [Runtime.State.now_post_next]
      exact h.now
    · rw [Runtime.State.now_post_next]
      exact h.nonneg
    · rw [hcalls, if_neg (by simp)] at he
      exact h.inputs thread env he
    · simpa using h.placed
    · simpa using h.draining
    · exact absurd ht

theorem follows_loop (h : Refines program s a) (ht : s.todo = [])
    (hout : s.cached.runtime.calls .loop = .outside) {r : Runtime.State (Payload V π) τ}
    (hr : s.cached.runtime.loop program.config = some r) :
    Follows program a (({ s with cached := { s.cached with runtime := r } } :
      App.State V π τ n ι M).enter program) := by
  have hplaced := h.placed
  have hdrain := h.draining
  have hdraining (hd : s.cached.runtime.pc.drains = false) : a.draining = false := by
    by_contra hc
    exact nomatch hd.symm.trans (hdrain (by simpa using hc))
  cases Runtime.State.loop_rule hr with
  | construct i hp =>
      rw [hp] at hplaced
      cases i with
      | zero =>
          exact follows_begin_on_start h ht hout (hdraining (by rw [hp]; rfl)) hplaced
            (Nat.zero_le _) ⟨rfl, rfl, rfl, rfl, rfl⟩
      | succ i =>
          refine h.walk ht ⟨rfl, rfl, rfl, rfl, rfl⟩ hplaced (fun hd => ?_) rfl
          rw [hp] at hdrain
          exact hdrain hd
  | on_start i hp =>
      rw [hp] at hplaced
      exact follows_begin_on_start h ht hout (hdraining (by rw [hp]; rfl)) hplaced.1 hplaced.2
        ⟨rfl, rfl, rfl, rfl, rfl⟩
  | wait_lock hp | no_timer hp | timer _ hp | reading _ hp | awake _ hp | park _ hp | timed_out _ hp
  | again _ hp | woken hp | unstopped hp =>
      rw [hp] at hplaced
      exact h.walk ht ⟨rfl, rfl, rfl, rfl, rfl⟩ hplaced (by rw [hp] at hdrain; exact hdrain) rfl
  | fired hp | stopped hp =>
      rw [hp] at hplaced
      exact h.walk ht ⟨rfl, rfl, rfl, rfl, rfl⟩ hplaced (fun _ => rfl) rfl
  | returned hp =>
      rw [hp] at hplaced
      refine h.walk ht ⟨rfl, rfl, rfl, rfl, rfl⟩ ?_ (by rw [hp] at hdrain; exact hdrain) rfl
      simp only [Placed, hplaced.2, ite_true]
      exact hplaced.1
  | fire hp =>
      rw [hp] at hplaced
      have hd := hdraining (by rw [hp]; rfl)
      have hfiring : Quiet s.cached.runtime { s.cached.runtime with pc := .firing } :=
        ⟨rfl, rfl, rfl, rfl, rfl⟩
      have hnext := h.relocate ht hfiring a.phase hplaced fun hdrain => nomatch hd.symm.trans hdrain
      have hserve := Runtime.State.pc_fire_due s.cached.runtime
        (p := fun pc => pc.serves = false) rfl fun _ => rfl
      rw [enter_idle hserve]
      exact follows_fire hnext ht hout hd
  | take drain hp => exact follows_take h ht hout hp
  | handled drain hp =>
      rw [hp] at hplaced
      exact h.walk ht ⟨rfl, rfl, rfl, rfl, rfl⟩ hplaced (fun _ => rfl) rfl
  | discard hp => exact follows_discard h ht hout hp
  | on_stop i hp => exact follows_on_stop h ht hout hp
  | destroy i hp =>
      rw [hp] at hplaced
      exact follows_begin_destroy h ht hout hplaced.1 hplaced.2
  | clear_timers hp =>
      rw [enter_idle rfl]
      exact follows_clear h ht hout hp
  | clear_flags hp =>
      rw [enter_idle rfl]
      exact follows_finish h ht hout hp

theorem follows_call (h : Refines program s a) {caller : Runtime.Caller τ} {op : Runtime.Op π}
    (hadmits : s.admits program (.call caller op) = true)
    (hmay : s.cached.runtime.mayCall caller = true) :
    Follows program a { s with cached := { s.cached with
      runtime := s.cached.runtime.begin_op caller (op.map .other) } } := by
  have hout := Runtime.State.mayCall_outside hmay
  cases op with
  | post env =>
      simp only [App.State.admits, Bool.and_eq_true, Bool.or_eq_true, decide_eq_true_eq] at hadmits
      obtain ⟨hinput, hwho⟩ := hadmits
      cases caller with
      | foreign thread =>
          refine .still (h.post_next s.cached.runtime rfl rfl rfl (Or.inr rfl) (.foreign thread)
            [env.map .other] nofun fun _ _ other ho => ?_)
          exact ⟨env, hinput, List.mem_singleton.mp ho⟩
      | loop =>
          obtain ⟨ht, hd⟩ := h.idle (hwho.resolve_left nofun)
          have hw := h.settled ht
          refine .moves (.own env hinput (h.outbox_nil ht hout) hd) ?_
          refine ⟨⟨s.cached.runtime.now, { a.toWorld with outbox := [env.map .other] }, le_rfl,
            ⟨hw.slots, hw.registry, hw.session, (envelopes_post s.cached.runtime _).symm, hw.timed,
              hw.bound⟩, ?_⟩, h.objects, h.queue, h.dispatched, h.stopping, h.now, h.nonneg,
            fun thread other ho => ?_, h.placed, h.draining, h.busy⟩
          · rw [ht]
            rfl
          · refine h.inputs thread other ?_
            have hcalls := envelopes_post_next s.cached.runtime .loop (.foreign thread)
              [env.map (.other : π → Payload V π)]
            rw [if_neg (by simp)] at hcalls
            exact hcalls ▸ ho
  | stop =>
      refine .still (h.setCall ?_)
      rw [hout]
      rfl
  | arm | cancel => exact nomatch hadmits
  | fire_due =>
      simp only [App.State.admits, Bool.and_eq_true, decide_eq_true_eq] at hadmits
      obtain ⟨hwho, hp⟩ := hadmits
      cases caller with
      | foreign thread => exact nomatch hwho
      | loop =>
          obtain ⟨ht, hd⟩ := h.idle hp
          exact follows_fire h ht hout hd

-- The next request of the module is met, and changes nothing that shows.
theorem refines_act (h : Refines program s a) {act : App.Act V π ι} {todo : List (App.Act V π ι)}
    (ht : s.todo = act :: todo) (hready : s.cached.ready = true) :
    ∃ u, s.perform program act = some u ∧ Refines program { u with todo := todo } a := by
  obtain ⟨since, w, hle, hw, hall⟩ := h.world
  rw [ht] at hall
  obtain ⟨v, hv, hrest⟩ := Option.bind_eq_some_iff.mp hall
  obtain ⟨u, hu, hmirrors, hperformed⟩ := perform_mirrors hw hready h.nonneg hle hv
  have hserves := h.busy (by rw [ht]; exact List.cons_ne_nil _ _)
  refine ⟨u, hu, ⟨since, v, ?_, { hmirrors with }, hrest⟩, ?_, ?_, ?_, ?_, ?_, ?_,
    fun thread env he => ?_, ?_, ?_, fun _ => ?_⟩
  · exact hperformed.now ▸ hle
  · exact h.objects.trans hperformed.objects.symm
  · rw [hperformed.ledger]
    exact h.queue
  · rw [hperformed.ledger]
    exact h.dispatched
  · rw [hperformed.ledger]
    exact h.stopping
  · exact h.now.trans hperformed.now.symm
  · exact hperformed.now ▸ h.nonneg
  · rw [hperformed.foreign] at he
    exact h.inputs thread env he
  · rw [hperformed.stage, hperformed.pc]
    exact h.placed
  · rw [hperformed.pc]
    exact h.draining
  · rw [hperformed.pc]
    exact hserves

-- A step of the runtime, up to where a module takes over.
theorem follows_runtime (h : Refines program s a) {event : Runtime.Event π τ}
    (hadmits : s.admits program event = true) {r : Runtime.State (Payload V π) τ}
    (hr : s.cached.runtime.step program.config (event.map .other) = some r)
    (hother : event ≠ .start ∧ event ≠ .loop) :
    Follows program a { s with cached := { s.cached with runtime := r } } := by
  have hplaced := h.placed
  -- A call of a lifecycle function, which fails if it comes too early.
  have henter (htop : s.cached.runtime.atTop = true) (pc : Runtime.Pc)
      (events : List (Runtime.LogEvent (Payload V π) τ)) (reason : String)
      (hreason : reason ∈ misuses)
      (hpc : ∀ phase, Placed program.config true phase pc ↔
        phase = .running program.config.modules.length) :
      Follows program a { s with cached := { s.cached with
        runtime := s.cached.runtime.enter pc events reason } } := by
    have hp := Runtime.State.atTop_pc htop
    rw [hp] at hplaced
    have hquiet : Quiet s.cached.runtime (s.cached.runtime.enter pc events reason) := by
      unfold Runtime.State.enter
      split_ifs <;> exact ⟨rfl, rfl, rfl, rfl, rfl⟩
    obtain ⟨ht, hd⟩ := h.idle hp
    refine .still (h.relocate ht hquiet a.phase ?_ fun hdrain => nomatch hd.symm.trans hdrain)
    unfold Runtime.State.enter
    split_ifs with hstarted
    · rw [hstarted] at hplaced
      have := (hpc a.phase).mpr hplaced
      simpa [Runtime.State.note, hstarted] using this
    · exact hreason
  cases event with
  | start => exact absurd rfl hother.1
  | loop => exact absurd rfl hother.2
  | tick now =>
      cases (Runtime.State.step_rule hr).2 with
      | tick _ hle =>
          obtain ⟨since, w, hs, hw, hall⟩ := h.world
          refine .moves (.tick now (h.now ▸ hle)) ?_
          exact { h with
            world := ⟨since, w, hs.trans hle, { hw with timed := hw.timed.later hle }, hall⟩
            now := rfl
            nonneg := h.nonneg.trans hle }
  | call caller op =>
      cases (Runtime.State.step_rule hr).2 with
      | call _ _ hmay => exact follows_call h hadmits hmay
  | advance caller =>
      have hup := (Runtime.State.step_rule hr).1
      have hadvance : s.cached.runtime.advance caller = some r := by
        simpa [Runtime.State.step, hup, Runtime.Event.map] using hr
      exact follows_advance h hadvance
  | run =>
      cases (Runtime.State.step_rule hr).2 with
      | run htop => exact henter htop .wait_lock [] _ (by simp [misuses]) fun _ => and_iff_left rfl
  | run_one =>
      cases (Runtime.State.step_rule hr).2 with
      | run_one htop =>
          exact henter htop (.take .user) [] _ (by simp [misuses]) fun _ => and_iff_left rfl
  | shutdown =>
      cases (Runtime.State.step_rule hr).2 with
      | shutdown htop =>
          exact henter htop (.take (.shutdown 0)) [.shutdown] _ (by simp [misuses]) fun _ =>
            and_iff_left rfl
  | wake =>
      cases (Runtime.State.step_rule hr).2 with
      | wake wait notified hp =>
          rw [hp] at hplaced
          refine .still (h.frame { s.cached.runtime with pc := .relock wait false } rfl rfl rfl rfl
            rfl rfl rfl h.inputs hplaced (fun hd => ?_) fun hne => ?_)
          · have := h.draining hd
            rw [hp] at this
            cases this
          · have := h.busy hne
            rw [hp] at this
            cases this
  | timeout =>
      cases (Runtime.State.step_rule hr).2 with
      | timeout next reading notified hp =>
          rw [hp] at hplaced
          refine .still (h.frame { s.cached.runtime with
            pc := .relock (.bounded next reading) true } rfl rfl rfl rfl rfl rfl rfl h.inputs
            hplaced (fun hd => ?_) fun hne => ?_)
          · have := h.draining hd
            rw [hp] at this
            cases this
          · have := h.busy hne
            rw [hp] at this
            cases this

-- The interleaved application does nothing that the atomic one does not do.
theorem follows_step (h : Refines program s a) {event : App.Event π τ}
    (hs : s.step program event = some t) : Follows program a t := by
  cases event with
  | act =>
      simp only [App.State.step] at hs
      split at hs
      · exact nomatch hs
      · rename_i act todo ht
        split_ifs at hs with hready
        obtain ⟨u, hu, hrefines⟩ := refines_act h ht hready
        rw [hu] at hs
        obtain rfl := Option.some.inj hs
        exact .still hrefines
  | runtime event =>
      simp only [App.State.step] at hs
      by_cases hadmits : s.admits program event = true
      · rw [if_pos hadmits] at hs
        obtain ⟨u, hu, rfl⟩ := Option.map_eq_some_iff.mp hs
        obtain ⟨cached, hcached, rfl⟩ := Option.map_eq_some_iff.mp hu
        obtain ⟨r, hr, rfl⟩ := Option.map_eq_some_iff.mp hcached
        cases event with
        | start =>
            cases (Runtime.State.step_rule hr).2 with
            | start htop => exact follows_start h htop
        | loop =>
            cases (Runtime.State.step_rule hr).2 with
            | loop _ hout hloop => exact follows_loop h (List.isEmpty_iff.mp hadmits) hout hloop
        | _ => exact follows_runtime h hadmits hr ⟨nofun, nofun⟩
      · rw [if_neg hadmits] at hs
        exact nomatch hs

-- The abstract application, and whether it can fail.
def Reaches (program : App.Program V π ι M) (n : Nat) : State V π ι M → State V π ι M → Prop :=
  Relation.ReflTransGen fun a b => State.Step program n a (some b)

def CanFail (program : App.Program V π ι M) (n : Nat) (a : State V π ι M) : Prop :=
  ∃ b, Reaches program n a b ∧ State.Step program n b none

theorem run_refines (h : Refines program s a) {events : List (App.Event π τ)}
    (hr : (App.State.machine τ program n).run s events = some t) :
    CanFail program n a ∨ ∃ b, Reaches program n a b ∧ Refines program t b := by
  induction events generalizing s a with
  | nil =>
      obtain rfl := Option.some.inj hr
      exact Or.inr ⟨a, .refl, h⟩
  | cons event events ih =>
      obtain ⟨mid, hs, hrest⟩ := Machine.run_cons_some hr
      cases follows_step h hs with
      | inl hfail => exact Or.inl ⟨a, .refl, hfail⟩
      | inr hnext =>
          obtain ⟨b, hb, hmid⟩ := hnext
          have hab : Reaches program n a b := by
            cases hb with
            | inl heq => exact heq ▸ .refl
            | inr hstep => exact .single hstep
          cases ih hmid hrest with
          | inl hfail =>
              obtain ⟨c, hc, hfail⟩ := hfail
              exact Or.inl ⟨c, hab.trans hc, hfail⟩
          | inr hlast =>
              obtain ⟨c, hc, hlast⟩ := hlast
              exact Or.inr ⟨c, hab.trans hc, hlast⟩

-- However the other threads interleave with it, an application whose modules ask for
-- one thing after the other does what it does when they run at once, unless that fails.
theorem interleaving_atomic (hr : (App.State.machine τ program n).Reachable s) :
    CanFail program n (.init program) ∨
      ∃ a, Reaches program n (.init program) a ∧ Refines program s a := by
  obtain ⟨events, hrun⟩ := hr
  exact run_refines refines_init hrun

theorem State.Preserved.reaches {I : State V π ι M → Prop} (hI : State.Preserved program n I)
    {b : State V π ι M} (ha : I a) (h : Reaches program n a b) : I b := by
  induction h with
  | refl => exact ha
  | tail _ hstep ih =>
      obtain ⟨c, hc, hinv⟩ := hI _ _ ih hstep
      exact Option.some.inj hc ▸ hinv

theorem State.Preserved.step {I : State V π ι M → Prop} (hI : State.Preserved program n I)
    (ha : I a) (h : Refines program s a) {event : App.Event π τ}
    (hs : s.step program event = some t) :
    ∃ b, I b ∧ (b = a ∨ State.Step program n a (some b)) ∧ Refines program t b := by
  cases follows_step h hs with
  | inl hfail =>
      obtain ⟨c, hc, _⟩ := hI _ _ ha hfail
      exact nomatch hc
  | inr hnext =>
      obtain ⟨b, hb, ht⟩ := hnext
      refine ⟨b, ?_, hb, ht⟩
      cases hb with
      | inl heq => exact heq ▸ ha
      | inr hstep =>
          obtain ⟨c, hc, hinv⟩ := hI _ _ ha hstep
          exact Option.some.inj hc ▸ hinv

-- An invariant of the atomic application that excludes all failures holds of what
-- the interleaved one refines, at the end of each of its runs.
theorem State.Preserved.run {I : State V π ι M → Prop} (hI : State.Preserved program n I)
    (ha : I a) (h : Refines program s a) {events : List (App.Event π τ)}
    (hr : (App.State.machine τ program n).run s events = some t) :
    ∃ b, I b ∧ Refines program t b := by
  cases run_refines h hr with
  | inl hfail =>
      obtain ⟨b, hb, hstep⟩ := hfail
      obtain ⟨c, hc, _⟩ := hI _ _ (hI.reaches ha hb) hstep
      exact nomatch hc
  | inr hnext =>
      obtain ⟨b, hb, ht⟩ := hnext
      exact ⟨b, hI.reaches ha hb, ht⟩

theorem State.Preserved.reachable {I : State V π ι M → Prop} (hI : State.Preserved program n I)
    (hinit : I (.init program)) (hr : (App.State.machine τ program n).Reachable s) :
    ∃ a, I a ∧ Refines program s a := by
  obtain ⟨events, hrun⟩ := hr
  exact hI.run hinit refines_init hrun

-- An application that the atomic one excludes the failures of breaks no assertion, and
-- nothing that its modules ask for is refused.
theorem State.Preserved.safe {I : State V π ι M → Prop} (hI : State.Preserved program n I)
    (hinit : I (.init program)) (hr : (App.State.machine τ program n).Reachable s) :
    (∀ reason, s.cached.runtime.pc = .fault reason → reason ∈ misuses) ∧
      (s.todo ≠ [] → s.cached.ready = true → ∃ t, s.step program .act = some t) := by
  obtain ⟨a, -, href⟩ := hI.reachable hinit hr
  refine ⟨fun reason hp => ?_, fun hne hready => ?_⟩
  · have hplaced := href.placed
    rw [hp] at hplaced
    exact hplaced
  · cases ht : s.todo with
    | nil => exact absurd ht hne
    | cons act todo =>
        obtain ⟨t, hperform, -⟩ := refines_act href ht hready
        exact ⟨_, by simp [App.State.step, ht, hready, hperform]; rfl⟩

omit [DecidableEq κ] [DecidableEq ι] in
-- Nothing but `start` has the modules constructed.
theorem idle_unstarted {config : Runtime.Config} {r next : Runtime.State (Payload V π) τ}
    {event : Runtime.Event (Payload V π) τ} (hp : r.pc = .idle)
    (h : r.step config event = some next) (hne : event ≠ .start) :
    event ≠ .loop ∧ next.pc.starting = false := by
  have henter (pc : Runtime.Pc) (events : List (Runtime.LogEvent (Payload V π) τ))
      (reason : String) (hpc : pc.starting = false) :
      (r.enter pc events reason).pc.starting = false := by
    unfold Runtime.State.enter
    split_ifs
    · exact hpc
    · rfl
  have hidle : r.pc.starting = false := by rw [hp]; rfl
  cases (Runtime.State.step_rule h).2 with
  | tick now _ => exact ⟨by simp, hidle⟩
  | call caller op hmay =>
      refine ⟨by simp, ?_⟩
      cases (Runtime.State.begin_op_frame r caller op).2.2 with
      | inl hpc => rw [hpc]; exact hidle
      | inr hfault =>
          obtain ⟨reason, hpc⟩ := hfault
          rw [hpc]
          rfl
  | post_dropped caller env rest => exact ⟨by simp, by simpa using hidle⟩
  | post_tested caller env rest => exact ⟨by simp, hidle⟩
  | post_refused caller env rest => exact ⟨by simp, by simpa using hidle⟩
  | post_pushed caller env rest => exact ⟨by simp, hidle⟩
  | post_notified caller rest =>
      exact ⟨by simp, by simpa [Runtime.State.notify] using hidle⟩
  | stop_set caller => exact ⟨by simp, hidle⟩
  | stop_notified caller => exact ⟨by simp, by simpa [Runtime.State.notify] using hidle⟩
  | start => exact absurd rfl hne
  | run => exact ⟨by simp, henter _ _ _ rfl⟩
  | run_one => exact ⟨by simp, henter _ _ _ rfl⟩
  | shutdown => exact ⟨by simp, henter _ _ _ rfl⟩
  | loop next hout hloop =>
      unfold Runtime.State.loop at hloop
      rw [hp] at hloop
      cases hloop
  | wake wait notified hpc => cases hp.symm.trans hpc
  | timeout deadline reading notified hpc => cases hp.symm.trans hpc

theorem idle_stays (h : Refines program s a) (hp : s.cached.runtime.pc = .idle)
    {event : App.Event π τ} (hs : s.step program event = some t)
    (hne : event ≠ .runtime .start) : t.cached.runtime.pc.starting = false := by
  cases event with
  | act =>
      simp only [App.State.step] at hs
      split at hs
      · exact nomatch hs
      · rename_i act todo ht
        have hserves := h.busy (by rw [ht]; exact nofun)
        rw [hp] at hserves
        exact nomatch hserves
  | runtime event =>
      simp only [App.State.step] at hs
      by_cases hadmits : s.admits program event = true
      swap
      · rw [if_neg hadmits] at hs
        exact nomatch hs
      rw [if_pos hadmits] at hs
      obtain ⟨u, hu, rfl⟩ := Option.map_eq_some_iff.mp hs
      obtain ⟨cached, hcached, rfl⟩ := Option.map_eq_some_iff.mp hu
      obtain ⟨r, hr, rfl⟩ := Option.map_eq_some_iff.mp hcached
      have hmap : (event.map .other : Runtime.Event (Payload V π) τ) ≠ .start := by
        cases event with
        | start => exact absurd rfl hne
        | _ => exact nofun
      obtain ⟨hloop, hstarting⟩ := idle_unstarted hp hr hmap
      cases event with
      | start => exact absurd rfl hne
      | loop => exact absurd rfl hloop
      | _ => exact hstarting

-- No step is taken after a failure.
theorem not_faulted (h : Refines program s a) {event : App.Event π τ}
    (hs : s.step program event = some t) : s.cached.runtime.pc.faulted = false := by
  cases event with
  | act =>
      simp only [App.State.step] at hs
      split at hs
      · exact nomatch hs
      · rename_i act todo ht
        have hserves := h.busy (by rw [ht]; exact nofun)
        cases hp : s.cached.runtime.pc with
        | fault reason =>
            rw [hp] at hserves
            exact nomatch hserves
        | _ => rfl
  | runtime event =>
      simp only [App.State.step] at hs
      by_cases hadmits : s.admits program event = true
      · rw [if_pos hadmits] at hs
        obtain ⟨u, hu, rfl⟩ := Option.map_eq_some_iff.mp hs
        obtain ⟨cached, hcached, rfl⟩ := Option.map_eq_some_iff.mp hu
        obtain ⟨r, hr, rfl⟩ := Option.map_eq_some_iff.mp hcached
        exact (Runtime.State.step_rule hr).1
      · rw [if_neg hadmits] at hs
        exact nomatch hs

-- The modules begin to be constructed in no other step than that of `start`.
theorem State.Step.running {o : Option (State V π ι M)} (hs : State.Step program n a o)
    (hphase : ∀ k, a.phase ≠ .running k) {b : State V π ι M} (hb : o = some b) :
    (∀ k, b.phase ≠ .running k) ∨ a.phase = .down ∧ b.phase = .running 0 := by
  cases hs with
  | dispatch env rest hp => exact absurd hp (hphase _)
  | pause hp => exact absurd hp (hphase _)
  | on_start i hp => exact absurd hp (hphase _)
  | discard hp => exact absurd hp (hphase _)
  | stale => exact nomatch hb
  | start hp =>
      obtain rfl := Option.some.inj hb
      exact Or.inr ⟨hp, rfl⟩
  | destroy i hp hi hout =>
      obtain ⟨world, _, rfl⟩ := Option.map_eq_some_iff.mp hb
      exact Or.inl nofun
  | clear =>
      obtain rfl := Option.some.inj hb
      exact Or.inl nofun
  | finish =>
      obtain rfl := Option.some.inj hb
      exact Or.inl nofun
  | _ =>
      obtain rfl := Option.some.inj hb
      exact Or.inl hphase

theorem placed_booting {config : Runtime.Config} {started_ : Bool} {pc : Runtime.Pc}
    (h : Placed config started_ (.running 0) pc) (hne : config.modules ≠ []) :
    pc.starting = true ∨ pc.faulted = true := by
  have hlength : Phase.running 0 ≠ .running config.modules.length := fun he =>
    hne (List.length_eq_zero_iff.mp (Phase.running.inj he).symm)
  cases pc with
  | construct | on_start => exact Or.inl rfl
  | fault => exact Or.inr rfl
  | idle =>
      cases started_ with
      | true => exact absurd h hlength
      | false => exact nomatch h
  | on_stop | destroy | clear_timers | clear_flags => exact nomatch h
  | _ => exact absurd h.1 hlength

end Atomic

namespace App

-- A run of an application, and what is read off its last state.
section Reads

variable {κ : Type*} {V : κ → Type*} {π ι M β : Type*} {n : Nat} [DecidableEq κ] [DecidableEq ι]

-- Steps of the loop, of the module that it has called, and of posts on its thread.
def steps (count : Nat) : List (Event π Nat) := List.replicate count (.runtime .loop)

def acts (count : Nat) : List (Event π Nat) := List.replicate count .act

def posts (count : Nat) : List (Event π Nat) :=
  List.replicate (3 * count) (.runtime (.advance .loop))

abbrev after (program : Program V π ι M) (n : Nat) (events : List (Event π Nat)) :
    Option (State V π Nat n ι M) :=
  (State.machine Nat program n).run (.init program) events

-- The runtime runs, between the calls of its modules, and accepts posts.
def State.rests (s : State V π Nat n ι M) : Bool :=
  match s.cached.runtime.calls .loop with
  | .outside => s.cached.runtime.started_ && s.cached.runtime.pc.runs && s.todo.isEmpty &&
      !s.cached.runtime.stop_requested_
  | _ => false

theorem of_reads {program : Program V π ι M} {events : List (Event π Nat)}
    {read : State V π Nat n ι M → β} {x : β}
    (h : (after program n events).map (fun s => (s.rests, read s)) = some (true, x)) :
    ∃ s, (State.machine Nat program n).Reachable s ∧ s.Running ∧ s.todo = [] ∧
      s.cached.runtime.calls .loop = .outside ∧ s.cached.runtime.stop_requested_ = false ∧
      read s = x := by
  obtain ⟨s, hs, hreads⟩ := Option.map_eq_some_iff.mp h
  obtain ⟨hrests, hread⟩ := Prod.mk.inj hreads
  unfold State.rests at hrests
  split at hrests
  · next hout =>
      simp only [Bool.and_eq_true, List.isEmpty_iff, Bool.not_eq_true'] at hrests
      obtain ⟨⟨hrun, htodo⟩, hstop⟩ := hrests
      exact ⟨s, ⟨events, hs⟩, hrun, htodo, hout, hstop, hread⟩
  · cases hrests

end Reads

end App

end CortexFlow
