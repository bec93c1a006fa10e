import CortexFlow.Routing.Basic

namespace CortexFlow

open Lib

def Runtime.Pc.handling : Pc → Bool
  | .handle _ => true
  | _ => false

namespace Routing

variable {T : Type*} {V : T → Type*} {τ : Type*} {c : Composition T}

-- The runtime is about to dispatch the envelope.
def Dispatching (c : Composition T) (runtime : Runtime.State (Object V) τ)
    (env : Envelope (Object V)) : Prop :=
  ∃ drain post queue, runtime.pc = .take drain ∧
    Runtime.State.budgetSpent c.config drain = false ∧ runtime.queue_ = post :: queue ∧
      post.env = env

theorem dispatching_unique {runtime : Runtime.State (Object V) τ} {env other : Envelope (Object V)}
    (h : Dispatching c runtime env) (ho : Dispatching c runtime other) : env = other := by
  obtain ⟨_, post, queue, _, _, hqueue, rfl⟩ := h
  obtain ⟨_, post', queue', _, _, hqueue', rfl⟩ := ho
  rw [hqueue] at hqueue'
  rw [(List.cons.inj hqueue').1]

theorem dispatching_holds {runtime : Runtime.State (Object V) τ} {env : Envelope (Object V)}
    (h : Dispatching c runtime env) : runtime.Holds env := by
  obtain ⟨_, post, queue, _, _, hqueue, rfl⟩ := h
  exact Or.inl ⟨post, hqueue ▸ List.mem_cons_self, rfl⟩

-- An envelope carries the id of the type its payload was constructed as.
def Stamped (c : Composition T) (env : Envelope (Object V)) : Prop :=
  env = c.envelope env.from_ env.to_ env.payload_

namespace Composition

theorem stamped_envelope (c : Composition T) (from_ to_ : type_id_t) (msg : Object V) :
    Stamped c (c.envelope from_ to_ msg) := rfl

theorem findIdx_spec {c : Composition T} {to_ : type_id_t} {i : Nat}
    (h : (c.config.modules.findIdx? fun id => id = to_) = some i) :
    ∃ mod, c.ModuleList[i]? = some mod ∧ mod.kTypeId = to_ := by
  obtain ⟨hi, hid, _⟩ := List.findIdx?_eq_some_iff_getElem.mp h
  have hlen : i < c.ModuleList.length := by simpa [config] using hi
  refine ⟨c.ModuleList[i], List.getElem?_eq_getElem hlen, ?_⟩
  simpa [config] using hid

theorem findIdx_none {c : Composition T} {to_ : type_id_t}
    (h : (c.config.modules.findIdx? fun id => id = to_) = none) (mod : ModuleType T)
    (hmod : mod ∈ c.ModuleList) : mod.kTypeId ≠ to_ := by
  have hall := List.findIdx?_eq_none_iff.mp h mod.kTypeId (List.mem_map.mpr ⟨mod, hmod, rfl⟩)
  simpa using hall

-- Two modules with one id are the same module.
theorem module_unique (c : Composition T) {i j : Nat} {mod other : ModuleType T}
    (hi : c.ModuleList[i]? = some mod) (hj : c.ModuleList[j]? = some other)
    (h : mod.kTypeId = other.kTypeId) : i = j := by
  obtain ⟨hilt, hmod⟩ := List.getElem?_eq_some_iff.mp hi
  obtain ⟨hjlt, hother⟩ := List.getElem?_eq_some_iff.mp hj
  have hnodup := c.modules_distinct
  rw [List.nodup_iff_injective_getElem] at hnodup
  have heq := @hnodup ⟨i, by simpa using hilt⟩ ⟨j, by simpa using hjlt⟩
    (by simpa [hmod, hother] using h)
  exact congrArg Fin.val heq

variable [DecidableEq T]

-- The dispatch table has an entry for the payload's type or none that fits.
theorem handle_eq {c : Composition T} {env : Envelope (Object V)} (h : Stamped c env)
    (Msgs : List T) :
    c.handle env Msgs =
      if env.payload_.ty ∈ Msgs then some (.on env.payload_.ty env.payload_.value) else none := by
  induction Msgs with
  | nil => rfl
  | cons Msg Msgs ih =>
      have hid : env.type_id_ = c.type_id env.payload_.ty := congrArg Envelope.type_id_ h
      unfold handle
      by_cases hMsg : Msg = env.payload_.ty
      · subst hMsg
        rw [if_pos hid.symm, if_pos List.mem_cons_self, dispatch_handler, Object.payload,
          dif_pos rfl]
      · have hne : c.type_id Msg ≠ env.type_id_ := by
          intro heq
          exact hMsg (c.messages_distinct (heq.trans hid))
        have hmem : env.payload_.ty ∈ Msg :: Msgs ↔ env.payload_.ty ∈ Msgs := by
          rw [List.mem_cons]
          exact or_iff_right (Ne.symm hMsg)
        rw [if_neg hne, ih]
        simp only [hmem]

end Composition

namespace State

theorem called_of_not_handling {runtime : Runtime.State (Object V) τ}
    (h : runtime.pc.handling = false) : called runtime = none := by
  unfold called
  split
  · rename_i hpc _
    rw [hpc] at h
    exact nomatch h
  · rfl

-- What a step of the owning thread calls: the module with the envelope's target
-- id, when it is about to dispatch one, and nothing otherwise.
inductive Calls (c : Composition T) (runtime next : Runtime.State (Object V) τ) : Prop
  | nothing : called next = none →
      (∀ env, Dispatching c runtime env →
        next.pc.faulted = true ∧ ∀ mod ∈ c.ModuleList, mod.kTypeId ≠ env.to_) →
      Calls c runtime next
  | handle (i : Nat) (env : Envelope (Object V)) (mod : ModuleType T) :
      called next = some (i, env) → Dispatching c runtime env → next.pc.faulted = false →
      c.ModuleList[i]? = some mod → mod.kTypeId = env.to_ → Calls c runtime next

theorem calls_take {runtime : Runtime.State (Object V) τ} {drain : Runtime.Drain}
    (hp : runtime.pc = .take drain) : Calls c runtime (runtime.take c.config drain) := by
  have hdrained : called (runtime.drained drain) = none := by
    apply called_of_not_handling
    cases drain <;> rfl
  unfold Runtime.State.take
  by_cases hspent : Runtime.State.budgetSpent c.config drain = true
  · rw [if_pos hspent]
    refine .nothing hdrained fun env henv => ?_
    obtain ⟨other, _, _, ho, hbudget, _⟩ := henv
    obtain rfl : drain = other := Runtime.Pc.take.inj (hp.symm.trans ho)
    rw [hspent] at hbudget
    exact nomatch hbudget
  · rw [if_neg hspent]
    cases hqueue : runtime.queue_ with
    | nil =>
        refine .nothing hdrained fun env henv => ?_
        obtain ⟨_, _, _, _, _, ho, _⟩ := henv
        rw [hqueue] at ho
        exact nomatch ho
    | cons post queue =>
        have hdispatching : Dispatching c runtime post.env :=
          ⟨drain, post, queue, hp, by simpa using hspent, hqueue, rfl⟩
        simp only
        cases hfind : c.config.modules.findIdx? fun id => id = post.env.to_ with
        | none =>
            refine .nothing (called_of_not_handling rfl) fun env henv => ⟨rfl, ?_⟩
            rw [dispatching_unique henv hdispatching]
            exact Composition.findIdx_none hfind
        | some i =>
            obtain ⟨mod, hmod, hid⟩ := Composition.findIdx_spec hfind
            refine .handle i post.env mod ?_ hdispatching rfl hmod hid
            simp [called, Runtime.State.note]

variable [DecidableEq τ]

theorem calls_loop {runtime next : Runtime.State (Object V) τ}
    (h : runtime.loop c.config = some next) : Calls c runtime next := by
  have hmove {u : Runtime.State (Object V) τ} (htake : ∀ drain, runtime.pc ≠ .take drain)
      (hu : u.pc.handling = false) : Calls c runtime u := by
    refine .nothing (called_of_not_handling hu) fun env henv => ?_
    obtain ⟨drain, _, _, ho, _⟩ := henv
    exact absurd ho (htake drain)
  have hopening {pc : Runtime.Pc} (ho : pc.opening = true) : pc.handling = false := by
    cases pc <;> first | rfl | exact nomatch ho
  have hleaving {pc : Runtime.Pc} (hl : pc.leaving = true) : pc.handling = false := by
    cases pc <;> first | rfl | exact nomatch hl
  cases Runtime.State.loop_rule h with
  | take drain hp => exact calls_take hp
  | construct i hp =>
      exact hmove (by simp [hp]) (hopening (Runtime.State.opening_begin_construct ..))
  | on_start i hp =>
      exact hmove (by simp [hp]) (hopening (Runtime.State.opening_begin_on_start ..))
  | discard hp => exact hmove (by simp [hp]) (hleaving (Runtime.State.leaving_discard ..))
  | on_stop i hp => exact hmove (by simp [hp]) (hleaving (Runtime.State.leaving_begin_on_stop ..))
  | destroy i hp => exact hmove (by simp [hp]) (hleaving (Runtime.State.leaving_begin_destroy ..))
  | fire hp =>
      exact hmove (by simp [hp])
        (Runtime.State.pc_fire_due runtime (p := fun pc => pc.handling = false) rfl fun _ => rfl)
  | wait_lock hp | no_timer hp | timer _ hp | reading _ hp | awake _ hp | park _ hp
  | timed_out _ hp | again _ hp | returned hp | woken hp | fired hp | stopped hp
  | unstopped hp | handled _ hp | clear_timers hp | clear_flags hp =>
      exact hmove (by simp [hp]) rfl

-- Every envelope in the runtime and in its timers is one of these.
structure Carried (runtime : Runtime.State (Object V) τ) (made : List (Envelope (Object V))) :
    Prop where
  held : ∀ env, runtime.Holds env → env ∈ made
  armed : ∀ entry, runtime.timers_.IsArmed entry → entry.envelope ∈ made

omit [DecidableEq τ] in
theorem Carried.fail {runtime : Runtime.State (Object V) τ} {made : List (Envelope (Object V))}
    (h : Carried runtime made) (reason : String) : Carried (runtime.fail reason) made :=
  ⟨fun env henv => h.held env (henv.of_subset (fun _ => id) rfl), h.armed⟩

-- The queue and the timers only pass envelopes on.
theorem carried_step {runtime next : Runtime.State (Object V) τ}
    {made later : List (Envelope (Object V))} {event : Runtime.Event (Object V) τ}
    (h : Carried runtime made) (hs : runtime.step c.config event = some next)
    (hlater : ∀ env ∈ made, env ∈ later)
    (hposted : ∀ caller env, event = .call caller (.post env) → env ∈ later)
    (harmed : ∀ caller delay env owner_name type_name,
      event = .call caller (.arm delay env owner_name type_name) → env ∈ later) :
    Carried next later := by
  constructor
  · intro env henv
    obtain hold | ⟨caller, hevent⟩ | ⟨entry, he, rfl⟩ := Runtime.State.holds_step hs henv
    · exact hlater env (h.held env hold)
    · exact hposted caller env hevent
    · exact hlater _ (h.armed entry he)
  · intro entry he
    obtain hold | ⟨_, caller, delay, owner_name, type_name, hevent⟩ :=
      (Runtime.State.timersStep hs).armed entry he
    · exact hlater _ (h.armed entry hold)
    · exact harmed caller delay _ owner_name type_name hevent

variable [DecidableEq T]

structure Sound (c : Composition T) (s : State V τ) : Prop where
  made : ∀ env ∈ s.made, Stamped c env
  carried : Carried s.runtime s.made
  running : ∀ i env, s.running = some (i, env) → s.envelope_ i = some env
  handled : ∀ run ∈ s.handled, run.2.cast = false

omit [DecidableEq τ] [DecidableEq T] in
theorem sound_init : Sound c (init : State V τ) where
  made := nofun
  carried := by
    refine ⟨fun env henv => ?_, fun entry he => absurd he (TimerService.isArmed_init entry)⟩
    obtain ⟨_, hpost, _⟩ | ⟨_, hcall⟩ := henv
    · exact nomatch hpost
    · exact nomatch hcall
  running := nofun
  handled := nofun

omit [DecidableEq τ] in
-- `Module::handle` runs the handler for the payload's type, or fails.
theorem handle_cases {s : State V τ} {i : Nat} {env : Envelope (Object V)} {mod : ModuleType T}
    (henv : Stamped c env) (hmod : c.ModuleList[i]? = some mod) :
    (env.payload_.ty ∈ mod.Inbox ∧ s.handle c i env =
        { s with
          envelope_ := Function.update s.envelope_ i (some env)
          running := some (i, env)
          handled := s.handled ++ [(i, .on env.payload_.ty env.payload_.value)] }) ∨
      (env.payload_.ty ∉ mod.Inbox ∧ s.handle c i env =
        { s with
          envelope_ := Function.update s.envelope_ i none
          runtime := s.runtime.fail "message type not in module inbox" }) := by
  have hbind : ((c.ModuleList[i]?).bind fun mod => c.handle env mod.Inbox) =
      if env.payload_.ty ∈ mod.Inbox then some (.on env.payload_.ty env.payload_.value)
      else none := by
    rw [hmod, Option.bind_some, Composition.handle_eq henv]
  unfold handle
  rw [hbind]
  by_cases hmem : env.payload_.ty ∈ mod.Inbox
  · rw [if_pos hmem]
    exact Or.inl ⟨hmem, rfl⟩
  · rw [if_neg hmem]
    exact Or.inr ⟨hmem, rfl⟩

omit [DecidableEq τ] [DecidableEq T] in
theorem running_returned (s : State V τ) : s.returned.running = none := by
  unfold returned
  split
  · assumption
  · rfl

omit [DecidableEq τ] [DecidableEq T] in
theorem returned_frame (s : State V τ) :
    s.returned.made = s.made ∧ s.returned.handled = s.handled ∧
      s.returned.runtime = s.runtime := by
  unfold returned
  split <;> exact ⟨rfl, rfl, rfl⟩

theorem sound_loop {s t : State V τ} (h : Sound c s) (hs : s.loop c = some t) : Sound c t := by
  obtain ⟨next, hnext, rfl⟩ := Option.map_eq_some_iff.mp hs
  obtain ⟨hmade, hhandled, _⟩ := returned_frame s
  have hcarried : Carried next s.made :=
    carried_step h.carried hnext (fun _ => id) nofun nofun
  have hmoved : Sound c { s.returned with runtime := next } := by
    refine ⟨fun env henv => h.made env (hmade ▸ henv), ?_, fun i env hrun => ?_, fun run hrun => ?_⟩
    · show Carried next s.returned.made
      rw [hmade]
      exact hcarried
    · exact nomatch (running_returned s).symm.trans hrun
    · exact h.handled run (hhandled ▸ hrun)
  obtain ⟨_, hrule⟩ := Runtime.State.step_rule hnext
  cases hrule with
  | loop _ _ hloop =>
      cases calls_loop hloop with
      | nothing hcalled _ =>
          simp only [hcalled]
          exact hmoved
      | handle i env mod hcalled hdispatching _ hmod _ =>
          simp only [hcalled]
          have henv : Stamped c env :=
            h.made env (h.carried.held env (dispatching_holds hdispatching))
          obtain ⟨_, heq⟩ | ⟨_, heq⟩ := handle_cases (s := { s.returned with runtime := next })
            henv hmod
          · rw [heq]
            refine ⟨hmoved.made, hmoved.carried, fun j other hrun => ?_, fun run hrun => ?_⟩
            · obtain ⟨rfl, rfl⟩ := Prod.mk.inj (Option.some.inj hrun)
              exact Function.update_self ..
            · cases List.mem_append.mp hrun with
              | inl hold => exact hmoved.handled run hold
              | inr hnew => exact List.mem_singleton.mp hnew ▸ rfl
          · rw [heq]
            refine ⟨hmoved.made, hmoved.carried.fail _, fun j other hrun => ?_, hmoved.handled⟩
            exact nomatch (running_returned s).symm.trans hrun

omit [DecidableEq T] in
theorem sound_call {s t : State V τ} (h : Sound c s) {caller : Runtime.Caller τ}
    {op : Runtime.Op (Object V)} {env : Envelope (Object V)} (henv : Stamped c env)
    (hop : op = .post env ∨ ∃ delay owner_name type_name, op = .arm delay env owner_name type_name)
    (hs : s.call c caller op env = some t) : Sound c t := by
  obtain ⟨next, hnext, rfl⟩ := Option.map_eq_some_iff.mp hs
  have hnew : env ∈ s.made ++ [env] := List.mem_append_right _ (List.mem_singleton_self env)
  refine ⟨fun other ho => ?_, ?_, h.running, h.handled⟩
  · cases List.mem_append.mp ho with
    | inl hold => exact h.made other hold
    | inr hlast => exact List.mem_singleton.mp hlast ▸ henv
  · refine carried_step h.carried hnext (fun _ => List.mem_append_left _) ?_ ?_
    · intro by_ other hevent
      have hsame := (Runtime.Event.call.inj hevent).2
      obtain rfl | ⟨_, _, _, rfl⟩ := hop
      · rwa [← Runtime.Op.post.inj hsame]
      · exact nomatch hsame
    · intro by_ delay other owner_name type_name hevent
      have hsame := (Runtime.Event.call.inj hevent).2
      obtain rfl | ⟨_, _, _, rfl⟩ := hop
      · exact nomatch hsame
      · rwa [← (Runtime.Op.arm.inj hsame).2.1]

omit [DecidableEq T] in
theorem sound_post {s t : State V τ} (h : Sound c s) {caller : Runtime.Caller τ}
    {env : Envelope (Object V)} (henv : Stamped c env) (hs : s.post c caller env = some t) :
    Sound c t :=
  sound_call h henv (Or.inl rfl) hs

omit [DecidableEq T] in
theorem sound_arm {s t : State V τ} (h : Sound c s) {caller : Runtime.Caller τ} {delay : Int}
    {env : Envelope (Object V)} {owner_name type_name : String} (henv : Stamped c env)
    (hs : s.arm c caller delay env owner_name type_name = some t) : Sound c t :=
  sound_call h henv (Or.inr ⟨delay, owner_name, type_name, rfl⟩) hs

omit [DecidableEq T] in
theorem sound_runtime {s t : State V τ} (event : Runtime.Event (Object V) τ) (h : Sound c s)
    (hs : (if event.carries then none
      else (s.runtime.step c.config event).map fun runtime => { s with runtime := runtime }) =
        some t) : Sound c t := by
  split_ifs at hs with hcarries
  obtain ⟨next, hnext, rfl⟩ := Option.map_eq_some_iff.mp hs
  refine ⟨h.made, carried_step h.carried hnext (fun _ => id) ?_ ?_, h.running, h.handled⟩
  · intro caller env hevent
    exact absurd (hevent ▸ rfl) hcarries
  · intro caller delay env owner_name type_name hevent
    exact absurd (hevent ▸ rfl) hcarries

theorem sound_step {s t : State V τ} {event : Event V τ} (h : Sound c s)
    (hs : step c s event = some t) : Sound c t := by
  cases event with
  | runtime event =>
      cases event with
      | loop => exact sound_loop h hs
      | tick now => exact sound_runtime (.tick now) h hs
      | call caller op => exact sound_runtime (.call caller op) h hs
      | advance caller => exact sound_runtime (.advance caller) h hs
      | start => exact sound_runtime .start h hs
      | run => exact sound_runtime .run h hs
      | run_one => exact sound_runtime .run_one h hs
      | shutdown => exact sound_runtime .shutdown h hs
      | wake => exact sound_runtime .wake h hs
      | timeout => exact sound_runtime .timeout h hs
  | post caller from_ to_ msg => exact sound_post h (c.stamped_envelope ..) hs
  | send caller i Target msg =>
      obtain ⟨mod, _, hsend⟩ := Option.bind_eq_some_iff.mp hs
      split_ifs at hsend
      exact sound_post h (c.stamped_envelope ..) hsend
  | reply_to i msg =>
      obtain ⟨mod, _, hreply⟩ := Option.bind_eq_some_iff.mp hs
      obtain ⟨env, _, hreply⟩ := Option.bind_eq_some_iff.mp hreply
      split_ifs at hreply
      · obtain rfl := Option.some.inj hreply
        exact ⟨h.made, h.carried.fail _, h.running, h.handled⟩
      · exact sound_post h (c.stamped_envelope ..) hreply
  | fanout subscriber_id msg => exact sound_post h (c.stamped_envelope ..) hs
  | arm => exact sound_arm h (c.stamped_envelope ..) hs
  | arm_target => exact sound_arm h (c.stamped_envelope ..) hs

theorem reachable_sound {s : State V τ} (h : (machine V τ c).Reachable s) : Sound c s :=
  h.invariant sound_init fun _ _ _ => sound_step

-- Dispatching `env` calls one handler, that of the target module for the type the
-- payload was constructed as, or fails, and does so only for want of one.
structure Routes (c : Composition T) (s t : State V τ) (env : Envelope (Object V)) : Prop where
  made : env ∈ s.made
  one : (∃ i mod, c.ModuleList[i]? = some mod ∧ mod.kTypeId = env.to_ ∧
        (∀ j other, c.ModuleList[j]? = some other → other.kTypeId = env.to_ → j = i) ∧
        t.handled = s.handled ++ [(i, .on env.payload_.ty env.payload_.value)] ∧
        t.running = some (i, env) ∧ t.runtime.pc.faulted = false) ∨
      (t.handled = s.handled ∧ t.runtime.pc.faulted = true)
  faults : t.runtime.pc.faulted = true ↔
    ∀ mod ∈ c.ModuleList, mod.kTypeId = env.to_ → env.payload_.ty ∉ mod.Inbox

-- A reply during a handler goes to the sender of the envelope it runs for.
structure Replies (c : Composition T) (s t : State V τ) (mod : ModuleType T)
    (env : Envelope (Object V)) (msg : Object V) : Prop where
  sent : env.from_ ≠ kNoSender →
    t.made = s.made ++ [c.envelope mod.kTypeId env.from_ msg] ∧
      t.runtime.issued = s.runtime.issued ++ [(.loop, c.envelope mod.kTypeId env.from_ msg)]
  refused : env.from_ = kNoSender → t.runtime.pc.faulted = true ∧
    t.runtime.issued = s.runtime.issued

structure TypeSafe (c : Composition T) (s : State V τ) : Prop where
  routes : ∀ env t, Dispatching c s.runtime env → step c s (.runtime .loop) = some t →
    Routes c s t env
  never_cast : ∀ run ∈ s.handled, run.2.cast = false
  replies : ∀ i env mod msg t, s.running = some (i, env) → c.ModuleList[i]? = some mod →
    step c s (.reply_to i msg) = some t → Replies c s t mod env msg

theorem routes_of_sound {s t : State V τ} (h : Sound c s) {env : Envelope (Object V)}
    (hd : Dispatching c s.runtime env) (hs : step c s (.runtime .loop) = some t) :
    Routes c s t env := by
  obtain ⟨next, hnext, rfl⟩ := Option.map_eq_some_iff.mp hs
  have hmade : env ∈ s.made := h.carried.held env (dispatching_holds hd)
  have hhandled := (returned_frame s).2.1
  obtain ⟨_, hrule⟩ := Runtime.State.step_rule hnext
  cases hrule with
  | loop _ _ hloop =>
      cases calls_loop hloop with
      | nothing hcalled hmissing =>
          obtain ⟨hfault, hnone⟩ := hmissing env hd
          simp only [hcalled]
          refine ⟨hmade, Or.inr ⟨hhandled, hfault⟩, iff_of_true hfault fun mod hmod hid => ?_⟩
          exact absurd hid (hnone mod hmod)
      | handle i other mod hcalled hother hok hmod hid =>
          obtain rfl := dispatching_unique hd hother
          simp only [hcalled]
          have hunique (j : Nat) (found : ModuleType T) (hfound : c.ModuleList[j]? = some found)
              (hto : found.kTypeId = env.to_) : j = i :=
            c.module_unique hfound hmod (hto.trans hid.symm)
          obtain ⟨hmem, heq⟩ | ⟨hmem, heq⟩ :=
            handle_cases (s := { s.returned with runtime := next }) (h.made env hmade) hmod
          · rw [heq]
            refine ⟨hmade, Or.inl ⟨i, mod, hmod, hid, hunique, ?_, rfl, hok⟩, ?_⟩
            · rw [← hhandled]
            · refine iff_of_false (by simp [hok]) fun hnone => ?_
              exact hnone mod (List.mem_of_getElem? hmod) hid hmem
          · rw [heq]
            refine ⟨hmade, Or.inr ⟨hhandled, rfl⟩, iff_of_true rfl fun found hfound hto => ?_⟩
            obtain ⟨j, hj⟩ := List.getElem?_of_mem hfound
            obtain rfl := hunique j found hj hto
            rwa [Option.some.inj (hj.symm.trans hmod)]

theorem replies_of_sound {s t : State V τ} (h : Sound c s) {i : Nat}
    {env : Envelope (Object V)} {mod : ModuleType T} {msg : Object V}
    (hrun : s.running = some (i, env)) (hmod : c.ModuleList[i]? = some mod)
    (hs : step c s (.reply_to i msg) = some t) : Replies c s t mod env msg := by
  simp only [step, hmod, h.running i env hrun, Option.bind_some] at hs
  split_ifs at hs with hmay hsender
  · obtain rfl := Option.some.inj hs
    exact ⟨fun hne => absurd hsender hne, fun _ => ⟨rfl, rfl⟩⟩
  · obtain ⟨next, hnext, rfl⟩ := Option.map_eq_some_iff.mp hs
    refine ⟨fun _ => ⟨rfl, ?_⟩, fun heq => absurd heq hsender⟩
    obtain ⟨_, hrule⟩ := Runtime.State.step_rule hnext
    cases hrule with
    | call => rfl

-- However an envelope is made and carried to its dispatch, it gets to the handler
-- for its payload, and the handler's reply to its sender.
theorem type_safe {s : State V τ} (hr : (machine V τ c).Reachable s) : TypeSafe c s where
  routes := fun _ _ hd hs => routes_of_sound (reachable_sound hr) hd hs
  never_cast := (reachable_sound hr).handled
  replies := fun _ _ _ _ _ hrun hmod hs => replies_of_sound (reachable_sound hr) hrun hmod hs

def twoModules : Composition Bool where
  type_id Msg := if Msg then 11 else 12
  ModuleList := [⟨1, [true]⟩, ⟨2, [false, true]⟩]
  kDrainBudget := 4
  messages_distinct := by decide
  modules_distinct := by decide

def posted (caller : Runtime.Caller Unit) : List (Event (fun _ : Bool => Nat) Unit) :=
  List.replicate 3 (.runtime (.advance caller))

-- The second module gets a message. Its handler replies, the cache notifies the first
-- module, and a timer is armed, whose message is about to be dispatched as the last.
def untilDispatch : List (Event (fun _ : Bool => Nat) Unit) :=
  .runtime .start :: List.replicate 4 (.runtime .loop) ++
    .post (.foreign ()) 1 2 ⟨false, 7⟩ :: posted (.foreign ()) ++
    [.runtime .run_one, .runtime .loop, .reply_to 1 ⟨true, 3⟩] ++ posted .loop ++
    .fanout 1 ⟨true, 4⟩ :: posted .loop ++
    .arm_target .loop 5 ⟨2, [false, true]⟩ ⟨true, 9⟩ "" "" :: List.replicate 6 (.runtime .loop) ++
    [.runtime (.tick 5), .runtime (.call .loop .fire_due)] ++ posted .loop ++ [.runtime .run_one]

-- The envelopes made, with their senders and targets, and how they have been handled.
def traffic (s : State (fun _ : Bool => Nat) Unit) :
    List (type_id_t × type_id_t) × List (Nat × Bool) :=
  (s.made.map fun env => (env.from_, env.to_), s.handled.map fun run => (run.1, run.2.cast))

theorem type_safe_untilDispatch :
    ∃ s : State (fun _ : Bool => Nat) Unit,
      (machine _ Unit twoModules).run init untilDispatch = some s ∧ TypeSafe twoModules s ∧
        ∃ t, step twoModules s (.runtime .loop) = some t ∧
          traffic t = ([(1, 2), (2, 1), (kNoSender, 1), (kNoSender, 2)],
            [(1, false), (0, false), (0, false), (1, false)]) := by
  have hnext : ((machine (fun _ : Bool => Nat) Unit twoModules).run init untilDispatch).map
      (fun s => (step twoModules s (.runtime .loop)).map traffic) =
        some (some ([(1, 2), (2, 1), (kNoSender, 1), (kNoSender, 2)],
          [(1, false), (0, false), (0, false), (1, false)])) := by
    decide +kernel
  obtain ⟨s, hs, hstep⟩ := Option.map_eq_some_iff.mp hnext
  exact ⟨s, hs, type_safe ⟨untilDispatch, hs⟩, Option.map_eq_some_iff.mp hstep⟩

end State

end Routing

end CortexFlow
