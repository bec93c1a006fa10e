import CortexFlow.Flow.Locals

namespace CortexFlow

namespace Flow

open Lib

variable {S ε : Type*}

-- The last of the states that a chain of transitions from `tag` goes through.
def lastOf (tag : S) (targets : List S) : S := targets.getLast?.getD tag

@[simp] theorem lastOf_nil (tag : S) : lastOf tag [] = tag := rfl

@[simp] theorem lastOf_concat (tag : S) (targets : List S) (next : S) :
    lastOf tag (targets ++ [next]) = next := by
  simp [lastOf]

theorem lastOf_cons (tag next : S) (targets : List S) :
    lastOf tag (next :: targets) = lastOf next targets := by
  cases h : targets.getLast? <;> simp [lastOf, List.getLast?_cons, h]

-- What is seen of one transition.
def changes (params : Params S ε) (tag next : S) : List (Effect S ε) :=
  [.trace (Run.transitionRecord params tag next), .destruct tag, .construct next]

-- What is seen of a chain of immediate transitions, up to where the last state
-- has been called.
def chain (params : Params S ε) (env : ε) (tag : S) : List S → List (Effect S ε)
  | [] => [.handle tag true env]
  | next :: rest => .handle tag true env :: changes params tag next ++ chain params env next rest

theorem chain_concat (params : Params S ε) (env : ε) (tag : S) (targets : List S) (next : S) :
    chain params env tag (targets ++ [next]) =
      chain params env tag targets ++
        (changes params (lastOf tag targets) next ++ [.handle next true env]) := by
  induction targets generalizing tag with
  | nil => rfl
  | cons first rest ih =>
      simp only [List.cons_append, chain, ih, lastOf_cons, List.append_assoc]

-- The states called, with what they were called with.
def handled (effects : List (Effect S ε)) : List (S × ε) :=
  effects.filterMap fun effect =>
    match effect with
    | .handle tag _ env => some (tag, env)
    | _ => none

theorem handled_chain (params : Params S ε) (env : ε) (tag : S) (targets : List S) :
    handled (chain params env tag targets) = (tag :: targets).map fun called => (called, env) := by
  induction targets generalizing tag with
  | nil => rfl
  | cons next rest ih =>
      have hstep : handled (chain params env tag (next :: rest)) =
          (tag, env) :: handled (chain params env next rest) := by
        simp [handled, chain, changes]
      rw [hstep, ih]
      rfl

def Effect.isFlowDone : Effect S ε → Bool
  | .on_flow_done => true
  | _ => false

namespace Run

-- A state returns `done()`.
def Event.isDone : Event S ε → Bool
  | .returns dir => dir.kind = .Done
  | _ => false

def nows (targets : List S) : List (Event S ε) :=
  targets.map fun next => .returns (transition_to_now next)

-- `step` has called the last state of the chain, which has not returned.
def chained (s : Run S ε) (params : Params S ε) (env : ε) (targets : List S) : Run S ε :=
  { s with
    current_ := lastOf s.current_ targets
    locals_bound := true
    in_step_ := true
    stack := .handling env :: s.stack
    effects := s.effects ++ chain params env s.current_ targets }

-- The last state of the chain has returned `stay()`.
def stayed (s : Run S ε) (params : Params S ε) (env : ε) (targets : List S) : Run S ε :=
  { s.chained params env targets with in_step_ := false, stack := s.stack }

-- It has returned `transition_to<next>()`.
def transitioned (s : Run S ε) (params : Params S ε) (env : ε) (targets : List S) (next : S) :
    Run S ε :=
  { s.stayed params env targets with
    current_ := next
    effects := s.effects ++ chain params env s.current_ targets ++
      changes params (lastOf s.current_ targets) next }

-- It has returned `done()`, and `on_flow_done` has been called.
def ended (s : Run S ε) (params : Params S ε) (env : ε) (targets : List S) : Run S ε :=
  { s.stayed params env targets with
    locals_bound := false
    active_ := false
    stack := .flow_done :: s.stack
    effects := s.effects ++ chain params env s.current_ targets ++
      [.destruct (lastOf s.current_ targets), .on_flow_done] }

-- The events are all taken while more than `depth` calls are under way.
def Above (params : Params S ε) (depth : Nat) (s : Run S ε) (events : List (Event S ε)) : Prop :=
  (machine params).Meets (fun u _ => depth < u.stack.length) s events

instance (params : Params S ε) (depth : Nat) (s : Run S ε) (events : List (Event S ε)) :
    Decidable (Above params depth s events) :=
  have (u : Run S ε) (_ : Event S ε) : Decidable (depth < u.stack.length) := inferInstance
  Machine.decidableMeets s events

-- What directives mean: a call of `step` in `s` that returns in `t`, with the
-- events after the call. What `on_flow_done` does may be any calls of the flow.
inductive Directed (params : Params S ε) (env : ε) (s : Run S ε) :
    List (Event S ε) → Run S ε → Prop
  | stay (targets : List S) (dir : StateDirective S) : dir.kind = .Stay →
      Directed params env s (nows targets ++ [.returns dir]) (s.stayed params env targets)
  | transition (targets : List S) (dir : StateDirective S) (next : S) :
      dir.kind = .Transition → dir.next = some next →
      Directed params env s (nows targets ++ [.returns dir])
        (s.transitioned params env targets next)
  | done (targets : List S) (dir : StateDirective S) (body : List (Event S ε)) (t : Run S ε) :
      dir.kind = .Done → Above params s.stack.length (s.ended params env targets) body →
      (machine params).run (s.ended params env targets) body = some t →
      t.stack = .flow_done :: s.stack →
      Directed params env s (nows targets ++ .returns dir :: (body ++ [.done_returns]))
        { t with stack := s.stack }

-- The program calls `step`, and the call returns with the last of the events.
def Calls (params : Params S ε) (env : ε) (s : Run S ε) (events : List (Event S ε))
    (t : Run S ε) : Prop :=
  ∃ first, next params s (.step env) = some first ∧
    Above params s.stack.length first events ∧ (machine params).run first events = some t ∧
      t.stack = s.stack

-- A flow that can be stepped.
structure Ready (s : Run S ε) : Prop where
  active : s.active_ = true
  idle : s.in_step_ = false
  bound : s.locals_bound = true
  owner : s.owner_bound = true
  alive : s.destroyed = false

theorem next_step {params : Params S ε} {s : Run S ε} (h : s.Ready) (env : ε) :
    next params s (.step env) = some (s.chained params env []) := by
  simp [next, step, h.alive, h.active, h.idle, completed, invoke, emit, chained, chain, h.bound]

theorem next_now {params : Params S ε} {s : Run S ε} (h : s.Ready) (env : ε) (targets : List S)
    (tag : S) :
    next params (s.chained params env targets) (.returns (transition_to_now tag)) =
      some (s.chained params env (targets ++ [tag])) := by
  simp [next, chained, h.alive, resume, transition_to_now, completed, change, enter, emit, invoke,
    chain_concat, changes]

theorem next_stay {params : Params S ε} {s : Run S ε} (h : s.Ready) (env : ε) (targets : List S)
    {dir : StateDirective S} (hk : dir.kind = .Stay) :
    next params (s.chained params env targets) (.returns dir) =
      some (s.stayed params env targets) := by
  simp [next, chained, h.alive, resume, hk, completed, stayed]

theorem next_transition {params : Params S ε} {s : Run S ε} (h : s.Ready) (env : ε)
    (targets : List S) {dir : StateDirective S} (hk : dir.kind = .Transition) {tag : S}
    (hn : dir.next = some tag) :
    next params (s.chained params env targets) (.returns dir) =
      some (s.transitioned params env targets tag) := by
  simp [next, chained, h.alive, resume, hk, hn, completed, stayed, transitioned, change, enter,
    emit, changes]

theorem next_done {params : Params S ε} {s : Run S ε} (h : s.Ready) (env : ε)
    (targets : List S) {dir : StateDirective S} (hk : dir.kind = .Done) :
    next params (s.chained params env targets) (.returns dir) =
      some (s.ended params env targets) := by
  simp [next, chained, h.alive, resume, hk, completed, stayed, ended, leave, emit, h.owner]

-- While a state runs, nothing is possible but that it returns.
theorem chained_cases {params : Params S ε} {s u : Run S ε} (h : s.Ready) {env : ε}
    {targets : List S} {event : Event S ε}
    (hs : next params (s.chained params env targets) event = some u) :
    (∃ tag, event = .returns (transition_to_now tag) ∧
      u = s.chained params env (targets ++ [tag])) ∨
    ∃ dir, event = .returns dir ∧
      (dir.kind = .Stay ∧ u = s.stayed params env targets ∨
        (∃ tag, dir.kind = .Transition ∧ dir.next = some tag ∧
          u = s.transitioned params env targets tag) ∨
        dir.kind = .Done ∧ u = s.ended params env targets) := by
  cases event with
  | returns dir =>
      cases hk : dir.kind with
      | Stay =>
          rw [next_stay h env targets hk] at hs
          exact Or.inr ⟨dir, rfl, Or.inl ⟨hk, (Option.some.inj hs).symm⟩⟩
      | Transition =>
          cases hn : dir.next with
          | none => simp [next, chained, resume, hk, hn, completed] at hs
          | some tag =>
              rw [next_transition h env targets hk hn] at hs
              exact Or.inr ⟨dir, rfl, Or.inr (Or.inl ⟨tag, hk, hn, (Option.some.inj hs).symm⟩)⟩
      | TransitionNow =>
          cases hn : dir.next with
          | none => simp [next, chained, resume, hk, hn, completed] at hs
          | some tag =>
              have hdir : dir = transition_to_now tag := by
                cases dir
                simp only at hk hn
                rw [hk, hn, transition_to_now]
              rw [hdir, next_now h env targets tag] at hs
              exact Or.inl ⟨tag, hdir ▸ rfl, (Option.some.inj hs).symm⟩
      | Done =>
          rw [next_done h env targets hk] at hs
          exact Or.inr ⟨dir, rfl, Or.inr (Or.inr ⟨hk, (Option.some.inj hs).symm⟩)⟩
  | start => simp [next, start, chained, h.active, completed] at hs
  | step => simp [next, step, chained, h.active, completed] at hs
  | terminate => simp [next, terminate, chained, completed] at hs
  | restart => simp [next, restart, chained, completed] at hs
  | done_returns => simp [next, h.alive, chained] at hs
  | destroy => simp [next, h.alive, chained] at hs

-- What an event does to the calls under way and what is seen of it.
inductive Moves (s t : Run S ε) : Event S ε → Prop
  | called (event : Event S ε) (env : ε) (new : List (Effect S ε)) : event.isDone = false →
      t.stack = .handling env :: s.stack → t.effects = s.effects ++ new →
      new.filter Effect.isFlowDone = [] → Moves s t event
  | aside (event : Event S ε) (new : List (Effect S ε)) : event.isDone = false →
      t.stack = s.stack → t.effects = s.effects ++ new →
      new.filter Effect.isFlowDone = [] → Moves s t event
  | returned (dir : StateDirective S) (env : ε) (rest : List (Frame ε))
      (new : List (Effect S ε)) : dir.kind ≠ .Done → s.stack = .handling env :: rest →
      (t.stack = rest ∨ t.stack = .handling env :: rest) → t.effects = s.effects ++ new →
      new.filter Effect.isFlowDone = [] → Moves s t (.returns dir)
  | done (dir : StateDirective S) (env : ε) (rest : List (Frame ε)) : dir.kind = .Done →
      s.stack = .handling env :: rest → t.stack = .flow_done :: rest →
      t.effects = s.effects ++ [.destruct s.current_, .on_flow_done] → t.active_ = false →
      t.in_step_ = false → Moves s t (.returns dir)
  | done_returned (rest : List (Frame ε)) : s.stack = .flow_done :: rest →
      t = { s with stack := rest } → Moves s t .done_returns

theorem moves_step {s t : Run S ε} {env : ε} (hs : s.step env = .ok t ()) :
    t.stack = .handling env :: s.stack ∧
      t.effects = s.effects ++ [.handle s.current_ s.locals_bound env] := by
  unfold step at hs
  split_ifs at hs
  simp only [Outcome.ok.injEq, and_true] at hs
  exact hs ▸ ⟨rfl, rfl⟩

theorem moves_enter_initial {params : Params S ε} {s t : Run S ε}
    (hs : s.enter_initial_ params = .ok t ()) :
    t.stack = .handling params.init_env :: s.stack ∧
      ∃ new, t.effects = s.effects ++ new ∧ new.filter Effect.isFlowDone = [] := by
  obtain ⟨hstack, heffects⟩ := moves_step hs
  refine ⟨hstack, [.construct params.initial_, .handle params.initial_ true params.init_env], ?_,
    rfl⟩
  rw [heffects]
  simp [enter, emit]

theorem moves_resume {params : Params S ε} {s t : Run S ε} {env : ε} {rest : List (Frame ε)}
    {dir : StateDirective S} (hstack : s.stack = .handling env :: rest)
    (hs : { s with stack := rest }.resume params env dir = .ok t ()) :
    Moves s t (.returns dir) := by
  unfold resume at hs
  cases hk : dir.kind with
  | Stay =>
      simp only [hk, Outcome.ok.injEq, and_true] at hs
      subst hs
      exact .returned dir env rest [] (by simp [hk]) hstack (Or.inl rfl)
        (List.append_nil _).symm rfl
  | Transition =>
      cases hn : dir.next with
      | none =>
          rw [hk, hn] at hs
          cases hs
      | some tag =>
          simp only [hk, hn, Outcome.ok.injEq, and_true] at hs
          subst hs
          exact .returned dir env rest (changes params s.current_ tag) (by simp [hk]) hstack
            (Or.inl rfl) (by simp [change, enter, emit, changes]) rfl
  | TransitionNow =>
      cases hn : dir.next with
      | none =>
          rw [hk, hn] at hs
          cases hs
      | some tag =>
          simp only [hk, hn, Outcome.ok.injEq, and_true] at hs
          subst hs
          exact .returned dir env rest (changes params s.current_ tag ++ [.handle tag true env])
            (by simp [hk]) hstack (Or.inr rfl)
            (by simp [change, enter, emit, changes, invoke]) rfl
  | Done =>
      simp only [hk] at hs
      split_ifs at hs
      simp only [Outcome.ok.injEq, and_true] at hs
      subst hs
      exact .done dir env rest hk hstack rfl (by simp [emit, leave]) rfl rfl

theorem next_moves {params : Params S ε} {s t : Run S ε} {event : Event S ε}
    (hs : next params s event = some t) : Moves s t event := by
  unfold next at hs
  have hd : s.destroyed = false := by
    by_contra hdestroyed
    simp [hdestroyed] at hs
  rw [if_neg (by simp [hd])] at hs
  cases event with
  | start =>
      have hok := completed_eq_some hs
      unfold start at hok
      split_ifs at hok
      obtain ⟨hstack, new, heffects, hnew⟩ := moves_enter_initial hok
      exact .called _ _ new rfl hstack heffects hnew
  | step env =>
      obtain ⟨hstack, heffects⟩ := moves_step (completed_eq_some hs)
      exact .called _ env _ rfl hstack heffects rfl
  | terminate =>
      have hok := completed_eq_some hs
      unfold terminate at hok
      split_ifs at hok <;> simp only [Outcome.ok.injEq, and_true] at hok <;> subst hok
      · exact .aside _ [.destruct s.current_] rfl rfl rfl rfl
      · exact .aside _ [] rfl rfl (List.append_nil _).symm rfl
  | restart =>
      have hok := completed_eq_some hs
      unfold restart at hok
      split_ifs at hok
      · obtain ⟨hstack, new, heffects, hnew⟩ := moves_enter_initial hok
        refine .called _ _ (.destruct s.current_ :: new) rfl hstack ?_ hnew
        simp [heffects, leave, emit]
      · obtain ⟨hstack, new, heffects, hnew⟩ := moves_enter_initial hok
        exact .called _ _ new rfl hstack heffects hnew
  | returns dir =>
      simp only at hs
      split at hs
      · rename_i env rest hstack
        exact moves_resume hstack (completed_eq_some hs)
      · cases hs
  | done_returns =>
      simp only at hs
      split at hs
      · rename_i rest hstack
        exact .done_returned rest hstack (Option.some.inj hs).symm
      · cases hs
  | destroy =>
      simp only at hs
      split_ifs at hs <;> obtain rfl := Option.some.inj hs
      · exact .aside _ [.destruct s.current_] rfl rfl rfl rfl
      · exact .aside _ [] rfl rfl (List.append_nil _).symm rfl

-- A callback under way stays on the stack until it returns.
theorem stack_step {params : Params S ε} {u v : Run S ε} {event : Event S ε}
    {stack : List (Frame ε)} (h : (.flow_done :: stack) <:+ u.stack)
    (hs : next params u event = some v) :
    (.flow_done :: stack) <:+ v.stack ∨
      event = .done_returns ∧ u.stack = .flow_done :: stack ∧ v = { u with stack := stack } := by
  have hbelow {env : ε} {rest : List (Frame ε)} (hstack : u.stack = .handling env :: rest) :
      (.flow_done :: stack) <:+ rest := by
    rw [hstack] at h
    exact (List.suffix_cons_iff.mp h).resolve_left nofun
  cases next_moves hs with
  | called _ env _ _ hstack => exact Or.inl (hstack ▸ h.trans (List.suffix_cons _ _))
  | aside _ _ _ hstack => exact Or.inl (hstack ▸ h)
  | returned _ env rest _ _ hstack hnew =>
      have hrest := hbelow hstack
      cases hnew with
      | inl hnew => exact Or.inl (hnew ▸ hrest)
      | inr hnew => exact Or.inl (hnew ▸ hrest.trans (List.suffix_cons _ _))
  | done _ env rest _ hstack hnew =>
      exact Or.inl (hnew ▸ (hbelow hstack).trans (List.suffix_cons _ _))
  | done_returned rest hstack hv =>
      rw [hstack] at h
      cases List.suffix_cons_iff.mp h with
      | inl hsame =>
          obtain rfl := (List.cons.inj hsame).2
          exact Or.inr ⟨rfl, hstack, hv⟩
      | inr hrest => exact Or.inl (hv ▸ hrest)

-- A callback that is over was ended by its own return, and nothing came after.
theorem callback_returns {params : Params S ε} {u t : Run S ε} {events : List (Event S ε)}
    {stack : List (Frame ε)} (h : (.flow_done :: stack) <:+ u.stack)
    (ha : Above params stack.length u events) (hr : (machine params).run u events = some t)
    (ht : t.stack = stack) :
    ∃ body v, events = body ++ [.done_returns] ∧ Above params stack.length u body ∧
      (machine params).run u body = some v ∧ v.stack = .flow_done :: stack ∧
        t = { v with stack := stack } := by
  induction events generalizing u with
  | nil =>
      obtain rfl := Option.some.inj hr
      have hlen := h.length_le
      rw [ht, List.length_cons] at hlen
      omega
  | cons event events ih =>
      obtain ⟨mid, hs, hrest⟩ := Machine.run_cons_some hr
      cases stack_step h hs with
      | inl hmid =>
          obtain ⟨body, v, rfl, hbody, hrun, hv, hend⟩ := ih hmid (ha.2 mid hs) hrest
          refine ⟨event :: body, v, rfl, ⟨ha.1, fun other ho => ?_⟩, ?_, hv, hend⟩
          · obtain rfl : mid = other := Option.some.inj (hs.symm.trans ho)
            exact hbody
          · rw [Machine.run, hs]
            exact hrun
      | inr hpop =>
          obtain ⟨rfl, hstack, rfl⟩ := hpop
          cases events with
          | nil => exact ⟨[], u, rfl, trivial, rfl, hstack, (Option.some.inj hrest).symm⟩
          | cons second events => exact absurd (ha.2 _ hs).1 (Nat.lt_irrefl _)

theorem nows_concat (targets : List S) (tag : S) :
    (nows (targets ++ [tag]) : List (Event S ε)) =
      nows targets ++ [.returns (transition_to_now tag)] := by
  simp [nows]

-- From where a state of the chain is running on, the rest of the call.
theorem directed_of_chained {params : Params S ε} {s t : Run S ε} (h : s.Ready) {env : ε}
    {targets : List S} {events : List (Event S ε)}
    (ha : Above params s.stack.length (s.chained params env targets) events)
    (hr : (machine params).run (s.chained params env targets) events = some t)
    (ht : t.stack = s.stack) : Directed params env s (nows targets ++ events) t := by
  induction events generalizing targets with
  | nil =>
      obtain rfl := Option.some.inj hr
      have hlen := congrArg List.length ht
      simp [chained] at hlen
  | cons event events ih =>
      obtain ⟨mid, hs, hrest⟩ := Machine.run_cons_some hr
      have hmid := ha.2 mid hs
      -- Once the call has returned there is no event left.
      have hover (hstack : mid.stack = s.stack) : events = [] ∧ t = mid := by
        cases events with
        | nil => exact ⟨rfl, (Option.some.inj hrest).symm⟩
        | cons second events =>
            have hlt : s.stack.length < mid.stack.length := hmid.1
            rw [hstack] at hlt
            exact absurd hlt (Nat.lt_irrefl _)
      obtain ⟨tag, rfl, rfl⟩ | ⟨dir, rfl, hdir⟩ := chained_cases h hs
      · have hlater := ih hmid hrest
        rw [nows_concat, List.append_assoc] at hlater
        exact hlater
      · obtain ⟨hk, rfl⟩ | ⟨tag, hk, hn, rfl⟩ | ⟨hk, rfl⟩ := hdir
        · obtain ⟨rfl, rfl⟩ := hover rfl
          exact .stay targets dir hk
        · obtain ⟨rfl, rfl⟩ := hover rfl
          exact .transition targets dir tag hk hn
        · obtain ⟨body, v, rfl, hbody, hrun, hv, rfl⟩ :=
            callback_returns List.suffix_rfl hmid hrest ht
          exact .done targets dir body v hk hbody hrun hv

theorem run_nows {params : Params S ε} {s : Run S ε} (h : s.Ready) (env : ε)
    (before targets : List S) :
    (machine params).run (s.chained params env before) (nows targets) =
      some (s.chained params env (before ++ targets)) ∧
      Above params s.stack.length (s.chained params env before) (nows targets) := by
  induction targets generalizing before with
  | nil =>
      rw [List.append_nil]
      exact ⟨rfl, trivial⟩
  | cons tag rest ih =>
      have hnext : next params (s.chained params env before) (.returns (transition_to_now tag)) =
          some (s.chained params env (before ++ [tag])) := next_now h env before tag
      obtain ⟨hrun, habove⟩ := ih (before ++ [tag])
      rw [List.append_assoc] at hrun
      refine ⟨?_, Nat.lt_succ_self _, fun other ho => ?_⟩
      · exact (congrArg (fun next => next.bind fun u => (machine params).run u (nows rest))
          hnext).trans hrun
      · obtain rfl := Option.some.inj (hnext.symm.trans ho)
        exact habove

-- Only a flow with no call under way is ever destroyed, and only once started
-- does a flow become active.
structure Attached (s : Run S ε) : Prop where
  alive : s.destroyed = true → s.stack = []
  owner : s.active_ = true → s.owner_bound = true

theorem frame_step {s t : Run S ε} {env : ε} (hs : s.step env = .ok t ()) :
    t.destroyed = s.destroyed ∧ t.owner_bound = s.owner_bound ∧ t.active_ = s.active_ := by
  unfold step at hs
  split_ifs at hs
  simp only [Outcome.ok.injEq, and_true] at hs
  exact hs ▸ ⟨rfl, rfl, rfl⟩

theorem attached_next {params : Params S ε} {s t : Run S ε} {event : Event S ε}
    (h : s.Attached) (hs : next params s event = some t) : t.Attached := by
  unfold next at hs
  have hd : s.destroyed = false := by
    by_contra hdestroyed
    simp [hdestroyed] at hs
  rw [if_neg (by simp [hd])] at hs
  have hsame {u : Run S ε} (hu : u.destroyed = s.destroyed)
      (ho : u.active_ = true → u.owner_bound = true) : u.Attached :=
    ⟨fun he => absurd (hd.symm.trans (hu.symm.trans he)) nofun, ho⟩
  cases event with
  | start =>
      have hok := completed_eq_some hs
      unfold start at hok
      split_ifs at hok
      obtain ⟨hu, ho, _⟩ := frame_step hok
      exact hsame hu fun _ => ho
  | step env =>
      obtain ⟨hu, ho, ha⟩ := frame_step (completed_eq_some hs)
      exact hsame hu fun he => ho.trans (h.owner (ha.symm.trans he))
  | terminate =>
      have hok := completed_eq_some hs
      unfold terminate at hok
      split_ifs at hok <;> simp only [Outcome.ok.injEq, and_true] at hok <;> subst hok
      · exact hsame rfl nofun
      · exact h
  | restart =>
      have hok := completed_eq_some hs
      unfold restart at hok
      split_ifs at hok with _ hbound _ <;> obtain ⟨hu, ho, _⟩ := frame_step hok <;>
        rw [Bool.not_eq_true, Bool.not_eq_false'] at hbound
      · exact hsame hu fun _ => ho.trans hbound
      · exact hsame hu fun _ => ho.trans hbound
  | returns dir =>
      simp only at hs
      split at hs
      · have hok := completed_eq_some hs
        unfold resume at hok
        split at hok
        · simp only [Outcome.ok.injEq, and_true] at hok
          exact hok ▸ hsame rfl h.owner
        · split at hok <;> simp only [reduceCtorEq, Outcome.ok.injEq, and_true] at hok
          exact hok ▸ hsame rfl h.owner
        · split at hok <;> simp only [reduceCtorEq, Outcome.ok.injEq, and_true] at hok
          exact hok ▸ hsame rfl h.owner
        · simp only at hok
          split_ifs at hok
          simp only [Outcome.ok.injEq, and_true] at hok
          exact hok ▸ hsame rfl nofun
      · exact nomatch hs
  | done_returns =>
      simp only at hs
      split at hs
      · exact Option.some.inj hs ▸ hsame rfl h.owner
      · exact nomatch hs
  | destroy =>
      simp only at hs
      split_ifs at hs with hstack ha <;> obtain rfl := Option.some.inj hs
      · exact ⟨fun _ => List.isEmpty_iff.mp hstack, h.owner⟩
      · exact ⟨fun _ => List.isEmpty_iff.mp hstack, h.owner⟩

theorem attached_run {params : Params S ε} {s t : Run S ε} {events : List (Event S ε)}
    (h : s.Attached) (hr : (machine params).run s events = some t) : t.Attached :=
  Machine.run_invariant (m := machine params) (I := Attached)
    (fun _ _ _ hu hs => attached_next hu hs) h hr

-- The calls of `step` that return are those that directives allow.
theorem calls_iff_directed {params : Params S ε} {s : Run S ε} (h : s.Ready) {env : ε}
    {events : List (Event S ε)} {t : Run S ε} :
    Calls params env s events t ↔ Directed params env s events t := by
  constructor
  · rintro ⟨first, hs, ha, hr, ht⟩
    rw [next_step h] at hs
    obtain rfl := Option.some.inj hs
    exact directed_of_chained h ha hr ht
  · intro hdirected
    refine ⟨s.chained params env [], next_step h env, ?_⟩
    have hends {targets : List S} {dir : StateDirective S} {u : Run S ε}
        (hnext : next params (s.chained params env targets) (.returns dir) = some u)
        {l : List (Event S ε)} (hlater : Above params s.stack.length u l)
        {v : Run S ε} (hv : (machine params).run u l = some v) :
        Above params s.stack.length (s.chained params env []) (nows targets ++ .returns dir :: l)
          ∧ (machine params).run (s.chained params env []) (nows targets ++ .returns dir :: l) =
            some v := by
      obtain ⟨hrun, habove⟩ : (machine params).run (s.chained params env []) (nows targets) =
          some (s.chained params env ([] ++ targets)) ∧
          Above params s.stack.length (s.chained params env []) (nows targets) :=
        run_nows h env [] targets
      rw [List.nil_append] at hrun
      have htail : (machine params).run (s.chained params env targets) (.returns dir :: l) =
          some v :=
        (congrArg (fun next => next.bind fun w => (machine params).run w l) hnext).trans hv
      refine ⟨habove.trans hrun ⟨Nat.lt_succ_self _, fun other ho => ?_⟩, ?_⟩
      · obtain rfl := Option.some.inj (hnext.symm.trans ho)
        exact hlater
      · rw [Machine.run_append, hrun]
        exact htail
    cases hdirected with
    | stay targets dir hk =>
        obtain ⟨ha, hr⟩ := hends (next_stay h env targets hk) (l := []) trivial rfl
        exact ⟨ha, hr, rfl⟩
    | transition targets dir tag hk hn =>
        obtain ⟨ha, hr⟩ := hends (next_transition h env targets hk hn) (l := []) trivial rfl
        exact ⟨ha, hr, rfl⟩
    | done targets dir body v hk hbody hrun hv =>
        have hended : (s.ended params env targets).Attached :=
          ⟨fun hd => absurd (h.alive.symm.trans hd) nofun, nofun⟩
        have halive : v.destroyed = false := by
          by_contra hd
          have hempty := (attached_run hended hrun).alive (by simpa using hd)
          exact absurd (hv.symm.trans hempty) nofun
        have hpop : (machine params).step v .done_returns = some { v with stack := s.stack } := by
          simp [machine, next, halive, hv]
        have habove : Above params s.stack.length (s.ended params env targets)
            (body ++ [.done_returns]) :=
          hbody.trans hrun ⟨by simp [hv], fun _ _ => trivial⟩
        have hbodyrun := Machine.run_concat hrun hpop
        obtain ⟨ha, hr⟩ := hends (next_done h env targets hk) habove hbodyrun
        exact ⟨ha, hr, rfl⟩

theorem attached_init (params : Params S ε) : (init params).Attached := ⟨nofun, nofun⟩

theorem flowDones_run {params : Params S ε} {s t : Run S ε} {events : List (Event S ε)}
    (hr : (machine params).run s events = some t) :
    (t.effects.filter Effect.isFlowDone).length =
      (s.effects.filter Effect.isFlowDone).length + (events.filter Event.isDone).length := by
  induction events generalizing s with
  | nil => exact Option.some.inj hr ▸ rfl
  | cons event events ih =>
      obtain ⟨mid, hs, hrest⟩ := Machine.run_cons_some hr
      rw [ih hrest]
      have hquiet {new : List (Effect S ε)} (hd : event.isDone = false)
          (he : mid.effects = s.effects ++ new) (hn : new.filter Effect.isFlowDone = []) :
          (mid.effects.filter Effect.isFlowDone).length + (events.filter Event.isDone).length =
            (s.effects.filter Effect.isFlowDone).length +
              ((event :: events).filter Event.isDone).length := by
        rw [he, List.filter_append, hn, List.append_nil, List.filter_cons_of_neg (by simp [hd])]
      cases next_moves hs with
      | called _ env new hd _ he hn => exact hquiet hd he hn
      | aside _ new hd _ he hn => exact hquiet hd he hn
      | returned dir env rest new hd _ _ he hn =>
          exact hquiet (by simpa [Event.isDone] using hd) he hn
      | done_returned rest _ hmid => exact hquiet rfl (by rw [hmid, List.append_nil]) rfl
      | done dir env rest hd _ _ he =>
          have hdone : Event.isDone (.returns dir : Event S ε) = true := by
            simp [Event.isDone, hd]
          have hone : [Effect.destruct s.current_, .on_flow_done].filter
              (Effect.isFlowDone : Effect S ε → Bool) = [.on_flow_done] := rfl
          rw [he, List.filter_append, hone, List.length_append, List.filter_cons_of_pos hdone,
            List.length_cons, List.length_cons, List.length_nil]
          omega

theorem in_step_iff {s : Run S ε} (h : s.Invariant) :
    s.in_step_ = true ↔ ∃ env, .handling env ∈ s.stack := by
  constructor
  · intro hi
    obtain ⟨env, rest, hstack, _⟩ := (nested_running hi).mp h.nested
    exact ⟨env, hstack ▸ List.mem_cons_self⟩
  · rintro ⟨env, hmem⟩
    by_contra hi
    exact nomatch (nested_idle (by simpa using hi)).mp h.nested _ hmem

-- In every state that a flow can be brought to: `in_step_` says that a state is
-- running; each `done()` has had one call of `on_flow_done` and nothing else has had
-- any, and that call is made with the Locals gone and both flags down, while `step` is
-- still under way; and a call of `step` goes through the states that the directives name,
-- all with its own envelope, and leaves the flow as the last of them says.
theorem step_follows_directives {params : Params S ε} {history : List (Event S ε)}
    {s : Run S ε} (hr : (machine params).run (init params) history = some s) :
    (s.in_step_ = true ↔ ∃ env, .handling env ∈ s.stack) ∧
    (s.effects.filter Effect.isFlowDone).length = (history.filter Event.isDone).length ∧
    (∀ event t, next params s event = some t →
      if event.isDone then
        t.effects = s.effects ++ [.destruct s.current_, .on_flow_done] ∧ t.live = none ∧
          t.active_ = false ∧ t.in_step_ = false ∧
          ∃ env stack, s.stack = .handling env :: stack ∧ t.stack = .flow_done :: stack
      else t.effects.filter Effect.isFlowDone = s.effects.filter Effect.isFlowDone) ∧
    (s.active_ = true → s.in_step_ = false → s.destroyed = false → ∀ env events t,
      (Calls params env s events t ↔ Directed params env s events t)) ∧
    ∀ env targets, handled (chain params env s.current_ targets) =
      (s.current_ :: targets).map fun tag => (tag, env) := by
  have h := reachable_invariant ⟨history, hr⟩
  have hattached := attached_run (attached_init params) hr
  refine ⟨in_step_iff h, ?_, fun event t hs => ?_, fun ha hi hd env events t => ?_,
    fun env targets => handled_chain params env s.current_ targets⟩
  · have hcount := flowDones_run hr
    rw [hcount]
    simp [init]
  · have hquiet {new : List (Effect S ε)} (hd : event.isDone = false)
        (he : t.effects = s.effects ++ new) (hn : new.filter Effect.isFlowDone = []) :
        t.effects.filter Effect.isFlowDone = s.effects.filter Effect.isFlowDone := by
      rw [he, List.filter_append, hn, List.append_nil]
    cases next_moves hs with
    | called _ env new hd _ he hn | aside _ new hd _ he hn =>
        rw [if_neg (by simp [hd])]
        exact hquiet hd he hn
    | returned dir env rest new hd _ _ he hn =>
        rw [if_neg (by simpa [Event.isDone] using hd)]
        exact hquiet (by simpa [Event.isDone] using hd) he hn
    | done_returned rest _ ht =>
        exact hquiet rfl (by rw [ht, List.append_nil]) rfl
    | done dir env rest hd hstack ht he ha hi =>
        rw [if_pos (by simpa [Event.isDone] using hd)]
        exact ⟨he, live_inactive ha, ha, hi, env, rest, hstack, ht⟩
  · exact calls_iff_directed ⟨ha, hi, h.bound.trans ha, hattached.owner ha, hd⟩

-- A chain of two immediate transitions ends the flow; the callback restarts it, and
-- the new run ends in the same way before the first call of `step` returns.
def nestedHistory : List (Event Nat Unit) := [.start, .returns stay]

def nestedCall : List (Event Nat Unit) :=
  nows [1, 2] ++ .returns done :: ([.restart, .returns (transition_to_now 1), .returns done,
    .terminate, .done_returns] ++ [.done_returns])

theorem step_follows_directives_nestedCall :
    ∃ s t : Run Nat Unit, (s.effects.filter Effect.isFlowDone).length = 0 ∧
      handled s.effects = [(0, ())] ∧
      Directed ⟨0, "M", toString, ()⟩ () s nestedCall t ∧ t.active_ = false ∧
      handled t.effects = [0, 0, 1, 2, 0, 1].map fun tag => (tag, ()) := by
  let params : Params Nat Unit := ⟨0, "M", toString, ()⟩
  have hrun : (((machine params).run (init params) nestedHistory).bind fun s =>
      (next params s (.step ())).bind fun first =>
        ((machine params).run first nestedCall).map fun t =>
          (s.active_ && !s.in_step_ && !s.destroyed && !t.active_ &&
            decide (Above params s.stack.length first nestedCall) &&
              decide (t.stack = s.stack), handled s.effects, handled t.effects)) =
      some (true, [(0, ())], [0, 0, 1, 2, 0, 1].map fun tag => (tag, ())) := by
    decide +kernel
  obtain ⟨s, hs, hcall⟩ := Option.bind_eq_some_iff.mp hrun
  obtain ⟨first, hfirst, hcall⟩ := Option.bind_eq_some_iff.mp hcall
  obtain ⟨t, ht, hread⟩ := Option.map_eq_some_iff.mp hcall
  obtain ⟨hstate, hread⟩ := Prod.mk.inj hread
  obtain ⟨hbefore, hafter⟩ := Prod.mk.inj hread
  simp only [Bool.and_eq_true, Bool.not_eq_true', decide_eq_true_eq] at hstate
  obtain ⟨⟨⟨⟨⟨hactive, hidle⟩, halive⟩, hended⟩, habove⟩, hstack⟩ := hstate
  obtain ⟨_, hcount, _, hiff, _⟩ := step_follows_directives hs
  refine ⟨s, t, hcount, hbefore, ?_, hended, hafter⟩
  exact (hiff hactive hidle halive () nestedCall t).mp ⟨first, hfirst, habove, ht, hstack⟩

end Run

end Flow

end CortexFlow
