import CortexFlow.App.Basic
import CortexFlow.Flow.Directives

namespace CortexFlow

namespace App

open CortexFlow.Flow

variable {κ : Type*} {V : κ → Type*} {π ι S : Type*}

-- A module that hands its envelopes to a flow: what the Locals of a state do when
-- they are constructed and destructed, and what its `handle` asks for before it
-- stays (`none`) or returns `transition_to`.
structure FlowModule {κ : Type*} (V : κ → Type*) (π ι S : Type*) where
  flow : Params S (Envelope (Payload V π))
  construct : S → List (Act V π ι)
  destruct : S → List (Act V π ι)
  handle : Slots V → S → Envelope (Payload V π) → List (Act V π ι) × Option S

abbrev FlowRun {κ : Type*} (V : κ → Type*) (π S : Type*) := Run S (Envelope (Payload V π))

def directive : Option S → StateDirective S
  | none => stay
  | some next => transition_to next

namespace FlowModule

def acts (m : FlowModule V π ι S) : Effect S (Envelope (Payload V π)) → List (Act V π ι)
  | .construct tag => m.construct tag
  | .destruct tag => m.destruct tag
  | _ => []

-- The state that the flow has called answers, and the flow goes on to the end of
-- its step.
def conclude (m : FlowModule V π ι S) (run : FlowRun V π S) (env : Envelope (Payload V π))
    (reply : List (Act V π ι) × Option S) : Outcome (FlowRun V π S) (List (Act V π ι)) :=
  match { run with stack := run.stack.tail }.resume m.flow env (directive reply.2) with
  | .fault next reason => .fault next reason
  | .ok next _ =>
      .ok next (reply.1 ++ (next.effects.drop run.effects.length).flatMap m.acts)

-- `flow.step(env)`
def step (m : FlowModule V π ι S) (slots : Slots V) (run : FlowRun V π S)
    (env : Envelope (Payload V π)) : Outcome (FlowRun V π S) (List (Act V π ι)) :=
  match run.step env with
  | .fault next reason => .fault next reason
  | .ok called _ => m.conclude called env (m.handle slots called.current_ env)

-- `flow.start(*this)`
def start (m : FlowModule V π ι S) (slots : Slots V) (run : FlowRun V π S) :
    Outcome (FlowRun V π S) (List (Act V π ι)) :=
  match run.start m.flow with
  | .fault next reason => .fault next reason
  | .ok called _ =>
      match m.conclude called m.flow.init_env
        (m.handle slots called.current_ m.flow.init_env) with
      | .fault next reason => .fault next reason
      | .ok next acts =>
          .ok next ((called.effects.drop run.effects.length).flatMap m.acts ++ acts)

-- The destructor of the flow.
def destroy (m : FlowModule V π ι S) (run : FlowRun V π S) : List (Act V π ι) :=
  if run.active_ then m.destruct run.current_ else []

-- A flow that is in the state and can be stepped.
structure Rests (run : FlowRun V π S) (tag : S) : Prop where
  ready : run.Ready
  current : run.current_ = tag

variable {m : FlowModule V π ι S} {run : FlowRun V π S} {tag : S}

-- What the module asks for in a step, with the answer of the state.
def asked (m : FlowModule V π ι S) (tag : S) (reply : List (Act V π ι) × Option S) :
    List (Act V π ι) :=
  reply.1 ++ reply.2.elim [] fun target => m.destruct tag ++ m.construct target

theorem asked_none (m : FlowModule V π ι S) (tag : S) (before : List (Act V π ι)) :
    m.asked tag (before, none) = before :=
  List.append_nil before

theorem asked_some (m : FlowModule V π ι S) (tag target : S) (before : List (Act V π ι)) :
    m.asked tag (before, some target) = before ++ (m.destruct tag ++ m.construct target) := rfl

theorem conclude_eq (m : FlowModule V π ι S) (run : FlowRun V π S) (hb : run.locals_bound = true)
    (env : Envelope (Payload V π)) (reply : List (Act V π ι) × Option S) :
    ∃ next, m.conclude run env reply = .ok next (m.asked run.current_ reply) ∧
      next.current_ = reply.2.getD run.current_ ∧ next.active_ = run.active_ ∧
      next.in_step_ = false ∧ next.locals_bound = true ∧ next.owner_bound = run.owner_bound ∧
      next.destroyed = run.destroyed := by
  obtain ⟨before, target⟩ := reply
  cases target with
  | none =>
      refine ⟨{ run with stack := run.stack.tail, in_step_ := false }, ?_, rfl, rfl, rfl, hb, rfl,
        rfl⟩
      simp only [conclude, directive, stay, Run.resume, asked, List.drop_length]
      rfl
  | some target =>
      let changed := { run with stack := run.stack.tail }.change m.flow target
      have heffects : changed.effects = run.effects ++
          [.trace (Run.transitionRecord m.flow run.current_ target), .destruct run.current_,
            .construct target] := by
        simp [changed, Run.change, Run.enter, Run.emit]
      have hdrop : changed.effects.drop run.effects.length =
          [.trace (Run.transitionRecord m.flow run.current_ target), .destruct run.current_,
            .construct target] := by
        rw [heffects]
        exact List.drop_left
      refine ⟨{ changed with in_step_ := false }, ?_, rfl, rfl, rfl, rfl, rfl, rfl⟩
      simp only [conclude, directive, transition_to, Run.resume, asked]
      rw [hdrop]
      simp only [List.flatMap_cons, List.flatMap_nil, acts, List.nil_append, List.append_nil]
      rfl

theorem step_rests (h : Rests run tag) (slots : Slots V) (env : Envelope (Payload V π)) :
    ∃ next, m.step slots run env = .ok next (m.asked tag (m.handle slots tag env)) ∧
      Rests next ((m.handle slots tag env).2.getD tag) := by
  obtain ⟨hready, rfl⟩ := h
  have hstep : run.step env = .ok ({ run with in_step_ := true }.invoke env) () := by
    simp [Run.step, hready.active, hready.idle]
  have hbound : ({ run with in_step_ := true }.invoke env).locals_bound = true := hready.bound
  obtain ⟨next, hnext, htag, hactive, hidle, hlocals, howner, halive⟩ :=
    m.conclude_eq _ hbound env (m.handle slots run.current_ env)
  unfold step
  rw [hstep]
  exact ⟨next, hnext, ⟨hactive.trans hready.active, hidle, hlocals, howner.trans hready.owner,
    halive.trans hready.alive⟩, htag⟩

-- A flow that has just been constructed is started.
theorem start_fresh (m : FlowModule V π ι S) (slots : Slots V) :
    ∃ next, m.start slots (.init m.flow) = .ok next (m.construct m.flow.initial_ ++
        m.asked m.flow.initial_ (m.handle slots m.flow.initial_ m.flow.init_env)) ∧
      Rests next ((m.handle slots m.flow.initial_ m.flow.init_env).2.getD m.flow.initial_) := by
  let called : FlowRun V π S :=
    { ({ Run.init m.flow with owner_bound := true, active_ := true }.enter m.flow.initial_) with
      in_step_ := true }.invoke m.flow.init_env
  have hstart : (Run.init m.flow).start m.flow = .ok called () := rfl
  obtain ⟨next, hnext, htag, hactive, hidle, hlocals, howner, halive⟩ :=
    m.conclude_eq called rfl m.flow.init_env
      (m.handle slots m.flow.initial_ m.flow.init_env)
  refine ⟨next, ?_, ⟨hactive, hidle, hlocals, howner, halive⟩, htag⟩
  have hacts : (called.effects.drop (Run.init m.flow).effects.length).flatMap m.acts =
      m.construct m.flow.initial_ := by
    simp [called, Run.init, Run.enter, Run.invoke, Run.emit, acts]
  unfold start
  rw [hstart]
  simp only [hacts]
  rw [show called.current_ = m.flow.initial_ from rfl] at hnext ⊢
  rw [hnext]

theorem destroy_rests (h : Rests run tag) : m.destroy run = m.destruct tag := by
  obtain ⟨hready, rfl⟩ := h
  exact if_pos hready.active

end FlowModule

end App

end CortexFlow
