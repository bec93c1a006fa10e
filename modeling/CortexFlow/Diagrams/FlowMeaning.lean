import CortexFlow.Diagrams.FlowDiagram
import CortexFlow.Flow.Directives

namespace CortexFlow

namespace Diagrams

open Lib CortexFlow.Flow

variable {isalnum : Char → Bool} {ε : Type*}

-- What the conditions of the handlers say of what a state is called with. A condition with
-- a check holds only of a message of the type that is checked for.
structure Reading (isalnum : Char → Bool) (ε : Type*) where
  has_type : ε → Text → Prop
  holds : Condition isalnum → ε → Bool
  checked : ∀ condition env label, condition.guard = some label →
    holds condition env = true → has_type env label

-- The directive that a body comes to first. There is none if it has no more to return.
def Body.eval (r : Reading isalnum ε) (env : ε) : Body isalnum → Option (Directive isalnum)
  | .nil _ => none
  | .ret stmt _ => some stmt.call.directive
  | .block _ _ _ condition body rest =>
      if r.holds condition env then (body.eval r env).or (rest.eval r env) else rest.eval r env

def Directive.denote : Directive isalnum → StateDirective Text
  | .stay => Flow.stay
  | .done => Flow.done
  | .transition_to target => Flow.transition_to target.last.text
  | .transition_to_now target => Flow.transition_to_now target.last.text

def DirectiveKind.denote : DirectiveKind → Kind
  | .transition => .Transition
  | .transition_now => .TransitionNow
  | .done => .Done

-- What an edge says: in its state, called with a message of its type, the flow may do so.
def FlowEdge.Shows (has_type : ε → Text → Prop) (e : FlowEdge) (tag : Text) (env : ε)
    (dir : StateDirective Text) : Prop :=
  e.from_state = tag ∧ e.directive.denote = dir.kind ∧ e.to_state = dir.next ∧
    ∀ label, e.message = some label → has_type env label

section Eval

variable {r : Reading isalnum ε} {env : ε}

-- What is returned is written under a guard that holds.
theorem Body.eval_returns (b : Body isalnum) {guard : Option Text} {d : Directive isalnum}
    (hguard : ∀ label, guard = some label → r.has_type env label)
    (h : b.eval r env = some d) :
    ∃ inner, (d, inner) ∈ b.returns guard ∧ ∀ label, inner = some label → r.has_type env label := by
  induction b generalizing guard with
  | nil lead => cases h
  | ret stmt rest ih =>
      obtain rfl := Option.some.inj h
      exact ⟨guard, List.mem_cons_self, hguard⟩
  | block lead gap brace condition body rest ihbody ihrest =>
      have hlater (hrest : rest.eval r env = some d) :
          ∃ inner, (d, inner) ∈ (Body.block lead gap brace condition body rest).returns guard ∧
            ∀ label, inner = some label → r.has_type env label := by
        obtain ⟨inner, hmem, hinner⟩ := ihrest hguard hrest
        exact ⟨inner, List.mem_append_right _ hmem, hinner⟩
      rw [Body.eval] at h
      by_cases hholds : r.holds condition env = true
      · rw [if_pos hholds] at h
        cases hbody : body.eval r env with
        | none =>
            rw [hbody, Option.none_or] at h
            exact hlater h
        | some first =>
            rw [hbody, Option.some_or] at h
            obtain rfl := Option.some.inj h
            have hinside : ∀ label, condition.guard.or guard = some label →
                r.has_type env label := by
              intro label hlabel
              cases hcheck : condition.guard with
              | none =>
                  rw [hcheck, Option.none_or] at hlabel
                  exact hguard label hlabel
              | some checked =>
                  rw [hcheck, Option.some_or] at hlabel
                  exact r.checked condition env label (hcheck.trans hlabel) hholds
            obtain ⟨inner, hmem, hinner⟩ := ihbody hinside hbody
            exact ⟨inner, List.mem_append_left _ hmem, hinner⟩
      · rw [if_neg hholds] at h
        exact hlater h

theorem Directive.edge_shows {has_type : ε → Text → Prop} (state : Text)
    {d : Directive isalnum} (hd : d ≠ .stay) {guard : Option Text}
    (hguard : ∀ label, guard = some label → has_type env label) :
    ∃ e, d.edge state guard = some e ∧ e.Shows has_type state env d.denote := by
  cases d with
  | stay => exact absurd rfl hd
  | done => exact ⟨_, rfl, rfl, rfl, rfl, hguard⟩
  | transition_to target => exact ⟨_, rfl, rfl, rfl, rfl, hguard⟩
  | transition_to_now target => exact ⟨_, rfl, rfl, rfl, rfl, hguard⟩

-- The directives of a handler are labelled as they are guarded.
def Body.Labelled (b : Body isalnum) : Prop :=
  NoStrays (b.marks none) ∧ Direct none (b.marks none)

theorem Body.Labelled.edges {b : Body isalnum} (h : b.Labelled) (state : Text) :
    edges state (preceded none (b.marks none)) = Diagrams.edges state (b.returns none) := by
  rw [b.returns_eq]
  exact (preceded_eq_iff state (b.marks none) none).mpr h

-- Nothing guards what a handler begins with.
theorem Body.eval_listed (b : Body isalnum) {d : Directive isalnum} (h : b.eval r env = some d) :
    ∃ inner, (d, inner) ∈ b.returns none ∧
      ∀ label, inner = some label → r.has_type env label := by
  refine b.eval_returns ?_ h
  intro label hlabel
  cases hlabel

-- What a handler returns is drawn.
theorem Body.eval_drawn {b : Body isalnum} (hb : b.Labelled) (state : Text)
    {d : Directive isalnum} (h : b.eval r env = some d) (hd : d ≠ .stay) :
    ∃ e ∈ edges state (preceded none (b.marks none)), e.Shows r.has_type state env d.denote := by
  obtain ⟨guard, hmem, hguard⟩ := b.eval_listed h
  obtain ⟨e, hedge, hshows⟩ := d.edge_shows state hd hguard
  refine ⟨e, ?_, hshows⟩
  rw [hb.edges]
  exact List.mem_filterMap.mpr ⟨(d, guard), hmem, hedge⟩

end Eval

-- A state answers as its handler is written.
def answers (r : Reading isalnum ε) (handlers : Text → Option (Body isalnum)) (s : Run Text ε) :
    Run.Event Text ε → Bool
  | .returns dir =>
      match s.stack with
      | .handling env :: _ =>
          ((handlers s.current_).bind (Body.eval r env)).map Directive.denote = some dir
      | _ => true
  | _ => true

theorem answers_handling {r : Reading isalnum ε} {handlers : Text → Option (Body isalnum)}
    {s : Run Text ε} {env : ε} {stack : List (Frame ε)} (hs : s.stack = .handling env :: stack)
    {dir : StateDirective Text} (h : answers r handlers s (.returns dir) = true) :
    ∃ body d, handlers s.current_ = some body ∧ body.eval r env = some d ∧ d.denote = dir := by
  simp only [answers, hs, decide_eq_true_eq] at h
  obtain ⟨d, hd, hdir⟩ := Option.map_eq_some_iff.mp h
  obtain ⟨body, hbody, heval⟩ := Option.bind_eq_some_iff.mp hd
  exact ⟨body, d, hbody, heval, hdir⟩

-- The initial state and the targets are in the `StateList` of the flow.
structure Listed (states : List Text) (initial : Text) (handlers : Text → Option (Body isalnum)) :
    Prop where
  initial : initial ∈ states
  targets : ∀ state ∈ states, ∀ body, handlers state = some body →
    ∀ d guard, (d, guard) ∈ body.returns none → ∀ target, d.target = some target →
      target.last.text ∈ states

def FlowIR.Leads (ir : FlowIR) (tag next : Text) : Prop :=
  ∃ e ∈ ir.edges, e.from_state = tag ∧ e.to_state = some next

section Runs

theorem enter_current {params : Params Text ε} {s t : Run Text ε}
    (h : Run.completed (s.enter_initial_ params) = some t) : t.current_ = params.initial_ := by
  unfold Run.enter_initial_ Run.step at h
  split_ifs at h
  · cases h
  · cases h
  · obtain rfl := Option.some.inj h
    rfl

theorem resume_current {params : Params Text ε} {s t : Run Text ε} {env : ε}
    {dir : StateDirective Text} (h : Run.completed (s.resume params env dir) = some t) :
    t.current_ = s.current_ ∨ dir.next = some t.current_ := by
  unfold Run.resume at h
  cases hkind : dir.kind with
  | Stay =>
      simp only [hkind] at h
      obtain rfl := Option.some.inj h
      exact Or.inl rfl
  | Done =>
      simp only [hkind] at h
      split_ifs at h
      · cases h
      · obtain rfl := Option.some.inj h
        exact Or.inl rfl
  | Transition | TransitionNow =>
      simp only [hkind] at h
      cases hnext : dir.next with
      | none =>
          rw [hnext] at h
          cases h
      | some next =>
          rw [hnext] at h
          obtain rfl := Option.some.inj h
          exact Or.inr rfl

-- The state of a flow changes to the initial one, or to the target of a transition.
theorem next_current {params : Params Text ε} {s t : Run Text ε} {event : Run.Event Text ε}
    (h : Run.next params s event = some t) :
    t.current_ = s.current_ ∨ t.current_ = params.initial_ ∨
      ∃ dir env stack, event = .returns dir ∧ s.stack = .handling env :: stack ∧
        dir.next = some t.current_ := by
  unfold Run.next at h
  by_cases hdestroyed : s.destroyed = true
  · rw [if_pos hdestroyed] at h
    cases h
  rw [if_neg hdestroyed] at h
  cases event with
  | start =>
      simp only [Run.start] at h
      split_ifs at h
      · cases h
      · exact Or.inr (Or.inl (enter_current h))
  | step env =>
      simp only [Run.step] at h
      split_ifs at h
      · cases h
      · cases h
      · obtain rfl := Option.some.inj h
        exact Or.inl rfl
  | terminate =>
      simp only [Run.terminate] at h
      split_ifs at h
      · cases h
      · obtain rfl := Option.some.inj h
        exact Or.inl rfl
      · obtain rfl := Option.some.inj h
        exact Or.inl rfl
  | restart =>
      simp only [Run.restart] at h
      split_ifs at h
      · cases h
      · cases h
      · exact Or.inr (Or.inl (enter_current h))
      · exact Or.inr (Or.inl (enter_current h))
  | returns dir =>
      simp only at h
      split at h
      · next env stack hstack =>
          obtain hsame | htarget := resume_current h
          · exact Or.inl hsame
          · exact Or.inr (Or.inr ⟨dir, env, stack, rfl, hstack, htarget⟩)
      · cases h
  | done_returns =>
      simp only at h
      split at h
      · obtain rfl := Option.some.inj h
        exact Or.inl rfl
      · cases h
  | destroy =>
      simp only at h
      split_ifs at h
      · obtain rfl := Option.some.inj h
        exact Or.inl rfl
      · obtain rfl := Option.some.inj h
        exact Or.inl rfl

variable {states : List Text} {initial : Text} {handlers : Text → Option (Body isalnum)}
  {r : Reading isalnum ε} {ir : FlowIR}

-- What a state returns is drawn, and leads to a state of the flow.
theorem returns_drawn (hl : Listed states initial handlers)
    (hlabelled : ∀ state ∈ states, ∀ body, handlers state = some body → body.Labelled)
    (hedges : ir.edges = states.flatMap (handled_edges handlers)) {state : Text}
    (hstate : state ∈ states) {body : Body isalnum} (hbody : handlers state = some body) {env : ε}
    {d : Directive isalnum} (hd : body.eval r env = some d) :
    (d.denote.kind = .Stay ∨ ∃ e ∈ ir.edges, e.Shows r.has_type state env d.denote) ∧
      ∀ next, d.denote.next = some next → next ∈ states := by
  constructor
  · by_cases hstay : d = .stay
    · subst hstay
      exact Or.inl rfl
    · obtain ⟨e, he, hshows⟩ := body.eval_drawn (hlabelled state hstate body hbody) state hd hstay
      refine Or.inr ⟨e, ?_, hshows⟩
      rw [hedges]
      refine List.mem_flatMap.mpr ⟨state, hstate, ?_⟩
      rwa [handled_edges, hbody]
  · obtain ⟨guard, hmem, -⟩ := body.eval_listed hd
    intro next hnext
    cases d with
    | stay => cases hnext
    | done => cases hnext
    | transition_to target | transition_to_now target =>
        obtain rfl := Option.some.inj hnext
        exact hl.targets state hstate body hbody _ guard hmem target rfl

-- Where the flow is, the diagram leads to.
def FlowIR.Led (ir : FlowIR) (states : List Text) (initial : Text) (s : Run Text ε) : Prop :=
  s.current_ ∈ states ∧ Relation.ReflTransGen ir.Leads initial s.current_

theorem led_step (hl : Listed states initial handlers)
    (hlabelled : ∀ state ∈ states, ∀ body, handlers state = some body → body.Labelled)
    (hedges : ir.edges = states.flatMap (handled_edges handlers)) {params : Params Text ε}
    (hinitial : params.initial_ = initial) {s t : Run Text ε} {event : Run.Event Text ε}
    (hs : FlowIR.Led ir states initial s) (hanswers : answers r handlers s event = true)
    (h : Run.next params s event = some t) : FlowIR.Led ir states initial t := by
  unfold FlowIR.Led
  rcases next_current h with hsame | hfirst | ⟨dir, env, stack, rfl, hstack, hnext⟩
  · rw [hsame]
    exact hs
  · rw [hfirst, hinitial]
    exact ⟨hl.initial, .refl⟩
  · obtain ⟨body, d, hbody, hd, rfl⟩ := answers_handling hstack hanswers
    obtain ⟨hdrawn, htargets⟩ := returns_drawn hl hlabelled hedges hs.1 hbody hd
    refine ⟨htargets _ hnext, hs.2.tail ?_⟩
    cases hdrawn with
    | inl hstay =>
        cases d with
        | stay => cases hnext
        | done => cases hnext
        | transition_to target => cases hstay
        | transition_to_now target => cases hstay
    | inr hedge =>
        obtain ⟨e, he, hfrom, -, hto, -⟩ := hedge
        exact ⟨e, he, hfrom, hto.trans hnext⟩

-- The diagram of a module covers all that its flow does: a state that the flow is in can
-- be reached from the start marker along the edges drawn, and what it returns is drawn as
-- an edge from there, under the type of the message that it was called with or under none.
theorem flow_covered {header source : Items isalnum} (hw : Written header source states handlers)
    (hl : Listed states initial handlers)
    (hlabelled : ∀ state ∈ states, ∀ body, handlers state = some body → body.Labelled)
    {module_name : Text}
    (hdecl : _find_flow_decl isalnum header.text module_name = some (states, initial))
    (app_namespace : Text) {params : Params Text ε} (hinitial : params.initial_ = initial)
    {events : List (Run.Event Text ε)} {t : Run Text ε}
    (hmeets : (Run.machine params).Meets (fun s event => answers r handlers s event = true)
      (.init params) events)
    (hrun : (Run.machine params).run (.init params) events = some t) :
    ∃ ir, extract_flow isalnum module_name app_namespace header.text (some source.text) =
        some ir ∧ t.current_ ∈ ir.states ∧
      Relation.ReflTransGen ir.Leads ir.initial_state t.current_ ∧
      ∀ env stack dir, t.stack = .handling env :: stack →
        answers r handlers t (.returns dir) = true →
        dir.kind = .Stay ∨ ∃ e ∈ ir.edges, e.Shows r.has_type t.current_ env dir := by
  obtain ⟨ir, hir, -, hstates, hfirst, hedges⟩ := extract_written hw hdecl app_namespace
  have hat : FlowIR.Led ir states initial t := by
    refine Machine.run_invariant_of_meets (fun s event next hs hanswers hnext => ?_) ?_ hmeets hrun
    · exact led_step hl hlabelled hedges hinitial hs hanswers hnext
    · subst hinitial
      exact ⟨hl.initial, .refl⟩
  refine ⟨ir, hir, hstates ▸ hat.1, hfirst ▸ hat.2, fun env stack dir hstack hanswers => ?_⟩
  obtain ⟨body, d, hbody, hd, rfl⟩ := answers_handling hstack hanswers
  exact (returns_drawn hl hlabelled hedges hat.1 hbody hd).1

section Example

def by_name : Reading no_words Text where
  has_type env label := env = label
  holds condition env := condition.guard.all fun label => env = label
  checked condition env label hguard hholds := by simpa [hguard] using hholds

def shift_params : Params Text Text :=
  { initial_ := ['A'], owner_name := "M", name := String.ofList, init_env := [] }

def shiftRun : List (Run.Event Text Text) :=
  [.start, .returns Flow.stay, .step "Go".toList, .returns (Flow.transition_to ['B']), .step []]

theorem listed_shift : Listed [['A'], ['B']] ['A'] shifts where
  initial := List.mem_cons_self
  targets := by
    intro state hstate body hbody d guard hmem target htarget
    simp only [List.mem_cons, List.not_mem_nil, or_false] at hstate
    rcases hstate with rfl | rfl
    · obtain rfl := Option.some.inj hbody
      simp only [shift, Body.returns, List.mem_cons, List.singleton_append, List.not_mem_nil,
        or_false, Prod.mk.injEq] at hmem
      rcases hmem with ⟨rfl, -⟩ | ⟨rfl, -⟩
      · obtain rfl := Option.some.inj htarget
        decide
      · cases htarget
    · obtain rfl := Option.some.inj hbody
      simp only [end_flow, Body.returns, List.mem_cons, List.not_mem_nil, or_false,
        Prod.mk.injEq] at hmem
      obtain ⟨rfl, -⟩ := hmem
      cases htarget

theorem labelled_shift : ∀ state ∈ [['A'], ['B']], ∀ body, shifts state = some body →
    body.Labelled := by
  intro state hstate body hbody
  simp only [List.mem_cons, List.not_mem_nil, or_false] at hstate
  rcases hstate with rfl | rfl
  · obtain rfl := Option.some.inj hbody
    exact (preceded_eq_iff [] _ none).mp (by decide +kernel)
  · obtain rfl := Option.some.inj hbody
    exact (preceded_eq_iff [] _ none).mp (by decide +kernel)

theorem flow_covered_shiftRun :
    ∃ (t : Run Text Text) (ir : FlowIR),
      (Run.machine shift_params).run (.init shift_params) shiftRun = some t ∧ t.current_ = ['B'] ∧
      extract_flow no_words ['M'] ['n'] shift_header.text (some shift_source.text) = some ir ∧
      Relation.ReflTransGen ir.Leads ir.initial_state ['B'] := by
  have hrun : ((Run.machine shift_params).run (.init shift_params) shiftRun).map Run.current_ =
      some ['B'] := by
    decide +kernel
  obtain ⟨t, hrun, hcurrent⟩ := Option.map_eq_some_iff.mp hrun
  obtain ⟨ir, hir, -, hleads, -⟩ := flow_covered (r := by_name) written_shift listed_shift
    labelled_shift declared_shift ['n'] rfl (by decide +kernel) hrun
  exact ⟨t, ir, hrun, hcurrent, hir, hcurrent ▸ hleads⟩

end Example

end Runs

end Diagrams

end CortexFlow
