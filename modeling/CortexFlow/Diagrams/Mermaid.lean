import CortexFlow.Diagrams.FlowDiagram
import CortexFlow.Diagrams.ModuleGraph
import CortexFlow.Lib.Lines

namespace CortexFlow

namespace Diagrams

open Lib

section Render

-- `text.replace(c, entity)`
def replaced (c : Char) (entity : String) (t : Text) : Text :=
  t.flatMap fun d => if d = c then entity.toList else [d]

def _escape_label (t : Text) : Text :=
  replaced '>' "&gt;" (replaced '<' "&lt;" (replaced '&' "&amp;" t))

def _START_NODE : Text := "__start".toList

def _END_NODE : Text := "__end".toList

def _ARROW_BY_DIRECTIVE : DirectiveKind → Text
  | .transition => "-->".toList
  | .transition_now => "==>".toList
  | .done => "-.->".toList

-- `{source} {arrow}|"{label}"| {target}`
def labelled (source arrow label target : Text) : Text :=
  source ++ ' ' :: (arrow ++ '|' :: '"' :: (label ++ '"' :: '|' :: ' ' :: target))

-- An f-string writes `None` for a state that is none.
def _render_edge (edge : FlowEdge) : Text :=
  let arrow := _ARROW_BY_DIRECTIVE edge.directive
  let target := if edge.directive = .done then _END_NODE else edge.to_state.getD "None".toList
  match edge.message with
  | none | some [] => edge.from_state ++ ' ' :: (arrow ++ ' ' :: target)
  | some message => labelled edge.from_state arrow (_escape_label message) target

def indented (t : Text) : Text := "    ".toList ++ t

def generated : Text :=
  "%% Generated by scripts/gen-diagrams.py — do not edit by hand.".toList

def flow_head (module : Text) : List Text :=
  [ "%% Flow diagram for ".toList ++ module,
    generated,
    "graph LR".toList,
    "    classDef startMarker fill:#000,stroke:#000,color:#000".toList,
    "    classDef terminalMarker fill:#fff,stroke:#000,stroke-dasharray:3 3".toList,
    [],
    indented (_START_NODE ++ "(( )):::startMarker".toList)]

def state_lines (states : List Text) (has_done : Bool) : List Text :=
  states.map indented ++
    if has_done then [indented (_END_NODE ++ "((( ))):::terminalMarker".toList)] else []

def flow_lines (flow_ir : FlowIR) : List Text :=
  let has_done := flow_ir.edges.any fun e => e.directive = .done
  flow_head flow_ir.module ++ (state_lines flow_ir.states has_done ++
    [] :: indented (_START_NODE ++ " --> ".toList ++ flow_ir.initial_state) ::
      flow_ir.edges.map fun edge => indented (_render_edge edge))

def render_flow (flow_ir : FlowIR) : Text := Lines.joined '\n' (flow_lines flow_ir)

def _render_module_graph_node (node : ModuleGraphNode) : Text :=
  match node.kind with
  | .module => node.name ++ "[\"".toList ++ node.name ++ "\"]:::moduleNode".toList
  | .cache_key => node.name ++ "((\"".toList ++ node.name ++ "\")):::cacheKeyNode".toList

def _MODULE_GRAPH_ARROW_BY_KIND : EdgeKind → Text
  | .send => "-->".toList
  | .writes => "==>".toList
  | .key_changed => "-.->".toList

def _render_module_graph_edge (edge : ModuleGraphEdge) : Text :=
  labelled edge.source (_MODULE_GRAPH_ARROW_BY_KIND edge.kind) (_escape_label edge.label)
    edge.target

def module_graph_head (app : Text) : List Text :=
  [ "%% Module graph for ".toList ++ app,
    generated,
    "graph LR".toList,
    "    classDef moduleNode fill:#e3f2fd,stroke:#1565c0,color:#0d47a1".toList,
    "    classDef cacheKeyNode fill:#fff3e0,stroke:#ef6c00,color:#e65100".toList,
    []]

def module_graph_lines (graph_ir : ModuleGraphIR) : List Text :=
  module_graph_head graph_ir.app ++
    (graph_ir.nodes.map (fun node => indented (_render_module_graph_node node)) ++
      [] :: graph_ir.edges.map fun edge => indented (_render_module_graph_edge edge))

def render_module_graph (graph_ir : ModuleGraphIR) : Text :=
  Lines.joined '\n' (module_graph_lines graph_ir)

end Render

-- What is drawn can be read back.
section Labels

def escaped (c : Char) : Text :=
  if c = '&' then "&amp;".toList else if c = '<' then "&lt;".toList
  else if c = '>' then "&gt;".toList else [c]

theorem escape_eq (t : Text) : _escape_label t = t.flatMap escaped := by
  have hchar (c : Char) : _escape_label [c] = escaped c := by
    by_cases hamp : c = '&'
    · subst hamp
      rfl
    by_cases hlt : c = '<'
    · subst hlt
      rfl
    by_cases hgt : c = '>'
    · subst hgt
      rfl
    simp [_escape_label, replaced, escaped, hamp, hlt, hgt]
  induction t with
  | nil => rfl
  | cons c t ih =>
      have hcons : _escape_label (c :: t) = _escape_label [c] ++ _escape_label t := by
        simp [_escape_label, replaced]
      rw [hcons, hchar, ih, List.flatMap_cons]

-- No entity begins another, and nothing but an entity has an ampersand.
theorem escaped_inj {c d : Char} {t u : Text} (h : escaped c ++ t = escaped d ++ u) :
    c = d ∧ t = u := by
  unfold escaped at h
  split_ifs at h <;> simp_all [eq_comm]

theorem escaped_ne_nil (c : Char) : escaped c ≠ [] := by
  unfold escaped
  split_ifs <;> simp

theorem escape_injective : Function.Injective _escape_label := by
  intro t u h
  rw [escape_eq, escape_eq] at h
  induction t generalizing u with
  | nil =>
      cases u with
      | nil => rfl
      | cons d u => exact absurd (List.append_eq_nil_iff.mp h.symm).1 (escaped_ne_nil d)
  | cons c t ih =>
      cases u with
      | nil => exact absurd (List.append_eq_nil_iff.mp h).1 (escaped_ne_nil c)
      | cons d u =>
          obtain ⟨rfl, hrest⟩ := escaped_inj h
          rw [ih hrest]

-- A label has no angle brackets, and new lines only where the text has them.
theorem mem_escape {c : Char} {t : Text} (h : c ∈ _escape_label t) :
    c ≠ '<' ∧ c ≠ '>' ∧ (c = '\n' → c ∈ t) := by
  rw [escape_eq] at h
  obtain ⟨d, hd, hc⟩ := List.mem_flatMap.mp h
  unfold escaped at hc
  split_ifs at hc <;> simp at hc
  · rcases hc with rfl | rfl | rfl | rfl | rfl <;> simp
  · rcases hc with rfl | rfl | rfl | rfl <;> simp
  · rcases hc with rfl | rfl | rfl | rfl <;> simp
  · subst hc
    exact ⟨‹_›, ‹_›, fun _ => hd⟩

theorem labelled_inj {source arrow label target source' arrow' label' target' : Text}
    (hs : ' ' ∉ source) (hs' : ' ' ∉ source') (ha : '|' ∉ arrow) (ha' : '|' ∉ arrow')
    (ht : ' ' ∉ target) (ht' : ' ' ∉ target')
    (h : labelled source arrow label target = labelled source' arrow' label' target') :
    source = source' ∧ arrow = arrow' ∧ label = label' ∧ target = target' := by
  obtain ⟨hsource, hrest⟩ := Lines.split_first hs hs' h
  obtain ⟨harrow, hrest⟩ := Lines.split_first ha ha' hrest
  have hend : (label ++ ['"', '|']) ++ ' ' :: target =
      (label' ++ ['"', '|']) ++ ' ' :: target' := by
    simpa using hrest
  obtain ⟨hlabel, htarget⟩ := Lines.split_last ht ht' hend
  exact ⟨hsource, harrow, List.append_cancel_right hlabel, htarget⟩

end Labels

section Edges

variable (isalnum : Char → Bool)

abbrev Word (t : Text) : Prop := t.all (isword isalnum) = true

-- An edge between states that are named by words.
structure FlowEdge.Readable (e : FlowEdge) : Prop where
  source : Word isalnum e.from_state
  target : ∀ state, e.to_state = some state → Word isalnum state
  done : e.to_state = none ↔ e.directive = .done

structure FlowIR.Readable (ir : FlowIR) : Prop where
  module : '\n' ∉ ir.module
  states : ∀ state ∈ ir.states, Word isalnum state
  initial : Word isalnum ir.initial_state
  edges : ∀ e ∈ ir.edges, e.Readable isalnum

structure ModuleGraphIR.Readable (ir : ModuleGraphIR) : Prop where
  app : '\n' ∉ ir.app
  nodes : ∀ node ∈ ir.nodes, Word isalnum node.name
  edges : ∀ e ∈ ir.edges, Word isalnum e.source ∧ Word isalnum e.target ∧ '\n' ∉ e.label

variable {isalnum}

theorem not_mem_word {t : Text} (h : Word isalnum t) {c : Char} (hc : isword isalnum c = false) :
    c ∉ t := by
  intro hmem
  rw [List.all_eq_true.mp h c hmem] at hc
  cases hc

theorem word_end : Word isalnum _END_NODE :=
  List.all_eq_true.mpr (isword_ascii isalnum (by decide))

-- The arrow of an edge, but for its head.
def DirectiveKind.shaft : DirectiveKind → Text
  | .transition => "--".toList
  | .transition_now => "==".toList
  | .done => "-.-".toList

theorem arrow_eq (kind : DirectiveKind) : _ARROW_BY_DIRECTIVE kind = kind.shaft ++ ['>'] := by
  cases kind <;> rfl

theorem shaft_plain (kind : DirectiveKind) : ' ' ∉ kind.shaft ∧ '>' ∉ kind.shaft := by
  cases kind <;> decide

theorem shaft_injective : Function.Injective DirectiveKind.shaft := by
  intro kind kind' h
  cases kind <;> cases kind' <;> first | rfl | exact absurd h (by decide)

-- The state that an edge points at, or the terminal node.
def FlowEdge.pointed (e : FlowEdge) : Text :=
  if e.directive = .done then _END_NODE else e.to_state.getD "None".toList

theorem FlowEdge.Readable.pointed {e : FlowEdge} (h : e.Readable isalnum) :
    Word isalnum e.pointed := by
  unfold FlowEdge.pointed
  split_ifs with hdone
  · exact word_end
  · cases hto : e.to_state with
    | none => exact absurd (h.done.mp hto) hdone
    | some state => exact h.target state hto

-- The label of an edge. There is none for an empty message.
def drawn_label : Option Text → Option Text
  | some [] => none
  | message => message

-- What a document shows of an edge.
def FlowEdge.drawn (e : FlowEdge) : FlowEdge := { e with message := drawn_label e.message }

def FlowEdge.before (e : FlowEdge) : Text := e.from_state ++ ' ' :: e.directive.shaft

def FlowEdge.behind (e : FlowEdge) : Text :=
  match drawn_label e.message with
  | none => ' ' :: e.pointed
  | some message => '|' :: '"' :: (_escape_label message ++ '"' :: '|' :: ' ' :: e.pointed)

theorem render_edge_eq (e : FlowEdge) : _render_edge e = e.before ++ '>' :: e.behind := by
  unfold _render_edge FlowEdge.before FlowEdge.behind
  rw [arrow_eq]
  cases e.message with
  | none => simp [drawn_label, FlowEdge.pointed]
  | some message =>
      cases message with
      | nil => simp [drawn_label, FlowEdge.pointed]
      | cons c message => simp [drawn_label, labelled, FlowEdge.pointed]

theorem drawn_label_drawn (message : Option Text) :
    drawn_label (drawn_label message) = drawn_label message := by
  cases message with
  | none => rfl
  | some message => cases message <;> rfl

theorem render_drawn (e : FlowEdge) : _render_edge e.drawn = _render_edge e := by
  have hbehind : e.drawn.behind = e.behind := by
    unfold FlowEdge.behind
    rw [FlowEdge.drawn, drawn_label_drawn]
    rfl
  rw [render_edge_eq, render_edge_eq, hbehind]
  rfl

theorem FlowEdge.Readable.before {e : FlowEdge} (h : e.Readable isalnum) : '>' ∉ e.before := by
  have hsource : '>' ∉ e.from_state := not_mem_word h.source rfl
  simp [FlowEdge.before, hsource, (shaft_plain e.directive).2]

-- No label holds the head of an arrow.
theorem FlowEdge.Readable.behind {e : FlowEdge} (h : e.Readable isalnum) : '>' ∉ e.behind := by
  have hpointed : '>' ∉ e.pointed := not_mem_word h.pointed rfl
  have hlabel (message : Text) : '>' ∉ _escape_label message := fun hin => (mem_escape hin).2.1 rfl
  unfold FlowEdge.behind
  cases drawn_label e.message with
  | none => simp [hpointed]
  | some message => simp [hpointed, hlabel message]

theorem before_inj {e e' : FlowEdge} (h : e.Readable isalnum) (h' : e'.Readable isalnum)
    {t t' : Text} (heq : t ++ indented e.before = t' ++ indented e'.before) :
    t = t' ∧ (e.from_state, e.directive) = (e'.from_state, e'.directive) := by
  have hspace {u : Text} (hu : Word isalnum u) : ' ' ∉ u := not_mem_word hu rfl
  have hshafts : (t ++ "    ".toList ++ e.from_state) ++ ' ' :: e.directive.shaft =
      (t' ++ "    ".toList ++ e'.from_state) ++ ' ' :: e'.directive.shaft := by
    simpa [indented, FlowEdge.before] using heq
  obtain ⟨hfront, hshaft⟩ :=
    Lines.split_last (shaft_plain e.directive).1 (shaft_plain e'.directive).1 hshafts
  have hsources : (t ++ "   ".toList) ++ ' ' :: e.from_state =
      (t' ++ "   ".toList) ++ ' ' :: e'.from_state := by
    simpa using hfront
  obtain ⟨hrest, hsource⟩ := Lines.split_last (hspace h.source) (hspace h'.source) hsources
  exact ⟨List.append_cancel_right hrest, by rw [hsource, shaft_injective hshaft]⟩

theorem behind_inj {e e' : FlowEdge} (h : e.Readable isalnum) (h' : e'.Readable isalnum)
    (heq : e.behind = e'.behind) :
    drawn_label e.message = drawn_label e'.message ∧ e.pointed = e'.pointed := by
  have hspace : ' ' ∉ e.pointed := not_mem_word h.pointed rfl
  have hspace' : ' ' ∉ e'.pointed := not_mem_word h'.pointed rfl
  unfold FlowEdge.behind at heq
  cases hlabel : drawn_label e.message with
  | none =>
      rw [hlabel] at heq
      cases hlabel' : drawn_label e'.message with
      | none =>
          rw [hlabel'] at heq
          exact ⟨rfl, (List.cons.inj heq).2⟩
      | some label' =>
          rw [hlabel'] at heq
          exact absurd (List.cons.inj heq).1 (by decide)
  | some label =>
      rw [hlabel] at heq
      cases hlabel' : drawn_label e'.message with
      | none =>
          rw [hlabel'] at heq
          exact absurd (List.cons.inj heq).1 (by decide)
      | some label' =>
          rw [hlabel'] at heq
          have hend : (_escape_label label ++ ['"', '|']) ++ ' ' :: e.pointed =
              (_escape_label label' ++ ['"', '|']) ++ ' ' :: e'.pointed := by
            simpa using heq
          obtain ⟨hescaped, hpointed⟩ := Lines.split_last hspace hspace' hend
          exact ⟨congrArg some (escape_injective (List.append_cancel_right hescaped)), hpointed⟩

theorem drawn_inj {e e' : FlowEdge} (h : e.Readable isalnum) (h' : e'.Readable isalnum)
    (hbefore : (e.from_state, e.directive) = (e'.from_state, e'.directive))
    (hbehind : e.behind = e'.behind) : e.drawn = e'.drawn := by
  obtain ⟨hsource, hdirective⟩ := Prod.mk.inj hbefore
  obtain ⟨hlabel, hpointed⟩ := behind_inj h h' hbehind
  have hto : e.to_state = e'.to_state := by
    unfold FlowEdge.pointed at hpointed
    by_cases hdone : e.directive = .done
    · rw [h.done.mpr hdone, h'.done.mpr (hdirective ▸ hdone)]
    · rw [if_neg hdone, if_neg (hdirective ▸ hdone)] at hpointed
      cases hstate : e.to_state with
      | none => exact absurd (h.done.mp hstate) hdone
      | some state =>
          cases hstate' : e'.to_state with
          | none => exact absurd (hdirective ▸ h'.done.mp hstate') hdone
          | some state' =>
              rw [hstate, hstate'] at hpointed
              exact congrArg some hpointed
  unfold FlowEdge.drawn
  rw [hlabel, hto, hsource, hdirective]

-- The edges can be told from what is drawn of them, whatever their labels hold: the heads of
-- the arrows are where they begin and end.
theorem render_edges_inj {edges edges' : List FlowEdge} (h : ∀ e ∈ edges, e.Readable isalnum)
    (h' : ∀ e ∈ edges', e.Readable isalnum)
    (heq : (edges.flatMap fun e => indented (_render_edge e) ++ ['\n']) =
      edges'.flatMap fun e => indented (_render_edge e) ++ ['\n']) :
    edges.map FlowEdge.drawn = edges'.map FlowEdge.drawn := by
  have hline (edges : List FlowEdge) :
      (edges.flatMap fun e => indented (_render_edge e) ++ ['\n']) =
        edges.flatMap fun e => indented e.before ++ '>' :: (e.behind ++ ['\n']) :=
    List.flatMap_congr fun e _ => by simp [indented, render_edge_eq]
  rw [hline, hline] at heq
  have hnil : '>' ∉ ([] : Text) := List.not_mem_nil
  obtain ⟨-, hparts⟩ := Lines.marked_inj (P := fun e => e.Readable isalnum)
    (fun e he => by simp [indented, he.before]) (fun e he => by simp [he.behind])
    (fun t t' e e' he he' => before_inj he he') h h' hnil hnil heq
  refine Lines.map_eq_of_mem (fun e he e' he' hpart => ?_) hparts
  obtain ⟨hkey, hback⟩ := Prod.mk.inj hpart
  exact drawn_inj (h e he) (h' e' he') hkey (List.append_cancel_right hback)

end Edges

section Documents

variable {isalnum : Char → Bool}

theorem not_mem_labelled {c : Char} {source arrow label target : Text} (hs : c ∉ source)
    (ha : c ∉ arrow) (hl : c ∉ label) (ht : c ∉ target) (hc : c ∉ [' ', '|', '"']) :
    c ∉ labelled source arrow label target := by
  simp only [List.mem_cons, List.not_mem_nil, or_false, not_or] at hc
  simp [labelled, hs, ha, hl, ht, hc]

theorem not_mem_escape {t : Text} (h : '\n' ∉ t) : '\n' ∉ _escape_label t :=
  fun hmem => h ((mem_escape hmem).2.2 rfl)

theorem not_mem_indented {c : Char} {t : Text} (hc : c ≠ ' ') (h : c ∉ t) : c ∉ indented t := by
  simp [indented, hc, h]

theorem indented_injective : Function.Injective indented := fun _ _ => List.append_cancel_left

theorem indented_ne_nil (t : Text) : [] ≠ indented t := by simp [indented]

theorem line_of_head {first : String} {name : Text} {lines : List Text} (hname : '\n' ∉ name)
    (hfirst : '\n' ∉ first.toList) (hlines : ∀ line ∈ lines, '\n' ∉ line) :
    ∀ line ∈ (first.toList ++ name) :: lines, '\n' ∉ line := by
  intro line hmem
  rcases List.mem_cons.mp hmem with rfl | hmem
  · simp only [List.mem_append, not_or]
    exact ⟨hfirst, hname⟩
  · exact hlines line hmem

theorem line_of_states {states : List Text} (h : ∀ state ∈ states, Word isalnum state)
    (has_done : Bool) : ∀ line ∈ state_lines states has_done, line ≠ [] ∧ '\n' ∉ line := by
  intro line hmem
  rcases List.mem_append.mp hmem with hmem | hmem
  · obtain ⟨state, hstate, rfl⟩ := List.mem_map.mp hmem
    exact ⟨(indented_ne_nil state).symm,
      not_mem_indented (by decide) (not_mem_word (h state hstate) rfl)⟩
  · cases has_done with
    | false => exact absurd hmem List.not_mem_nil
    | true =>
        rw [List.mem_singleton.mp hmem]
        exact ⟨(indented_ne_nil _).symm, by decide⟩

def terminated (lines : List Text) : Text := lines.flatMap fun line => line ++ ['\n']

-- The name of the module, the states, the initial state and the edges, and what is between.
theorem render_flow_eq (ir : FlowIR) :
    render_flow ir = "%% Flow diagram for ".toList ++ (ir.module ++ '\n' ::
      (terminated (flow_head []).tail ++
        (terminated (state_lines ir.states (ir.edges.any fun e => e.directive = .done)) ++ '\n' ::
          (indented (_START_NODE ++ " --> ".toList) ++ (ir.initial_state ++ '\n' ::
            ir.edges.flatMap fun e => indented (_render_edge e) ++ ['\n']))))) := by
  rw [render_flow, Lines.joined_eq (by exact List.cons_ne_nil _ _)]
  have hhead : flow_head ir.module =
      ("%% Flow diagram for ".toList ++ ir.module) :: (flow_head []).tail := rfl
  simp only [flow_lines, hhead, terminated, List.flatMap_append, List.flatMap_cons,
    List.flatMap_map, indented, List.append_assoc, List.cons_append, List.nil_append]

-- From the document of a flow its name, states, initial state and edges can be told.
theorem render_flow_iff {ir ir' : FlowIR} (h : ir.Readable isalnum) (h' : ir'.Readable isalnum) :
    render_flow ir = render_flow ir' ↔ ir.module = ir'.module ∧ ir.states = ir'.states ∧
      ir.initial_state = ir'.initial_state ∧
      ir.edges.map FlowEdge.drawn = ir'.edges.map FlowEdge.drawn := by
  have hdone {edges edges' : List FlowEdge}
      (hedges : edges.map FlowEdge.drawn = edges'.map FlowEdge.drawn) :
      (edges.any fun e => e.directive = .done) = edges'.any fun e => e.directive = .done := by
    have hdrawn := congrArg (List.any · fun e => e.directive = .done) hedges
    simp only [List.any_map] at hdrawn
    exact hdrawn
  rw [render_flow_eq, render_flow_eq]
  constructor
  · intro heq
    obtain ⟨hmodule, hrest⟩ := Lines.split_first h.module h'.module (List.append_cancel_left heq)
    obtain ⟨hstates, hrest⟩ := Lines.until_blank (line_of_states h.states _)
      (line_of_states h'.states _) (List.append_cancel_left hrest)
    obtain ⟨hinitial, hrest⟩ := Lines.split_first (not_mem_word h.initial rfl)
      (not_mem_word h'.initial rfl) (List.append_cancel_left hrest)
    have hedges := render_edges_inj h.edges h'.edges hrest
    rw [hdone hedges] at hstates
    exact ⟨hmodule, List.map_injective_iff.mpr indented_injective
      (List.append_cancel_right hstates), hinitial, hedges⟩
  · rintro ⟨hmodule, hstates, hinitial, hedges⟩
    have hlines : (ir.edges.flatMap fun e => indented (_render_edge e) ++ ['\n']) =
        ir'.edges.flatMap fun e => indented (_render_edge e) ++ ['\n'] := by
      have hdrawn := congrArg
        (List.flatMap fun e => indented (_render_edge e) ++ ['\n']) hedges
      simpa only [List.flatMap_map, render_drawn] using hdrawn
    rw [hmodule, hstates, hinitial, hdone hedges, hlines]

theorem kind_arrow_plain (kind : EdgeKind) :
    '|' ∉ _MODULE_GRAPH_ARROW_BY_KIND kind ∧ '\n' ∉ _MODULE_GRAPH_ARROW_BY_KIND kind := by
  cases kind <;> decide

theorem kind_arrow_injective : Function.Injective _MODULE_GRAPH_ARROW_BY_KIND := by
  intro kind kind' h
  cases kind <;> cases kind' <;> first | rfl | exact absurd h (by decide)

-- The brackets tell a module from a cache key.
theorem render_node_inj {node node' : ModuleGraphNode} (h : Word isalnum node.name)
    (h' : Word isalnum node'.name)
    (heq : _render_module_graph_node node = _render_module_graph_node node') : node = node' := by
  have hopen : ¬ '[' ∈ "((\"".toList := by decide
  have hclose : ¬ '[' ∈ "\")):::cacheKeyNode".toList := by decide
  have hround {t : Text} (ht : Word isalnum t) :
      '[' ∉ t ++ "((\"".toList ++ t ++ "\")):::cacheKeyNode".toList := by
    have hin : '[' ∉ t := not_mem_word ht rfl
    simp only [List.mem_append, not_or]
    exact ⟨⟨⟨hin, hopen⟩, hin⟩, hclose⟩
  have hsquare (t : Text) : '[' ∈ t ++ "[\"".toList ++ t ++ "\"]:::moduleNode".toList := by
    simp only [List.mem_append]
    exact Or.inl (Or.inl (Or.inr List.mem_cons_self))
  unfold _render_module_graph_node at heq
  obtain ⟨name, kind⟩ := node
  obtain ⟨name', kind'⟩ := node'
  cases kind <;> cases kind'
  case module.module =>
    simp only [List.append_assoc] at heq
    obtain ⟨rfl, -⟩ := Lines.split_first (not_mem_word h rfl) (not_mem_word h' rfl) heq
    rfl
  case cache_key.cache_key =>
    simp only [List.append_assoc] at heq
    obtain ⟨rfl, -⟩ := Lines.split_first (not_mem_word h rfl) (not_mem_word h' rfl) heq
    rfl
  case module.cache_key =>
    have hin := hsquare name
    have heq : name ++ "[\"".toList ++ name ++ "\"]:::moduleNode".toList = _ := heq
    rw [heq] at hin
    exact absurd hin (hround h')
  case cache_key.module =>
    have hin := hsquare name'
    have heq : _ = name' ++ "[\"".toList ++ name' ++ "\"]:::moduleNode".toList := heq
    rw [← heq] at hin
    exact absurd hin (hround h)

theorem ModuleGraphIR.Readable.lines {ir : ModuleGraphIR} (h : ir.Readable isalnum) :
    ∀ line ∈ module_graph_lines ir, '\n' ∉ line := by
  intro line hmem
  rcases List.mem_append.mp hmem with hmem | hmem
  · exact line_of_head h.app (by decide +kernel) (by decide +kernel) line hmem
  rcases List.mem_append.mp hmem with hmem | hmem
  · obtain ⟨node, hnode, rfl⟩ := List.mem_map.mp hmem
    have hname : '\n' ∉ node.name := not_mem_word (h.nodes node hnode) rfl
    refine not_mem_indented (by decide) fun hin => ?_
    unfold _render_module_graph_node at hin
    cases hkind : node.kind <;> simp [hkind, hname] at hin
  rcases List.mem_cons.mp hmem with rfl | hmem
  · exact List.not_mem_nil
  · obtain ⟨e, he, rfl⟩ := List.mem_map.mp hmem
    obtain ⟨hsource, htarget, hlabel⟩ := h.edges e he
    exact not_mem_indented (by decide) (not_mem_labelled (not_mem_word hsource rfl)
      (kind_arrow_plain e.kind).2 (not_mem_escape hlabel) (not_mem_word htarget rfl) (by decide))

-- From the document of a module graph its name, nodes and edges can be told.
theorem render_module_graph_iff {ir ir' : ModuleGraphIR} (h : ir.Readable isalnum)
    (h' : ir'.Readable isalnum) :
    render_module_graph ir = render_module_graph ir' ↔
      ir.app = ir'.app ∧ ir.nodes = ir'.nodes ∧ ir.edges = ir'.edges := by
  constructor
  swap
  · rintro ⟨happ, hnodes, hedges⟩
    simp only [render_module_graph, module_graph_lines, happ, hnodes, hedges]
  intro heq
  have hlines : module_graph_lines ir = module_graph_lines ir' :=
    Lines.joined_injective (List.cons_ne_nil _ _) (List.cons_ne_nil _ _) h.lines h'.lines heq
  have hnil (nodes : List ModuleGraphNode) :
      [] ∉ nodes.map fun node => indented (_render_module_graph_node node) := by
    intro hmem
    obtain ⟨node, -, hnode⟩ := List.mem_map.mp hmem
    exact indented_ne_nil _ hnode.symm
  obtain ⟨hhead, hrest⟩ := List.append_inj hlines rfl
  obtain ⟨hnodes, hedges⟩ := Lines.split_first (hnil _) (hnil _) hrest
  refine ⟨List.append_cancel_left (List.cons.inj hhead).1, ?_, ?_⟩
  · refine Lines.map_inj_of_mem (fun node hnode node' hnode' hline => ?_) hnodes
    exact render_node_inj (h.nodes node hnode) (h'.nodes node' hnode') (indented_injective hline)
  · refine Lines.map_inj_of_mem (fun e he e' he' hline => ?_) hedges
    obtain ⟨hs, ht, -⟩ := h.edges e he
    obtain ⟨hs', ht', -⟩ := h'.edges e' he'
    obtain ⟨hsource, harrow, hlabel, htarget⟩ :=
      labelled_inj (not_mem_word hs rfl) (not_mem_word hs' rfl) (kind_arrow_plain e.kind).1
        (kind_arrow_plain e'.kind).1 (not_mem_word ht rfl) (not_mem_word ht' rfl)
        (indented_injective hline)
    have hkind := kind_arrow_injective harrow
    have hlabel := escape_injective hlabel
    cases e
    cases e'
    simp_all

-- A module that sends to another, and one that writes a key that the other is told of.
def sends_graph : ModuleGraphIR :=
  { app := ['n'], app_short := ['n'], nodes := [⟨['A'], .module⟩, ⟨['B'], .module⟩]
    edges := [⟨['A'], ['B'], .send, "B::Go<int>".toList⟩] }

def writes_graph : ModuleGraphIR :=
  { sends_graph with
    nodes := [⟨['A'], .module⟩, ⟨['B'], .cache_key⟩]
    edges := [⟨['A'], ['B'], .writes, "writes".toList⟩] }

theorem render_module_graph_iff_sends : render_module_graph sends_graph ≠
    render_module_graph writes_graph := by
  have hsends : sends_graph.Readable no_words := ⟨by decide, by decide, by decide⟩
  have hwrites : writes_graph.Readable no_words := ⟨by decide, by decide, by decide⟩
  exact fun heq =>
    absurd ((render_module_graph_iff hsends hwrites).mp heq).2.1 (by decide +kernel)

end Documents

-- What is extracted from a module in the subset can be read in its document.
section Written

variable {isalnum : Char → Bool}

-- The states are named by words, the module by what stands on one line.
structure Named (isalnum : Char → Bool) (module_name app_namespace : Text) (states : List Text)
    (initial : Text) : Prop where
  module_name : '\n' ∉ module_name
  app_namespace : '\n' ∉ app_namespace
  words : ∀ state ∈ states, Word isalnum state
  first : Word isalnum initial

theorem readable_edge {state : Text} (hstate : Word isalnum state) {d : Directive isalnum}
    {message : Option Text} {e : FlowEdge} (he : d.edge state message = some e) :
    e.Readable isalnum := by
  have hname (target : QualName isalnum) : Word isalnum target.last.text :=
    List.all_eq_true.mpr target.last.isword
  cases d with
  | stay => cases he
  | done =>
      obtain rfl := Option.some.inj he
      refine ⟨hstate, fun state hto => ?_, ⟨fun _ => rfl, fun _ => rfl⟩⟩
      cases hto
  | transition_to target | transition_to_now target =>
      obtain rfl := Option.some.inj he
      refine ⟨hstate, fun state hto => ?_, by simp [Directive.target]⟩
      exact Option.some.inj hto ▸ hname target

variable {header source : Items isalnum} {states : List Text} {initial module_name : Text}
  {handlers : Text → Option (Body isalnum)} {app_namespace : Text}

theorem readable_written (h : Written header source states handlers)
    (hdecl : _find_flow_decl isalnum header.text module_name = some (states, initial))
    (hn : Named isalnum module_name app_namespace states initial) :
    ∃ ir, extract_flow isalnum module_name app_namespace header.text (some source.text) =
        some ir ∧ ir.Readable isalnum ∧ ir.states = states ∧ ir.initial_state = initial ∧
      ir.edges = states.flatMap (handled_edges handlers) := by
  obtain ⟨ir, hir, -, hstates, hinitial, hedges⟩ := extract_written h hdecl app_namespace
  refine ⟨ir, hir, ⟨?_, hstates ▸ hn.words, hinitial ▸ hn.first, fun e he => ?_⟩, hstates,
    hinitial, hedges⟩
  · rw [extract_flow, hdecl] at hir
    obtain rfl := Option.some.inj hir
    simp only
    split_ifs
    · exact hn.module_name
    · simp only [List.mem_append, not_or]
      exact ⟨⟨hn.app_namespace, by decide⟩, hn.module_name⟩
  · rw [hedges] at he
    obtain ⟨state, hstate, he⟩ := List.mem_flatMap.mp he
    unfold handled_edges at he
    cases hbody : handlers state with
    | none =>
        rw [hbody] at he
        exact absurd he List.not_mem_nil
    | some body =>
        rw [hbody] at he
        obtain ⟨⟨d, message⟩, -, hedge⟩ := List.mem_filterMap.mp he
        exact readable_edge (hn.words state hstate) hedge

-- The documents of two modules in the subset are the same if and only if the modules have
-- the same name, and flows that say the same, whatever the labels hold. A label that is
-- empty is none.
theorem document_determines (h : Written header source states handlers)
    (hdecl : _find_flow_decl isalnum header.text module_name = some (states, initial))
    (hn : Named isalnum module_name app_namespace states initial)
    {header' source' : Items isalnum} {states' : List Text} {initial' module_name' : Text}
    {handlers' : Text → Option (Body isalnum)} {app_namespace' : Text}
    (h' : Written header' source' states' handlers')
    (hdecl' : _find_flow_decl isalnum header'.text module_name' = some (states', initial'))
    (hn' : Named isalnum module_name' app_namespace' states' initial') :
    ∃ ir ir', extract_flow isalnum module_name app_namespace header.text (some source.text) =
        some ir ∧
      extract_flow isalnum module_name' app_namespace' header'.text (some source'.text) =
        some ir' ∧
      (render_flow ir = render_flow ir' ↔ ir.module = ir'.module ∧ states = states' ∧
        initial = initial' ∧
        (states.flatMap (handled_edges handlers)).map FlowEdge.drawn =
          (states'.flatMap (handled_edges handlers')).map FlowEdge.drawn) := by
  obtain ⟨ir, hir, hreadable, hstates, hinitial, hedges⟩ := readable_written h hdecl hn
  obtain ⟨ir', hir', hreadable', hstates', hinitial', hedges'⟩ := readable_written h' hdecl' hn'
  refine ⟨ir, ir', hir, hir', ?_⟩
  rw [render_flow_iff hreadable hreadable', hstates, hstates', hinitial, hinitial', hedges, hedges']

-- `shifts`, but for a check of a type that is written on two lines.
theorem plain_lines : Plain no_words ("Go\nOn".toList ++ ['>']) :=
  ⟨fun c hc => by cases hc; rfl, by decide +kernel, by decide +kernel⟩

theorem balanced_lines : find_angle 1 ("Go\nOn".toList ++ ['>']) =
    some "Go\nOn".toList.length := by
  decide

def is_lines : Condition no_words :=
  { is_go with check := some ⟨⟨"Go\nOn".toList, plain_lines, balanced_lines⟩, .none, .none⟩ }

def lines_flow : Body no_words :=
  .block .none .one .one is_lines
    (.ret (returns (.transition_to ⟨[], ⟨'B', [], start_b, rest_b⟩⟩)) (.nil .one))
    (.ret (returns .stay) (.nil .one))

theorem lines_flow_ends : ends_before '}' lines_flow.text = true := by decide +kernel

theorem lines_flow_braces : braces (neutralize lines_flow.text) = true := by decide +kernel

def lines_shifts (state : Text) : Option (Body no_words) :=
  if state = ['A'] then some lines_flow else if state = ['B'] then some end_flow else none

def lines_source : Items no_words :=
  .leaf ⟨[], []⟩ (.function (handle_of 'A' start_a lines_flow.text lines_flow_ends
      lines_flow_braces))
    (.leaf ⟨layout, []⟩ (.function (handle_of 'B' start_b end_flow.text end_flow_ends
      end_flow_braces)) (.nil []))

theorem named_states : Named no_words ['M'] ['n'] [['A'], ['B']] ['A'] where
  module_name := by decide
  app_namespace := by decide
  words := by decide
  first := by decide

theorem document_determines_shift :
    ∃ ir ir', extract_flow no_words ['M'] ['n'] shift_header.text (some shift_source.text) =
        some ir ∧
      extract_flow no_words ['M'] ['n'] shift_header.text (some lines_source.text) = some ir' ∧
      render_flow ir ≠ render_flow ir' := by
  have hwritten : Written shift_header lines_source [['A'], ['B']] lines_shifts :=
    ⟨by decide +kernel, by decide +kernel, by decide +kernel⟩
  obtain ⟨ir, ir', hir, hir', hsame⟩ := document_determines written_shift declared_shift
    named_states hwritten declared_shift named_states
  exact ⟨ir, ir', hir, hir', fun heq => absurd (hsame.mp heq).2.2.2 (by decide +kernel)⟩

end Written

end Diagrams

end CortexFlow
