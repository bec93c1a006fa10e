import CortexFlow.Diagrams.Guards
import CortexFlow.Diagrams.Subset

namespace CortexFlow

namespace Diagrams

open Lib

structure FlowIR where
  module : Text
  module_short : Text
  states : List Text
  initial_state : Text
  edges : List FlowEdge
deriving DecidableEq

-- `t.split('::')`, after `part`.
def partsFrom (part : Text) : Text → List Text
  | ':' :: ':' :: t => part :: partsFrom [] t
  | c :: t => partsFrom (part ++ [c]) t
  | [] => [part]

-- The state whose `handle` has the name.
def handled_state (qname : Text) : Option Text :=
  match (partsFrom [] qname).reverse with
  | last :: state :: _ => if last = "handle".toList then some state else none
  | _ => none

section Extract

variable (isalnum : Char → Bool)

-- The loop over the functions of one file.
def handle_bodies (states : List Text) (bodies found : Bodies) : Bodies :=
  found.foldl (fun bodies entry =>
    match handled_state entry.1 with
    | some state => if state ∈ states then bodies.insert state entry.2 else bodies
    | none => bodies) bodies

def _gather_handle_bodies (states : List Text) (header_text source_text : Text) : Bodies :=
  let bodies := handle_bodies states [] (functions isalnum header_text)
  if source_text = [] then bodies
  else handle_bodies states bodies (functions isalnum source_text)

-- `extract` of `flow_extractor`.
def extract_flow (module_name app_namespace header_text : Text) (source_text : Option Text) :
    Option FlowIR :=
  match _find_flow_decl isalnum header_text module_name with
  | none => none
  | some (states, initial) =>
      let bodies := _gather_handle_bodies isalnum states header_text (source_text.getD [])
      some
        { module :=
            if app_namespace = [] then module_name
            else app_namespace ++ "::".toList ++ module_name
          module_short := module_name
          states := states
          initial_state := initial
          edges := states.flatMap fun state =>
            match bodies.lookup state with
            | none => []
            | some body => _extract_edges_from_body isalnum state body }

end Extract

variable {isalnum : Char → Bool}

-- The definitions of a state's `handle`.
def handles (state : Text) (found : Bodies) : Bodies :=
  found.filter fun entry => handled_state entry.1 = some state

section Gather

theorem lookup_handle_bodies (states : List Text) {state : Text} (hstate : state ∈ states)
    (found bodies : Bodies) :
    (handle_bodies states bodies found).lookup state =
      ((handles state found).getLast?.map Prod.snd).or (bodies.lookup state) := by
  induction found generalizing bodies with
  | nil => rfl
  | cons entry found ih =>
      have hstep : handle_bodies states bodies (entry :: found) =
          handle_bodies states (match handled_state entry.1 with
            | some state => if state ∈ states then bodies.insert state entry.2 else bodies
            | none => bodies) found := rfl
      rw [hstep, ih, handles, handles, List.filter_cons]
      cases hentry : handled_state entry.1 with
      | none => rfl
      | some other =>
          by_cases hsame : other = state
          · subst hsame
            rw [if_pos (by simp), List.getLast?_cons]
            simp only [if_pos hstate, lookup_insert]
            cases (found.filter fun entry => handled_state entry.1 = some other).getLast? with
            | none => simp
            | some last => simp
          · rw [if_neg (by simpa using hsame)]
            congr 1
            simp only
            split_ifs
            · rw [lookup_insert, if_neg fun he => hsame he.symm]
            · rfl

-- A body in the source file goes before one in the header.
theorem lookup_gathered {states : List Text} {state : Text} (hstate : state ∈ states)
    (header_text source_text : Text) :
    (_gather_handle_bodies isalnum states header_text source_text).lookup state =
      ((handles state (functions isalnum source_text)).getLast?.map Prod.snd).or
        ((handles state (functions isalnum header_text)).getLast?.map Prod.snd) := by
  have hheader : (handle_bodies states [] (functions isalnum header_text)).lookup state =
      (handles state (functions isalnum header_text)).getLast?.map Prod.snd := by
    rw [lookup_handle_bodies states hstate]
    exact Option.or_none
  rw [_gather_handle_bodies]
  split_ifs with hempty
  · rw [hheader, hempty]
    rfl
  · rw [lookup_handle_bodies states hstate, hheader]

end Gather

-- The header and the source file of a module that declares a flow and defines the handlers
-- of its states, each of them once in a file.
structure Written (header source : Items isalnum) (states : List Text)
    (handlers : Text → Option (Body isalnum)) : Prop where
  header_once : ∀ state ∈ states, (handles state (header.found [])).length ≤ 1
  source_once : ∀ state ∈ states, (handles state (source.found [])).length ≤ 1
  bodies : ∀ state ∈ states,
    (handles state (source.found []) ++ handles state (header.found [])).head?.map Prod.snd =
      (handlers state).map Body.text

-- The flow as its handlers say it.
def handled_edges (handlers : Text → Option (Body isalnum)) (state : Text) : List FlowEdge :=
  match handlers state with
  | none => []
  | some body => edges state (preceded none (body.marks none))

section Items

theorem handles_insert (state name body : Text) (bodies : Bodies) :
    handles state (bodies.insert name body) =
      if handled_state name = some state then (handles state bodies).insert name body
      else handles state bodies := by
  have hmem (hname : handled_state name = some state) :
      name ∈ (handles state bodies).map Prod.fst ↔ name ∈ bodies.map Prod.fst := by
    simp only [handles, List.mem_map, List.mem_filter, decide_eq_true_eq]
    constructor
    · rintro ⟨entry, ⟨hentry, -⟩, rfl⟩
      exact ⟨entry, hentry, rfl⟩
    · rintro ⟨entry, hentry, rfl⟩
      exact ⟨entry, ⟨hentry, hname⟩, rfl⟩
  have hfilter (p : Text × Text → Text × Text) (hp : ∀ entry, (p entry).1 = entry.1) :
      handles state (bodies.map p) = (handles state bodies).map p := by
    rw [handles, handles, List.filter_map]
    congr 2
    funext entry
    simp only [Function.comp_apply, hp]
  have hover : ∀ entry : Text × Text,
      (if entry.1 = name then (name, body) else entry).1 = entry.1 := by
    intro entry
    split_ifs with he
    · exact he.symm
    · rfl
  by_cases hname : handled_state name = some state
  · rw [if_pos hname]
    unfold Bodies.insert
    by_cases hin : name ∈ bodies.map Prod.fst
    · rw [if_pos hin, if_pos ((hmem hname).mpr hin), hfilter _ hover]
    · rw [if_neg hin, if_neg fun h => hin ((hmem hname).mp h), handles, List.filter_append]
      simp [handles, hname]
  · rw [if_neg hname]
    unfold Bodies.insert
    by_cases hin : name ∈ bodies.map Prod.fst
    · rw [if_pos hin, hfilter _ hover]
      refine (List.map_congr_left fun entry hentry => ?_).trans (List.map_id _)
      rw [handles, List.mem_filter, decide_eq_true_eq] at hentry
      have hne : entry.1 ≠ name := fun he => hname (he ▸ hentry.2)
      exact if_neg hne
    · rw [if_neg hin, handles, List.filter_append]
      simp [handles, hname]

theorem handles_insertAll (state : Text) (entries bodies : Bodies) :
    handles state (bodies.insertAll entries) =
      (handles state bodies).insertAll (handles state entries) := by
  induction entries generalizing bodies with
  | nil => rfl
  | cons entry entries ih =>
      have hinsert : bodies.insertAll (entry :: entries) =
          (bodies.insert entry.1 entry.2).insertAll entries := rfl
      rw [hinsert, ih, handles_insert]
      by_cases hentry : handled_state entry.1 = some state
      · simp only [handles, List.filter_cons, hentry, decide_true, if_true]
        rfl
      · simp only [handles, List.filter_cons, hentry, decide_false, if_false]
        rfl

-- What is defined once comes out of the dictionary as it went in.
theorem handles_functions {x : Items isalnum} {state : Text}
    (h : (handles state (x.found [])).length ≤ 1) :
    handles state (functions isalnum x.text) = handles state (x.found []) := by
  rw [functions_found, handles_insertAll]
  match hfound : handles state (x.found []), h with
  | [], _ => rfl
  | [entry], _ => rfl

theorem getLast?_single {l : Bodies} (h : l.length ≤ 1) : l.getLast? = l.head? := by
  match l, h with
  | [], _ => rfl
  | [entry], _ => rfl

variable {header source : Items isalnum} {states : List Text}
  {handlers : Text → Option (Body isalnum)}

theorem Written.lookup (h : Written header source states handlers) {state : Text}
    (hstate : state ∈ states) :
    (_gather_handle_bodies isalnum states header.text source.text).lookup state =
      (handlers state).map Body.text := by
  rw [lookup_gathered hstate, handles_functions (h.source_once state hstate),
    handles_functions (h.header_once state hstate), getLast?_single (h.source_once state hstate),
    getLast?_single (h.header_once state hstate), ← h.bodies state hstate]
  cases handles state (source.found []) with
  | nil => rfl
  | cons entry rest => rfl

-- From the files of a module whose handlers are in the subset `extract` gets the flow that
-- they say: its states, the initial one, and the edges of each handler, state by state.
theorem extract_written (h : Written header source states handlers)
    {module_name initial : Text}
    (hdecl : _find_flow_decl isalnum header.text module_name = some (states, initial))
    (app_namespace : Text) :
    ∃ ir, extract_flow isalnum module_name app_namespace header.text (some source.text) =
        some ir ∧ ir.module_short = module_name ∧ ir.states = states ∧
      ir.initial_state = initial ∧ ir.edges = states.flatMap (handled_edges handlers) := by
  refine ⟨_, by rw [extract_flow, hdecl], rfl, rfl, rfl, ?_⟩
  refine List.flatMap_congr fun state hstate => ?_
  rw [Option.getD_some, h.lookup hstate, handled_edges]
  cases handlers state with
  | none => rfl
  | some body => exact extract_edges_eq state body

end Items

-- `StateList<A, B>`, where `A` goes on to `B` when called with a `Go`, and `B` ends the flow.
section Example

theorem start_a : ident_start 'A' = true := by decide

theorem start_b : ident_start 'B' = true := by decide

theorem rest_b : ([] : Text).all (isword no_words) = true := by decide

def shift : Body no_words :=
  .block .none .one .one is_go
    (.ret (returns (.transition_to ⟨[], ⟨'B', [], start_b, rest_b⟩⟩)) (.nil .one))
    (.ret (returns .stay) (.nil .one))

def end_flow : Body no_words := .ret (returns .done) (.nil .one)

theorem end_flow_ends : ends_before '}' end_flow.text = true := by decide +kernel

theorem end_flow_braces : braces (neutralize end_flow.text) = true := by decide +kernel

def shifts (state : Text) : Option (Body no_words) :=
  if state = ['A'] then some shift else if state = ['B'] then some end_flow else none

def handle_of (state : Char) (h : ident_start state = true) (body : Text)
    (hends : ends_before '}' body = true) (hbraces : braces (neutralize body) = true) :
    Function no_words :=
  { handler with
    types := [(word 'D' "irective" rfl rfl, space)], types_ok := by decide
    name := ⟨[⟨state, [], h, rfl⟩], ⟨'h', "andle".toList, rfl, rfl⟩⟩
    name_ok := (by decide : "handle".toList ∉ _NOT_FUNCTION_NAMES)
    body := body, body_ends := hends, body_braces := hbraces }

def shift_header : Items no_words :=
  .leaf ⟨[], []⟩ (.statement ⟨"Flow<M, StateList<A, B>> flow".toList, by decide, by decide,
    by decide, by decide, by decide⟩) (.nil [])

def shift_source : Items no_words :=
  .leaf ⟨[], []⟩ (.function (handle_of 'A' start_a shift.text (by decide +kernel)
      (by decide +kernel)))
    (.leaf ⟨layout, []⟩ (.function (handle_of 'B' start_b end_flow.text end_flow_ends
      end_flow_braces)) (.nil []))

theorem written_shift : Written shift_header shift_source [['A'], ['B']] shifts where
  header_once := by decide +kernel
  source_once := by decide +kernel
  bodies := by decide +kernel

theorem declared_shift : _find_flow_decl no_words shift_header.text ['M'] =
    some ([['A'], ['B']], ['A']) := by
  decide +kernel

end Example

end Diagrams

end CortexFlow
