import CortexFlow.Diagrams.Declarations
import CortexFlow.Lib.RegexSpans
import Mathlib

namespace CortexFlow

namespace Diagrams

open Lib

-- The words that `_find_directive_calls` looks for, as its pattern tries them.
inductive Verb
  | transition_to_now
  | transition_to
  | done
  | stay
deriving DecidableEq

def Verb.text : Verb → String
  | transition_to_now => "transition_to_now"
  | transition_to => "transition_to"
  | done => "done"
  | stay => "stay"

def verbs : List Verb := [.transition_to_now, .transition_to, .done, .stay]

-- `DIRECTIVE_TRANSITION`, `DIRECTIVE_TRANSITION_NOW` and `DIRECTIVE_DONE`.
inductive DirectiveKind
  | transition
  | transition_now
  | done
deriving DecidableEq

def _DIRECTIVE_TO_KIND : Verb → Option DirectiveKind
  | .transition_to => some .transition
  | .transition_to_now => some .transition_now
  | .done => some .done
  | .stay => none

structure FlowEdge where
  from_state : Text
  to_state : Option Text
  directive : DirectiveKind
  message : Option Text
deriving DecidableEq

-- `while name.startswith('cortexflow::')`
def drop_cortexflow : Text → Text
  | 'c' :: 'o' :: 'r' :: 't' :: 'e' :: 'x' :: 'f' :: 'l' :: 'o' :: 'w' :: ':' :: ':' :: name =>
      drop_cortexflow name
  | name => name

def _normalize_type (name : Text) : Text := drop_cortexflow (strip name)

section Calls

variable (isalnum : Char → Bool)

def _TYPE_ID_RE : Regex :=
  .seqs [.boundary (isword isalnum), .lit "type_id", .boundary (isword isalnum)]

def _DIRECTIVE_RE : Regex :=
  .seqs [.boundary (isword isalnum), .group (.alts ((verbs.map Verb.text).map .lit)),
    .boundary (isword isalnum)]

-- The text between `<` and its `>`, and what comes behind it.
def template_arg (t : Text) : Option (Text × Text) :=
  match lstrip t with
  | '<' :: t => (find_angle 1 t).map fun len => (t.take len, t.drop (len + 1))
  | _ => none

def called (t : Text) : Bool := (lstrip t).head? = some '('

def type_id_call (m : Regex.Span) : Option (Nat × Text) :=
  match template_arg m.rest with
  | none => none
  | some (type_text, rest) => if called rest then some (m.start, strip type_text) else none

def _find_type_id_calls (body : Text) : List (Nat × Text) :=
  ((_TYPE_ID_RE isalnum).spans body).filterMap type_id_call

def kind_word (m : Regex.Span) : Option Verb :=
  verbs.find? fun verb => m.found.groups.head? = some verb.text.toList

def directive_call (m : Regex.Span) : Option (Nat × Verb × Option Text) :=
  match kind_word m with
  | none => none
  | some verb =>
      if verb = .transition_to ∨ verb = .transition_to_now then
        match template_arg m.rest with
        | none => none
        | some (target, rest) =>
            if called rest then some (m.start, verb, some (lastPart (strip target))) else none
      else if called m.rest then some (m.start, verb, none)
      else none

def _find_directive_calls (body : Text) : List (Nat × Verb × Option Text) :=
  ((_DIRECTIVE_RE isalnum).spans body).filterMap directive_call

inductive Event
  | msg (type_text : Text)
  | dir (verb : Verb) (target : Option Text)
deriving DecidableEq

def edge_of (state : Text) (verb : Verb) (target message : Option Text) : Option FlowEdge :=
  (_DIRECTIVE_TO_KIND verb).map fun kind =>
    { from_state := state
      to_state :=
        if kind = .done then none
        else match target with
          | none => none
          | some target => if target = [] then none else some (_normalize_type target)
      directive := kind
      message := message }

-- The loop over the events. A directive that is no `stay` gives an edge, and each one
-- takes the pending message.
def edges_of (state : Text) : Option Text → List Event → List FlowEdge
  | _, [] => []
  | _, .msg type_text :: events => edges_of state (some (_normalize_type type_text)) events
  | current_msg, .dir verb target :: events =>
      (edge_of state verb target current_msg).toList ++ edges_of state none events

def events_of (body : Text) : List (Nat × Event) :=
  let msgs := (_find_type_id_calls isalnum body).map fun (pos, msg) => (pos, Event.msg msg)
  let dirs := (_find_directive_calls isalnum body).map fun (pos, kind, target) =>
    (pos, Event.dir kind target)
  (msgs ++ dirs).insertionSort fun e e' => e.1 ≤ e'.1

def _extract_edges_from_body (state body : Text) : List FlowEdge :=
  edges_of state none ((events_of isalnum body).map Prod.snd)

end Calls

end Diagrams

end CortexFlow
