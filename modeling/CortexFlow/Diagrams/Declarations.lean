import CortexFlow.Diagrams.BraceScope

namespace CortexFlow

namespace Diagrams

open Lib

def cortexflow_ : Regex := .opt (.lit "cortexflow::")

def not_gt : Regex := .chr fun c => c ≠ '>'

def _FLOW_DECL_RE (isalnum : Char → Bool) : Regex :=
  .seqs [cortexflow_, .lit "Flow", spaces, .is '<', spaces, .group (ident isalnum), spaces,
    .is ',', spaces, cortexflow_, .lit "StateList", spaces, .is '<', spaces,
    .group (.seq not_gt (.lazy not_gt)), spaces, .is '>', .group (.star not_gt), .is '>']

-- The states and the initial state that a match declares, if it is one for the
-- module and has states.
def declared (module_name : Text) (m : Regex.Match) : Option (List Text × Text) :=
  match m.groups with
  | [owner, states_csv, rest] =>
      if lastPart owner ≠ module_name then none
      else
        let states := ((states_csv.splitOn ',').filter fun t => strip t ≠ []).map fun t =>
          lastPart (strip t)
        match states with
        | [] => none
        | first :: _ =>
            let tail := strip ((strip rest).dropWhile (· = ','))
            some (states, if tail = [] then first else lastPart tail)
  | _ => none

def _find_flow_decl (isalnum : Char → Bool) (header_text module_name : Text) :
    Option (List Text × Text) :=
  ((_FLOW_DECL_RE isalnum).finditer (neutralize header_text)).findSome? (declared module_name)

def _MODULELIST_RE : Regex := .seqs [cortexflow_, .lit "ModuleList", spaces, .is '<']

def _CACHEKEYLIST_RE : Regex := .seqs [cortexflow_, .lit "CacheKeyList", spaces, .is '<']

-- `[A-Za-z_][\w:]*`
def qualified (isalnum : Char → Bool) : Regex :=
  .seq (.chr fun c => c.isAlpha || c = '_') (.star (.chr fun c => isword isalnum c || c = ':'))

def _OWNED_RE (isalnum : Char → Bool) : Regex :=
  .seqs [cortexflow_, .lit "Owned", spaces, .is '<', spaces, .group (qualified isalnum), spaces,
    .is ',', spaces, .group (qualified isalnum), spaces, .is '>']

-- The search for the closing `>` in `_find_template_body`.
def find_angle (depth : Nat) (t : Text) : Option Nat := find_closing '<' '>' depth t

def _find_template_body (text : Text) (opener_re : Regex) : Option Text :=
  match opener_re.search text with
  | none => none
  | some (m, t) => (find_angle 1 (t.drop m.len)).map fun len => (t.drop m.len).take len

def splitTop (depth : Int) (part : Text) : Text → List Text
  | [] => [part]
  | c :: t =>
      if c = '<' then splitTop (depth + 1) (part ++ [c]) t
      else if c = '>' then splitTop (depth - 1) (part ++ [c]) t
      else if c = ',' ∧ depth = 0 then part :: splitTop depth [] t
      else splitTop depth (part ++ [c]) t

def _split_top_level (body : Text) : List Text := splitTop 0 [] body

-- What `parse` makes of the neutralized text: the names in `ModuleList<...>`, and the
-- keys and their writers in `CacheKeyList<...>`.
def module_names (neutral : Text) : Option (List Text) :=
  (_find_template_body neutral _MODULELIST_RE).map fun ml_body =>
    ((_split_top_level ml_body).filter fun m => strip m ≠ []).map fun m => lastPart (strip m)

def cache_keys (isalnum : Char → Bool) (neutral : Text) : List (Text × Text) :=
  match _find_template_body neutral _CACHEKEYLIST_RE with
  | none => []
  | some ckl_body =>
      ((_OWNED_RE isalnum).finditer ckl_body).filterMap fun m =>
        match m.groups with
        | [key, writer] => some (lastPart key, lastPart writer)
        | _ => none

end Diagrams

end CortexFlow
