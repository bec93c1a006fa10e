import CortexFlow.Diagrams.Declarations
import CortexFlow.Lib.FirstSeen
import CortexFlow.Lib.RegexSpans

namespace CortexFlow

namespace Diagrams

open Lib

-- An application, as its header declares it. In place of the paths of a module stands what
-- is read from them.
structure ModuleEntry where
  name : Text
  header_text : Text
  source_text : Option Text
deriving DecidableEq

structure CacheKeyEntry where
  key_name : Text
  writer_module : Text
deriving DecidableEq

structure AppComposition where
  app_namespace : Text
  app_short : Text
  modules : List ModuleEntry
  cache_keys : List CacheKeyEntry
deriving DecidableEq

inductive CompositionError
  | no_runtime
  | no_modulelist
  | empty_modulelist
  | no_namespace
  | no_header (name : Text)
deriving DecidableEq

def CompositionError.text (app_hpp_path : String) : CompositionError → String
  | .no_runtime => app_hpp_path ++ " does not declare a Runtime<...> composition; this script " ++
      "only accepts an application's app.hpp"
  | .no_modulelist => app_hpp_path ++ " declares Runtime<...> but no ModuleList<...> could be " ++
      "located; cannot determine the Modules to draw"
  | .empty_modulelist => app_hpp_path ++ "'s ModuleList<...> is empty"
  | .no_namespace => app_hpp_path ++ " has no enclosing namespace; expected the application to " ++
      "be declared inside `namespace <app_name> \x7b ... \x7d`"
  | .no_header name => "could not locate header for module `" ++ String.ofList name ++
      "` declared in " ++ app_hpp_path ++ "'s ModuleList<...>"

section Parse

-- The methods of `str`, over all of Unicode. `lower` takes a text: it is not always one
-- character for one, nor the same one for the same.
variable (isalnum isupper : Char → Bool) (lower : Text → Text)

def _RUNTIME_RE : Regex := .seqs [cortexflow_, .lit "Runtime", spaces, .is '<']

-- `#\s*include\s*"([^"]+)"`
def _INCLUDE_RE : Regex :=
  .seqs [.is '#', spaces, .lit "include", spaces, .is '"', .group (.plus (.chr fun c => c ≠ '"')),
    .is '"']

def _pascal_to_snake : Text → Text
  | [] => []
  | c :: name => lower [c] ++ name.flatMap fun c =>
      if isupper c then '_' :: lower [c] else lower [c]

-- The last component of a path.
def path_name (path : Text) : Text := (path.reverse.takeWhile (· ≠ '/')).reverse

-- `header.with_suffix('.cpp')`, for a header that ends in `.hpp`.
def with_cpp (header : Text) : Text := header.take (header.length - 4) ++ ".cpp".toList

-- `files` gives the text of a file, found relative to the application's header.
def _resolve_header (files : Text → Option Text) (module_name : Text) (includes : List Text) :
    Option Text :=
  let candidates :=
    [lower module_name, _pascal_to_snake isupper lower module_name].map (· ++ ".hpp".toList)
  includes.find? fun inc => lower (path_name inc) ∈ candidates && (files inc).isSome

def module_entry (files : Text → Option Text) (includes : List Text) (name : Text) :
    Except CompositionError ModuleEntry :=
  match _resolve_header isupper lower files name includes with
  | none => .error (.no_header name)
  | some header => .ok ⟨name, (files header).getD [], files (with_cpp header)⟩

def parse (files : Text → Option Text) (text : Text) : Except CompositionError AppComposition :=
  let neutral := neutralize text
  match _RUNTIME_RE.search neutral with
  | none => .error .no_runtime
  | some _ =>
  match module_names neutral with
  | none => .error .no_modulelist
  | some [] => .error .empty_modulelist
  | some (first :: names) =>
  match (_NAMESPACE_RE isalnum).search neutral with
  | none => .error .no_namespace
  | some (ns, _) =>
      let includes := (_INCLUDE_RE.finditer text).flatMap Regex.Match.groups
      ((first :: names).mapM (module_entry isupper lower files includes)).map fun modules =>
        { app_namespace := ns.groups.headD []
          app_short := ns.groups.headD []
          modules := modules
          cache_keys := (cache_keys isalnum neutral).map fun key => ⟨key.1, key.2⟩ }

end Parse

-- `lower` where all is ASCII.
def ascii_lower (t : Text) : Text := t.map Char.toLower

-- `NODE_MODULE` and `NODE_CACHE_KEY`.
inductive NodeKind
  | module
  | cache_key
deriving DecidableEq

structure ModuleGraphNode where
  name : Text
  kind : NodeKind
deriving DecidableEq

-- `EDGE_SEND`, `EDGE_WRITES` and `EDGE_KEY_CHANGED`.
inductive EdgeKind
  | send
  | writes
  | key_changed
deriving DecidableEq

structure ModuleGraphEdge where
  source : Text
  target : Text
  kind : EdgeKind
  label : Text
deriving DecidableEq

structure ModuleGraphIR where
  app : Text
  app_short : Text
  nodes : List ModuleGraphNode
  edges : List ModuleGraphEdge

section Extract

variable (isalnum : Char → Bool)

def _SEND_RE : Regex :=
  .seqs [.boundary (isword isalnum), .lit "send", spaces, .is '<', spaces,
    .group (qualified isalnum), spaces, .is '>', spaces, .is '(']

def _SUBSCRIBE_RE : Regex :=
  .seqs [.boundary (isword isalnum), .lit "cache", spaces, .is '(', spaces, .is ')', spaces,
    .is '.', spaces, .lit "subscribe", spaces, .is '<', spaces, .group (qualified isalnum), spaces,
    .is ',', spaces, .group (qualified isalnum), spaces, .is '>', spaces, .is '(']

def _BOUNDARY_POST_RE : Regex :=
  .seqs [.lit "//", spaces, .lit "boundary-post", spaces, .is ':', spaces,
    .group (qualified isalnum), spaces1, .group (qualified isalnum)]

-- How far the type expression goes that an argument begins with.
def message_len (depth : Nat) : Text → Nat
  | [] => 0
  | c :: t =>
      if c = '<' then message_len (depth + 1) t + 1
      else if c = '>' then if depth = 0 then 0 else message_len (depth - 1) t + 1
      else if depth = 0 ∧ c ∈ ['{', '(', ',', ')'] then 0
      else message_len depth t + 1

-- `t` is what comes behind the `(` of the call.
def _extract_send_message (t : Text) : Option Text :=
  let t := lstrip t
  let expr := strip (t.take (message_len 0 t))
  if expr = [] then none else some expr

def writes_edge (key : CacheKeyEntry) : ModuleGraphEdge :=
  ⟨key.writer_module, key.key_name, .writes, "writes".toList⟩

def subscribe_edge (m : Regex.Span) : Option ModuleGraphEdge :=
  match m.found.groups with
  | [key, subscriber] =>
      some ⟨lastPart key, lastPart subscriber, .key_changed, "KeyChanged".toList⟩
  | _ => none

def send_edge (module_names : List Text) (name : Text) (m : Regex.Span) : Option ModuleGraphEdge :=
  match m.found.groups with
  | [group] =>
      let receiver := lastPart group
      if receiver = name then none
      else if receiver ∉ module_names then none
      else (_extract_send_message m.rest).map fun message => ⟨name, receiver, .send, message⟩
  | _ => none

def boundary_edge (module_names : List Text) (name : Text) (m : Regex.Match) :
    Option ModuleGraphEdge :=
  match m.groups with
  | [group, message] =>
      let receiver := lastPart group
      if receiver = name then none
      else if receiver ∉ module_names then none
      else some ⟨name, receiver, .send, message⟩
  | _ => none

def source_edges (module_names : List Text) (m : ModuleEntry) : List ModuleGraphEdge :=
  match m.source_text with
  | none => []
  | some source =>
      let source_text := neutralize source
      ((_SUBSCRIBE_RE isalnum).spans source_text).filterMap subscribe_edge ++
        ((_SEND_RE isalnum).spans source_text).filterMap (send_edge module_names m.name)

def header_edges (module_names : List Text) (m : ModuleEntry) : List ModuleGraphEdge :=
  ((_BOUNDARY_POST_RE isalnum).finditer m.header_text).filterMap (boundary_edge module_names m.name)

-- What has been seen is the edge as a whole: its key has all of its fields.
def _dedup_edges (edges : List ModuleGraphEdge) : List ModuleGraphEdge :=
  FirstSeen.collect [] edges

def AppComposition.module_names (c : AppComposition) : List Text := c.modules.map ModuleEntry.name

def extract (c : AppComposition) : ModuleGraphIR :=
  { app := c.app_namespace
    app_short := c.app_short
    nodes := c.modules.map (fun m => ⟨m.name, .module⟩) ++
      c.cache_keys.map fun key => ⟨key.key_name, .cache_key⟩
    edges := _dedup_edges (c.cache_keys.map writes_edge ++
      (c.modules.flatMap (source_edges isalnum c.module_names) ++
        c.modules.flatMap (header_edges isalnum c.module_names))) }

end Extract

end Diagrams

end CortexFlow
