import CortexFlow.Lib.Regex
import Mathlib

namespace CortexFlow

namespace Diagrams

open Lib

abbrev Text := List Char

-- `str.isspace`, and what `\s` matches.
def isspace (c : Char) : Bool :=
  let n := c.toNat
  (9 ≤ n && n ≤ 13) || (28 ≤ n && n ≤ 32) || n = 0x85 || n = 0xA0 || n = 0x1680 ||
    (0x2000 ≤ n && n ≤ 0x200A) || n = 0x2028 || n = 0x2029 || n = 0x202F || n = 0x205F ||
    n = 0x3000

-- What `\w` matches. `isalnum` says which characters beyond ASCII are letters or
-- digits.
def isword (isalnum : Char → Bool) (c : Char) : Bool :=
  c.isAlphanum || c = '_' || (128 ≤ c.toNat && !isspace c && isalnum c)

def lstrip (t : Text) : Text := t.dropWhile isspace

def rstrip (t : Text) : Text := (t.reverse.dropWhile isspace).reverse

def strip (t : Text) : Text := rstrip (lstrip t)

-- `t.split('::')[-1]`, after `part`.
def lastPartFrom (part : Text) : Text → Text
  | ':' :: ':' :: t => lastPartFrom [] t
  | c :: t => lastPartFrom (part ++ [c]) t
  | [] => part

def lastPart (t : Text) : Text := lastPartFrom [] t

def startsWith (prefix_ : String) (t : Text) : Bool := prefix_.toList.isPrefixOf t

def spaces : Regex := .star (.chr isspace)

def spaces1 : Regex := .plus (.chr isspace)

-- `[A-Za-z_]\w*`
def ident (isalnum : Char → Bool) : Regex :=
  .seq (.chr fun c => c.isAlpha || c = '_') (.star (.chr (isword isalnum)))

def class_or_struct : Regex := .alt (.lit "class") (.lit "struct")

def _NAMESPACE_RE (isalnum : Char → Bool) : Regex :=
  .seqs [.lit "namespace", spaces1, .group (ident isalnum), spaces, .is '{']

def _ANON_NS_RE : Regex := .seqs [.lit "namespace", spaces, .is '{']

def _CLASS_RE (isalnum : Char → Bool) : Regex :=
  .seqs [class_or_struct, spaces1, .group (ident isalnum), .boundary (isword isalnum),
    .opt (.seqs [spaces, .is ':', .star (.chr fun c => c ≠ ';' && c ≠ '{')]), spaces, .is '{']

def _FORWARD_DECL_RE (isalnum : Char → Bool) : Regex :=
  .seqs [class_or_struct, spaces1, ident isalnum, spaces, .is ';']

def _QUAL_NAME_RE (isalnum : Char → Bool) : Regex :=
  .seqs [.group (.seq (.star (.seq (ident isalnum) (.lit "::"))) (ident isalnum)), spaces, .final]

def _FUNC_TAIL_RE : Regex :=
  .seq
    (.star (.alts
      [.seq (.lit "noexcept")
        (.opt (.seqs [spaces, .is '(', .star (.chr fun c => c ≠ ')'), .is ')'])),
        .lit "const", .lit "override", .lit "final", .seq (.is '&') (.opt (.is '&')),
        .chr isspace]))
    .final

def _NOT_FUNCTION_NAMES : List Text :=
  ["if", "while", "for", "switch", "return", "else", "do", "catch", "try", "static_assert",
    "sizeof", "alignof", "decltype", "typeid", "noexcept", "co_await", "co_yield",
    "co_return"].map String.toList

-- Where the loops of `neutralize` are.
inductive Mode
  | code
  | block
  | line
  | literal (quote : Char)
deriving DecidableEq

def blank (c : Char) : Char := if c = '\n' then '\n' else ' '

def neutralizeFrom : Mode → Text → Text
  | _, [] => []
  | .code, '/' :: '*' :: t => '/' :: '*' :: neutralizeFrom .block t
  | .code, '/' :: '/' :: t => '/' :: '/' :: neutralizeFrom .line t
  | .code, c :: t =>
      if c = '"' ∨ c = '\'' then c :: neutralizeFrom (.literal c) t
      else c :: neutralizeFrom .code t
  | .block, '*' :: '/' :: t => '*' :: '/' :: neutralizeFrom .code t
  | .block, c :: t => blank c :: neutralizeFrom .block t
  | .line, c :: t =>
      if c = '\n' then '\n' :: neutralizeFrom .code t else ' ' :: neutralizeFrom .line t
  | .literal quote, c :: t =>
      if c = quote then quote :: neutralizeFrom .code t
      else if c = '\\' then
        match t with
        | [] => [' ']
        | d :: t => ' ' :: blank d :: neutralizeFrom (.literal quote) t
      else blank c :: neutralizeFrom (.literal quote) t

attribute [grind =] neutralizeFrom

def neutralize (source : Text) : Text := neutralizeFrom .code source

-- How far the closing bracket is, with `depth` brackets open.
def find_closing (opening closing : Char) : Nat → Text → Option Nat
  | _, [] => none
  | depth, c :: t =>
      if c = opening then (find_closing opening closing (depth + 1) t).map (· + 1)
      else if c = closing then
        if depth ≤ 1 then some 0 else (find_closing opening closing (depth - 1) t).map (· + 1)
      else (find_closing opening closing depth t).map (· + 1)

def find_matching_brace (depth : Nat) (t : Text) : Option Nat := find_closing '{' '}' depth t

-- How far the next `;`, `{` or `}` outside of parentheses is.
def find_next_top : Int → Text → Option Nat
  | _, [] => none
  | paren_depth, c :: t =>
      if c = '(' then (find_next_top (paren_depth + 1) t).map (· + 1)
      else if c = ')' then (find_next_top (paren_depth - 1) t).map (· + 1)
      else if paren_depth = 0 ∧ (c = ';' ∨ c = '{' ∨ c = '}') then some 0
      else (find_next_top paren_depth t).map (· + 1)

-- The first balanced `(...)` group: where it opens and closes.
def find_group (depth : Int) (open_paren : Option Nat) (idx : Nat) : Text → Option (Nat × Nat)
  | [] => none
  | c :: t =>
      if c = '(' then
        find_group (depth + 1) (if depth = 0 ∧ open_paren = none then some idx else open_paren)
          (idx + 1) t
      else if c = ')' then
        match open_paren with
        | some start =>
            if depth - 1 = 0 then some (start, idx)
            else find_group (depth - 1) open_paren (idx + 1) t
        | none => find_group (depth - 1) open_paren (idx + 1) t
      else find_group depth open_paren (idx + 1) t

def _extract_function_name (isalnum : Char → Bool) (sig : Text) : Option Text :=
  let s := rstrip sig
  match find_group 0 none 0 s with
  | none => none
  | some (open_paren, close_paren) =>
      let tail := strip (s.drop (close_paren + 1))
      if startsWith ":" tail || _FUNC_TAIL_RE.fullmatch tail then
        match (_QUAL_NAME_RE isalnum).search (rstrip (s.take open_paren)) with
        | none => none
        | some (m, _) =>
            let name := m.groups.headD []
            if lastPart name ∈ _NOT_FUNCTION_NAMES then none else some name
      else none

-- The name that `_extract_function_name` reads before the arguments.
def named (isalnum : Char → Bool) (before : Text) : Option Text :=
  match (_QUAL_NAME_RE isalnum).search (rstrip before) with
  | none => none
  | some (m, _) =>
      let name := m.groups.headD []
      if lastPart name ∈ _NOT_FUNCTION_NAMES then none else some name

def _join_qname (prefix_ name : Text) : Text :=
  if prefix_ = [] then name else prefix_ ++ "::".toList ++ name

-- How far the whitespace and a `;` after it go.
def skip_semicolon (t : Text) : Nat :=
  let n := (t.takeWhile isspace).length
  if (t.drop n).head? = some ';' then n + 1 else n

-- How far a block comment goes on, from behind its `/*`.
def skip_block : Text → Nat
  | '*' :: '/' :: _ => 2
  | _ :: c :: t => skip_block (c :: t) + 1
  | _ => 0

-- What the loop of `_scan` does at its position: return, go on, scan what is
-- between the braces of a scope, or record what is between those of a function.
-- The positions are counted from there.
inductive Step
  | done
  | next (n : Nat)
  | scope (name : Option Text) (start len next : Nat)
  | body (name : Option Text) (start len next : Nat)
deriving DecidableEq

-- A scope or function whose opening brace is before `start`.
def braced (t : Text) (start : Nat) (item : Nat → Step) : Step :=
  match find_matching_brace 1 (t.drop start) with
  | none => .done
  | some len => item len

def statement (isalnum : Char → Bool) (t : Text) : Step :=
  match find_next_top 0 t with
  | none => .done
  | some marker =>
      match t[marker]? with
      | some ';' => .next (marker + 1)
      | some '{' =>
          braced t (marker + 1) fun len =>
            let close := marker + 1 + len
            .body (_extract_function_name isalnum (t.take marker)) (marker + 1) len
              (close + 1 + skip_semicolon (t.drop (close + 1)))
      | _ => .done

def item (isalnum : Char → Bool) (t : Text) : Step :=
  match (_FORWARD_DECL_RE isalnum).matchAt t with
  | some m => .next m.len
  | none =>
  match (_NAMESPACE_RE isalnum).matchAt t with
  | some m => braced t m.len fun len => .scope m.groups.head? m.len len (m.len + len + 1)
  | none =>
  match _ANON_NS_RE.matchAt t with
  | some m => braced t m.len fun len => .scope none m.len len (m.len + len + 1)
  | none =>
  match (_CLASS_RE isalnum).matchAt t with
  | some m =>
      braced t m.len fun len =>
        let close := m.len + len
        .scope m.groups.head? m.len len (close + 1 + skip_semicolon (t.drop (close + 1)))
  | none => statement isalnum t

-- The rest of the line, from a position on.
def lineLength (t : Text) : Nat := (t.takeWhile (· ≠ '\n')).length

def step (isalnum : Char → Bool) : Text → Step
  | [] => .done
  | c :: t =>
      if isspace c then .next 1
      else if c = '}' then .done
      else if c = '#' then .next (lineLength (c :: t))
      else if c = '/' ∧ t.head? = some '/' then .next (lineLength (c :: t))
      else if c = '/' ∧ t.head? = some '*' then .next (2 + skip_block (t.drop 1))
      else item isalnum (c :: t)

-- A `dict`, in the order in which its keys came in.
abbrev Bodies := List (Text × Text)

def Bodies.insert (bodies : Bodies) (name body : Text) : Bodies :=
  if name ∈ bodies.map Prod.fst then
    bodies.map fun entry => if entry.1 = name then (name, body) else entry
  else bodies ++ [(name, body)]

-- `_scan`, on the text between its two positions.
def _scan (isalnum : Char → Bool) : Nat → Text → Text → Bodies → Bodies
  | 0, _, _, bodies => bodies
  | fuel + 1, t, prefix_, bodies =>
      match step isalnum t with
      | .done => bodies
      | .next n => _scan isalnum fuel (t.drop n) prefix_ bodies
      | .scope name start len n =>
          let inner := match name with
            | none => prefix_
            | some name => _join_qname prefix_ name
          _scan isalnum fuel (t.drop n) prefix_
            (_scan isalnum fuel ((t.drop start).take len) inner bodies)
      | .body none _ _ n => _scan isalnum fuel (t.drop n) prefix_ bodies
      | .body (some name) start len n =>
          _scan isalnum fuel (t.drop n) prefix_
            (bodies.insert (_join_qname prefix_ name) ((t.drop start).take len))

def functions (isalnum : Char → Bool) (source : Text) : Bodies :=
  let s := neutralize source
  _scan isalnum s.length s [] []

end Diagrams

end CortexFlow
