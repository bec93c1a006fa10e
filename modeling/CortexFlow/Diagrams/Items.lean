import CortexFlow.Lib.Brackets
import CortexFlow.Diagrams.Comments
import CortexFlow.Diagrams.Names

namespace CortexFlow

namespace Diagrams

open Lib

-- The C++ that `functions` is for, as a tree of items.

def parens (t : Text) : Bool := Brackets.balanced '(' ')' t

def braces (t : Text) : Bool := Brackets.balanced '{' '}' t

-- No literal and no comment is left open where the text ends and `c` comes.
def ends_before (c : Char) (t : Text) : Bool := in_code .code (t ++ [c])

def namespace_word : Text := "namespace".toList

def scope_words : List Text := [namespace_word, "class".toList, "struct".toList]

structure Spaces1 extends Spaces where
  ne_nil : text ≠ []

-- A comment on its own, or whitespace.
inductive Remark
  | spaces (s : Spaces)
  | line (content : Text) (hline : '\n' ∉ content)
  | block (content : Text) (hblock : ¬['*', '/'] <:+: content)

def Remark.text : Remark → Text
  | .spaces s => s.text
  | .line content _ => '/' :: '/' :: (content ++ ['\n'])
  | .block content _ => '/' :: '*' :: (content ++ ['*', '/'])

-- An `#include` line, or another directive that is a line of its own.
structure Include where
  content : Text
  line : '\n' ∉ content
  ends : ends_before '\n' content = true
  nested : braces (neutralize content) = true

def Include.text (i : Include) : Text := '#' :: (i.content ++ ['\n'])

inductive Trivia
  | remark (r : Remark)
  | directive (i : Include)

def Trivia.text : Trivia → Text
  | .remark r => r.text
  | .directive i => i.text

inductive Access
  | public_
  | protected_
  | private_
deriving DecidableEq

def Access.text : Access → Text
  | .public_ => "public".toList
  | .protected_ => "protected".toList
  | .private_ => "private".toList

-- An access label, and what comes between it and the next label or the member.
structure Label where
  access : Access
  gap : Spaces
  behind : List Remark

def Label.text (l : Label) : Text :=
  l.access.text ++ (l.gap.text ++ ':' :: l.behind.flatMap Remark.text)

-- What comes before an item.
structure Lead where
  gap : List Trivia
  labels : List Label

def Lead.text (l : Lead) : Text := l.gap.flatMap Trivia.text ++ l.labels.flatMap Label.text

-- Whether an item may begin with the text: whitespace, a directive and a comment are not
-- part of it.
def begins_item : Text → Bool
  | [] => true
  | c :: t =>
      !isspace c && c ≠ '#' && !(c = '/' && (t.head? = some '/' || t.head? = some '*'))

-- A statement without braces: up to its `;`.
structure Statement where
  text : Text
  ends : ends_before ';' text = true
  begins : begins_item text = true
  braceless : ((neutralize text).all fun c => c ≠ '{' && c ≠ '}') = true
  nested : parens (neutralize text) = true
  one : find_next_top 0 (neutralize text) = none

inductive ClassKey
  | class_
  | struct_
deriving DecidableEq

def ClassKey.text : ClassKey → Text
  | .class_ => "class".toList
  | .struct_ => "struct".toList

inductive Qualifier
  | const
  | override
  | final
  | noexcept
  | ref
  | rref
deriving DecidableEq

def Qualifier.text : Qualifier → Text
  | .const => "const".toList
  | .override => "override".toList
  | .final => "final".toList
  | .noexcept => "noexcept".toList
  | .ref => ['&']
  | .rref => ['&', '&']

variable (isalnum : Char → Bool)

-- `class name ;`, up to its `;`.
structure Forward where
  key : ClassKey
  gap : Spaces1
  name : Ident isalnum
  trail : Spaces

-- A data member with its value in braces: `head { value } ;`.
structure Member where
  head : Text
  head_ends : ends_before '{' head = true
  begins : begins_item head = true
  plain : ((neutralize head).all fun c => c ∉ statement_ends) = true
  word : (neutralize head).takeWhile (isword isalnum) ∉ scope_words
  value : Text
  value_ends : ends_before '}' value = true
  nested : braces (neutralize value) = true
  trail : Spaces

-- `types name ( args ) qualifiers { body }`
structure Function where
  types : List (QualName isalnum × Spaces1)
  types_ok : ∀ t ∈ types, t.1.text ∉ scope_words
  name : QualName isalnum
  name_ok : name.last.text ∉ _NOT_FUNCTION_NAMES
  gap : Spaces
  args : Text
  args_ends : ends_before ')' args = true
  args_parens : parens (neutralize args) = true
  args_braces : braces (neutralize args) = true
  qualifiers : List (Spaces × Qualifier)
  trail : Spaces
  body : Text
  body_ends : ends_before '}' body = true
  body_braces : braces (neutralize body) = true

-- `: bases`, up to the brace.
structure Bases where
  gap : Spaces
  text : Text
  ends : ends_before '{' text = true
  plain : ((neutralize text).all fun c => c ≠ ';' && c ≠ '{' && c ≠ '}') = true
  nested : parens (neutralize text) = true

-- What comes behind the name of a class.
inductive ClassTail
  | spaces (s : Spaces)
  | bases (b : Bases)

-- What opens a scope, up to the brace.
inductive Head
  | namespace_ (gap : Spaces1) (name : Ident isalnum) (trail : Spaces)
  | anonymous (trail : Spaces)
  | class_ (key : ClassKey) (gap : Spaces1) (name : Ident isalnum) (tail : ClassTail)
      (closing : Spaces)

inductive Leaf
  | statement (s : Statement)
  | forward (f : Forward isalnum)
  | member (m : Member isalnum)
  | function (f : Function isalnum)

-- The items of a file or scope, with what comes before each and behind the last.
inductive Items
  | nil (gap : List Trivia)
  | leaf (lead : Lead) (l : Leaf isalnum) (rest : Items)
  | scope (lead : Lead) (head : Head isalnum) (body rest : Items)

variable {isalnum}

section Text

def Forward.text (f : Forward isalnum) : Text :=
  f.key.text ++ (f.gap.text ++ (f.name.text ++ f.trail.text))

def Member.text (m : Member isalnum) : Text :=
  m.head ++ '{' :: (m.value ++ '}' :: m.trail.text)

def Function.types_text (f : Function isalnum) : Text :=
  f.types.flatMap fun t => t.1.text ++ t.2.text

def Function.tail_text (f : Function isalnum) : Text :=
  f.qualifiers.flatMap (fun q => q.1.text ++ q.2.text) ++ f.trail.text

def Function.text (f : Function isalnum) : Text :=
  f.types_text ++ (f.name.text ++ (f.gap.text ++ '(' :: (f.args ++ ')' :: (f.tail_text ++
    '{' :: (f.body ++ ['}'])))))

def ClassTail.text : ClassTail → Text
  | .spaces s => s.text
  | .bases b => b.gap.text ++ ':' :: b.text

def Head.text : Head isalnum → Text
  | .namespace_ gap name trail => namespace_word ++ (gap.text ++ (name.text ++ trail.text))
  | .anonymous trail => namespace_word ++ trail.text
  | .class_ key gap name tail _ => key.text ++ (gap.text ++ (name.text ++ tail.text))

def Head.name : Head isalnum → Option Text
  | .namespace_ _ name _ => some name.text
  | .anonymous _ => none
  | .class_ _ _ name _ _ => some name.text

-- What comes behind the closing brace.
def Head.closing : Head isalnum → Text
  | .namespace_ _ _ _ => []
  | .anonymous _ => []
  | .class_ _ _ _ _ closing => closing.text ++ [';']

def Leaf.text : Leaf isalnum → Text
  | .statement s => s.text ++ [';']
  | .forward f => f.text ++ [';']
  | .member m => m.text ++ [';']
  | .function f => f.text

def Items.text : Items isalnum → Text
  | .nil gap => gap.flatMap Trivia.text
  | .leaf lead l rest => lead.text ++ (l.text ++ rest.text)
  | .scope lead head body rest =>
      lead.text ++ (head.text ++ '{' :: (body.text ++ '}' :: (head.closing ++ rest.text)))

end Text

-- What is defined in the items, in their order: the names, qualified with the scopes that
-- they are in, and the bodies.
section Defined

def qualified_name (scopes : List Text) (name : Text) : Text :=
  "::".toList.intercalate (scopes ++ [name])

def Leaf.defined (scopes : List Text) : Leaf isalnum → List (Text × Text)
  | .function f => [(qualified_name scopes f.name.text, neutralize f.body)]
  | _ => []

def Items.defined (scopes : List Text) : Items isalnum → List (Text × Text)
  | .nil _ => []
  | .leaf _ l rest => l.defined scopes ++ rest.defined scopes
  | .scope _ head body rest => body.defined (scopes ++ head.name.toList) ++ rest.defined scopes

-- The last definition of a name.
def last_of (name : Text) (definitions : List (Text × Text)) : Option Text :=
  definitions.reverse.lookup name

-- No access labels.
def Items.unlabelled : Items isalnum → Prop
  | .nil _ => True
  | .leaf lead _ rest => lead.labels = [] ∧ rest.unlabelled
  | .scope lead _ body rest => lead.labels = [] ∧ body.unlabelled ∧ rest.unlabelled

end Defined

end Diagrams

end CortexFlow
