import Mathlib

namespace CortexFlow.Lib.Cpp

-- The preprocessing tokens of C++17, but for raw strings and header names, and without
-- line splices.

def nondigit (c : Char) : Bool := c.isAlpha || c = '_' || 128 ≤ c.toNat

def identifier_char (c : Char) : Bool := nondigit c || c.isDigit

structure Identifier where
  first : Char
  rest : List Char
  first_ok : nondigit first = true
  rest_ok : rest.all identifier_char = true

def Identifier.spelling (i : Identifier) : List Char := i.first :: i.rest

-- What a number goes on with: a digit or letter, a digit separator and what it separates,
-- an exponent with its sign, or a dot.
inductive NumberPart
  | char (c : Char) (h : identifier_char c = true)
  | separator (c : Char) (h : identifier_char c = true)
  | exponent (e sign : Char) (he : e ∈ ['e', 'E', 'p', 'P']) (hsign : sign ∈ ['+', '-'])
  | dot

def NumberPart.spelling : NumberPart → List Char
  | .char c _ => [c]
  | .separator c _ => ['\'', c]
  | .exponent e sign _ _ => [e, sign]
  | .dot => ['.']

def NumberPart.is_separator : NumberPart → Bool
  | .separator _ _ => true
  | _ => false

structure Number where
  dot : Bool
  first : Char
  parts : List NumberPart
  first_ok : first.isDigit = true

def Number.spelling (n : Number) : List Char :=
  (if n.dot then ['.'] else []) ++ n.first :: n.parts.flatMap NumberPart.spelling

def punctuators : List String :=
  ["\x7b", "\x7d", "[", "]", "#", "##", "(", ")", "<:", ":>", "<%", "%>", "%:", "%:%:", ";", ":",
    "...", "?", "::", ".", ".*", "+", "-", "*", "/", "%", "^", "&", "|", "~", "!", "=", "<",
    ">", "+=", "-=", "*=", "/=", "%=", "^=", "&=", "|=", "==", "!=", "<=", ">=", "&&", "||",
    "<<", ">>", "<<=", ">>=", "++", "--", ",", "->", "->*"]

-- What may come behind the backslash of an escape sequence.
def escapes : List Char := "'\"?\\abfnrtvxuU01234567".toList

-- A part of a string or character literal. The digits of an escape sequence are parts of
-- their own.
inductive Element (quote : Char)
  | char (c : Char) (h : c ≠ quote ∧ c ≠ '\\' ∧ c ≠ '\n')
  | escape (c : Char) (h : c ∈ escapes)

def Element.spelling {quote : Char} : Element quote → List Char
  | .char c _ => [c]
  | .escape c _ => ['\\', c]

-- The tokens, with the comments and the layout between them.
inductive Token
  | layout (c : Char) (h : c ∈ [' ', '\t', '\n', '\x0b', '\x0c', '\r'])
  | identifier (i : Identifier)
  | punctuator (p : String) (h : p ∈ punctuators)
  | number (n : Number)
  | literal (quote : Char) (elements : List (Element quote)) (hquote : quote = '"' ∨ quote = '\'')
      (hchar : quote = '\'' → elements ≠ [])
  | line_comment (content : List Char) (h : '\n' ∉ content) (hsplice : content.getLast? ≠ some '\\')
  | block_comment (content : List Char) (h : ¬['*', '/'] <:+: content)

-- A comment or literal is its content between delimiters. Other tokens have no content.
def Token.opening : Token → List Char
  | .layout c _ => [c]
  | .identifier i => i.spelling
  | .punctuator p _ => p.toList
  | .number n => n.spelling
  | .literal quote _ _ _ => [quote]
  | .line_comment _ _ _ => ['/', '/']
  | .block_comment _ _ => ['/', '*']

def Token.content : Token → List Char
  | .literal _ elements _ _ => elements.flatMap Element.spelling
  | .line_comment content _ _ => content
  | .block_comment content _ => content
  | _ => []

def Token.closing : Token → List Char
  | .literal quote _ _ _ => [quote]
  | .block_comment _ _ => ['*', '/']
  | _ => []

def Token.spelling (t : Token) : List Char := t.opening ++ (t.content ++ t.closing)

def render (tokens : List Token) : List Char := tokens.flatMap Token.spelling

-- What follows a token is not read as a part of it: a `/` does not become a comment, and a
-- comment to the end of the line ends with the line.
def Token.Before (rest : List Char) : Token → Prop
  | .punctuator p _ => p = "/" → rest.head? ≠ some '/' ∧ rest.head? ≠ some '*'
  | .line_comment _ _ _ => rest = [] ∨ rest.head? = some '\n'
  | _ => True

-- The layout keeps the tokens apart.
def Apart : List Token → Prop
  | [] => True
  | t :: ts => t.Before (render ts) ∧ Apart ts

-- A numeric literal with a digit separator in it.
def Token.separated : Token → Bool
  | .number n => n.parts.any NumberPart.is_separator
  | _ => false

-- Characters that open neither a comment nor a literal.
def plain (c : Char) : Bool := c ≠ '/' && c ≠ '"' && c ≠ '\''

theorem plain_identifier_char {c : Char} (h : identifier_char c = true) : plain c = true := by
  by_contra hnot
  simp only [plain, ne_eq, Bool.and_eq_true, decide_eq_true_eq, not_and_or, not_not] at hnot
  rcases hnot with (rfl | rfl) | rfl <;> exact absurd h (by decide)

theorem plain_identifier (i : Identifier) : i.spelling.all plain = true := by
  rw [Identifier.spelling, List.all_cons, Bool.and_eq_true]
  have hfirst : identifier_char i.first = true := by
    rw [identifier_char, i.first_ok, Bool.true_or]
  refine ⟨plain_identifier_char hfirst, List.all_eq_true.mpr fun c hc => ?_⟩
  exact plain_identifier_char (List.all_eq_true.mp i.rest_ok c hc)

theorem plain_part {part : NumberPart} (h : part.is_separator = false) :
    part.spelling.all plain = true := by
  cases part with
  | char c hc =>
      rw [NumberPart.spelling, List.all_cons, plain_identifier_char hc]
      rfl
  | separator c hc => exact absurd h (by simp [NumberPart.is_separator])
  | exponent e sign he hsign =>
      have hexponent : (['e', 'E', 'p', 'P'].all plain) = true := by decide
      have hsigns : (['+', '-'].all plain) = true := by decide
      rw [NumberPart.spelling, List.all_cons, List.all_cons,
        List.all_eq_true.mp hexponent e he, List.all_eq_true.mp hsigns sign hsign]
      rfl
  | dot => rfl

theorem plain_first (n : Number) : plain n.first = true := by
  refine plain_identifier_char ?_
  rw [identifier_char, n.first_ok, Bool.or_true]

-- Before its first digit separator a number has none of them.
theorem plain_head (n : Number) {parts : List NumberPart}
    (h : ∀ part ∈ parts, part.is_separator = false) :
    ((if n.dot then ['.'] else []) ++ n.first :: parts.flatMap NumberPart.spelling).all plain =
      true := by
  have hdot : (if n.dot then ['.'] else []).all plain = true := by
    split_ifs
    · decide
    · rfl
  have hparts : (parts.flatMap NumberPart.spelling).all plain = true := by
    rw [List.all_flatMap]
    exact List.all_eq_true.mpr fun part hpart => plain_part (h part hpart)
  rw [List.all_append, List.all_cons, hdot, plain_first n, hparts]
  rfl

theorem punctuator_cases {p : String} (h : p ∈ punctuators) :
    p = "/" ∨ p = "/=" ∨ p.toList.all plain = true := by
  have hall : (punctuators.all fun p => p = "/" || p = "/=" || p.toList.all plain) = true := by
    decide +kernel
  have hp := List.all_eq_true.mp hall p h
  simpa [or_assoc] using hp

end CortexFlow.Lib.Cpp
