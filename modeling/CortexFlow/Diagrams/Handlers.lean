import CortexFlow.Diagrams.Plain
import Mathlib

namespace CortexFlow

namespace Diagrams

open Lib

-- The handler bodies that are built from guarded blocks and directives.
section Syntax

variable (isalnum : Char → Bool)

-- What stands between the angle brackets of a `type_id<...>`.
structure TypeArg where
  text : Text
  plain : Plain isalnum (text ++ ['>'])
  balanced : find_angle 1 (text ++ ['>']) = some text.length

-- `type_id<X>(`
structure Check where
  arg : TypeArg isalnum
  before_arg : Spaces
  before_call : Spaces

inductive Directive
  | stay
  | done
  | transition_to (target : QualName isalnum)
  | transition_to_now (target : QualName isalnum)

-- `stay(`, `done(`, `transition_to<Y>(` or `transition_to_now<Y>(`
structure Call where
  directive : Directive isalnum
  before_arg : Spaces
  left : Spaces
  right : Spaces
  before_call : Spaces

-- A part of a condition: plain text, or a call of something that has the name of a
-- directive.
inductive Part
  | plain (text : Text) (h : Plain isalnum text)
  | call (call : Call isalnum)

-- A condition up to its closing parenthesis, with at most one check.
structure Condition where
  before : List (Part isalnum)
  check : Option (Check isalnum)
  after : List (Part isalnum)
  last : Text
  plain : Plain isalnum (last ++ [')'])

-- Whether the directive is written `cortexflow::`.
structure Return where
  lead : Spaces
  gap : Spaces
  gap_ne_nil : gap.text ≠ []
  qualified : Bool
  call : Call isalnum
  inner : Spaces
  tail : Spaces

-- `return d;` and `if (...) { ... }`, one behind the other.
inductive Body
  | nil (lead : Spaces)
  | ret (stmt : Return isalnum) (rest : Body)
  | block (lead gap brace : Spaces) (condition : Condition isalnum) (body rest : Body)

end Syntax

variable {isalnum : Char → Bool}

section Text

def Check.tail (c : Check isalnum) : Text :=
  c.before_arg.text ++ '<' :: (c.arg.text ++ '>' :: (c.before_call.text ++ ['(']))

def Check.text (c : Check isalnum) : Text := "type_id".toList ++ c.tail

def Directive.verb : Directive isalnum → Verb
  | stay => .stay
  | done => .done
  | transition_to _ => .transition_to
  | transition_to_now _ => .transition_to_now

def Directive.target : Directive isalnum → Option (QualName isalnum)
  | stay => none
  | done => none
  | transition_to target => some target
  | transition_to_now target => some target

def Call.tail (c : Call isalnum) : Text :=
  match c.directive.target with
  | none => c.before_call.text ++ ['(']
  | some target =>
      c.before_arg.text ++ '<' :: (c.left.text ++ (target.text ++ c.right.text) ++
        '>' :: (c.before_call.text ++ ['(']))

def Call.text (c : Call isalnum) : Text := c.directive.verb.text.toList ++ c.tail

-- A body as the extractor reads it: plain text, checks and calls.
inductive Piece (isalnum : Char → Bool)
  | plain (text : Text)
  | check (check : Check isalnum)
  | call (call : Call isalnum)

def Piece.text : Piece isalnum → Text
  | plain text => text
  | check c => c.text
  | call c => c.text

def Part.piece : Part isalnum → Piece isalnum
  | plain text _ => .plain text
  | call c => .call c

def Condition.pieces (c : Condition isalnum) : List (Piece isalnum) :=
  c.before.map Part.piece ++ ((c.check.map Piece.check).toList ++
    (c.after.map Part.piece ++ [.plain (c.last ++ [')'])]))

def Return.scope (r : Return isalnum) : Text :=
  if r.qualified then "cortexflow::".toList else []

def Return.pieces (r : Return isalnum) : List (Piece isalnum) :=
  [.plain (r.lead.text ++ ("return".toList ++ (r.gap.text ++ r.scope))), .call r.call,
    .plain (r.inner.text ++ ')' :: (r.tail.text ++ [';']))]

def Body.pieces : Body isalnum → List (Piece isalnum)
  | nil lead => [.plain lead.text]
  | ret stmt rest => stmt.pieces ++ rest.pieces
  | block lead gap brace condition body rest =>
      .plain (lead.text ++ ("if".toList ++ (gap.text ++ ['(']))) ::
        (condition.pieces ++ .plain (brace.text ++ ['{']) ::
          (body.pieces ++ .plain ['}'] :: rest.pieces))

def textOf (pieces : List (Piece isalnum)) : Text := pieces.flatMap Piece.text

def Body.text (b : Body isalnum) : Text := textOf b.pieces

end Text

-- What a body says, block by block.
section Meaning

def Check.label (c : Check isalnum) : Text := _normalize_type (strip c.arg.text)

def Condition.guard (c : Condition isalnum) : Option Text := c.check.map Check.label

-- The directives in source order, each with the check of the innermost block around it
-- that has one.
def Body.returns (guard : Option Text) : Body isalnum → List (Directive isalnum × Option Text)
  | nil _ => []
  | ret stmt rest => (stmt.call.directive, guard) :: rest.returns guard
  | block _ _ _ condition body rest =>
      body.returns (condition.guard.or guard) ++ rest.returns guard

def Directive.kind : Directive isalnum → Option DirectiveKind
  | stay => none
  | done => some .done
  | transition_to _ => some .transition
  | transition_to_now _ => some .transition_now

-- The edge of a directive under a message: none for `stay()`.
def Directive.edge (state : Text) (d : Directive isalnum) (message : Option Text) :
    Option FlowEdge :=
  d.kind.map fun kind =>
    { from_state := state
      to_state := d.target.map fun target => target.last.text
      directive := kind
      message := message }

def edges (state : Text) (returns : List (Directive isalnum × Option Text)) : List FlowEdge :=
  returns.filterMap fun r => r.1.edge state r.2

-- What comes one after the other in the source: the checks, the directives that are
-- returned, with their guards, and those that are called in a condition.
inductive Mark (isalnum : Char → Bool)
  | check (check : Check isalnum)
  | ret (d : Directive isalnum) (guard : Option Text)
  | stray (d : Directive isalnum)

def Part.marks : Part isalnum → List (Mark isalnum)
  | plain _ _ => []
  | call c => [.stray c.directive]

def Condition.marks (c : Condition isalnum) : List (Mark isalnum) :=
  c.before.flatMap Part.marks ++ ((c.check.map Mark.check).toList ++
    c.after.flatMap Part.marks)

def Body.marks (guard : Option Text) : Body isalnum → List (Mark isalnum)
  | nil _ => []
  | ret stmt rest => .ret stmt.call.directive guard :: rest.marks guard
  | block _ _ _ condition body rest =>
      condition.marks ++ (body.marks (condition.guard.or guard) ++ rest.marks guard)

def Mark.returned : Mark isalnum → Option (Directive isalnum × Option Text)
  | ret d guard => some (d, guard)
  | _ => none

-- The message of the check that comes immediately before.
def tag : Option (Mark isalnum) → Option Text
  | some (.check check) => some check.label
  | _ => none

-- The directives, each with the message of the check that immediately precedes it.
def preceded : Option (Mark isalnum) → List (Mark isalnum) →
    List (Directive isalnum × Option Text)
  | _, [] => []
  | _, .check check :: marks => preceded (some (.check check)) marks
  | prev, .ret d guard :: marks => (d, tag prev) :: preceded (some (.ret d guard)) marks
  | prev, .stray d :: marks => (d, tag prev) :: preceded (some (.stray d)) marks

end Meaning

-- The extractor finds the checks and calls of a body, and nothing else.
section Found

theorem isWord_spaces (s : Spaces) {c : Char} (hc : isword isalnum c = false) (t : Text) :
    Regex.isWord (isword isalnum) (s.text ++ c :: t).head? = false := by
  cases h : s.text with
  | nil => exact hc
  | cons d u =>
      have hd : d ∈ s.text := by
        rw [h]
        exact List.mem_cons_self
      exact not_isword_of_isspace isalnum (s.isspace d hd)

theorem lstrip_to (s : Spaces) {c : Char} (hc : isspace c = false) (t : Text) :
    lstrip (s.text ++ c :: t) = c :: t := by
  rw [lstrip_spaces s.isspace, lstrip_cons hc]

theorem template_arg_eq (s : Spaces) {arg : Text}
    (hbalanced : find_angle 1 (arg ++ ['>']) = some arg.length) (rest : Text) :
    template_arg (s.text ++ '<' :: (arg ++ '>' :: rest)) = some (arg, rest) := by
  have hclose := find_closing_append hbalanced rest
  rw [List.append_assoc, List.singleton_append] at hclose
  have hdrop : (arg ++ '>' :: rest).drop (arg.length + 1) = rest := by
    rw [← List.drop_drop, List.drop_left]
    rfl
  rw [template_arg, lstrip_to s (by decide)]
  simp only [find_angle, hclose, Option.map_some, List.take_left, hdrop]

theorem called_eq (s : Spaces) (rest : Text) : called (s.text ++ '(' :: rest) = true := by
  rw [called, lstrip_to s (by decide)]
  rfl

-- A type that is named has no angle brackets of its own.
theorem balanced_name (left right : Spaces) (n : QualName isalnum) :
    find_angle 1 (left.text ++ (n.text ++ right.text) ++ ['>']) =
      some (left.text ++ (n.text ++ right.text)).length := by
  have hplain : ∀ c ∈ left.text ++ (n.text ++ right.text), c ≠ '<' ∧ c ≠ '>' := by
    intro c hc
    have hspace (h : isspace c = true) : c ≠ '<' ∧ c ≠ '>' :=
      ⟨ne_of_isspace h (by decide), ne_of_isspace h (by decide)⟩
    rcases List.mem_append.mp hc with hc | hc
    · exact hspace (left.isspace c hc)
    · rcases List.mem_append.mp hc with hc | hc
      · have hangle (d : Char) (hd : isword isalnum d = false) (hcolon : d ≠ ':') : c ≠ d := by
          rintro rfl
          rcases n.name_char c hc with h | h
          · rw [hd] at h
            cases h
          · exact hcolon h
        exact ⟨hangle '<' rfl (by decide), hangle '>' rfl (by decide)⟩
      · exact hspace (right.isspace c hc)
  rw [find_angle, find_closing_skip hplain]
  simp [find_closing]

theorem plain_name (n : QualName isalnum) (right : Spaces) :
    Plain isalnum (n.text ++ (right.text ++ ['>'])) := by
  have hend : Plain isalnum (right.text ++ ['>']) :=
    plain_append (plain_spaces right) (plain_char rfl)
  have hlast : Plain isalnum (n.last.text ++ (right.text ++ ['>'])) := by
    refine plain_word n.last.ne_nil n.last.isword hend (by simp) (isWord_spaces right rfl []) ?_
    exact Or.inr ⟨'>', by rw [lstrip_to right (by decide)]; rfl, by decide, by decide⟩
  have hscopes (scopes : List (Ident isalnum)) : Plain isalnum
      (scopes.flatMap (fun i => i.text ++ "::".toList) ++
        (n.last.text ++ (right.text ++ ['>']))) := by
    induction scopes with
    | nil => exact hlast
    | cons i scopes ih =>
        rw [List.flatMap_cons, List.append_assoc, List.append_assoc]
        have hcolons : Plain isalnum "::".toList := plain_chars fun c hc => by
          have hcolon : c = ':' := by simpa using hc
          rw [hcolon]
          rfl
        refine plain_word i.ne_nil i.isword (plain_append hcolons ih) (by simp) rfl ?_
        exact Or.inr ⟨':', rfl, by decide, by decide⟩
  rw [QualName.text, List.append_assoc]
  exact hscopes n.scopes

theorem plain_call (s : Spaces) : Plain isalnum (s.text ++ ['(']) :=
  plain_append (plain_spaces s) (plain_char rfl)

theorem Check.plain_tail (c : Check isalnum) : Plain isalnum c.tail := by
  have harg := plain_append (plain_spaces c.before_arg)
    (plain_append (u := ['<']) (plain_char rfl)
      (plain_append c.arg.plain (plain_call c.before_call)))
  simpa [Check.tail] using harg

theorem Call.plain_tail (c : Call isalnum) : Plain isalnum c.tail := by
  unfold Call.tail
  cases c.directive.target with
  | none => exact plain_call c.before_call
  | some target =>
      have harg := plain_append (plain_spaces c.before_arg)
        (plain_append (u := ['<']) (plain_char rfl)
          (plain_append (plain_spaces c.left)
            (plain_append (plain_name target c.right) (plain_call c.before_call))))
      simpa using harg

theorem Check.head_tail (c : Check isalnum) (rest : Text) :
    Regex.isWord (isword isalnum) (c.tail ++ rest).head? = false := by
  rw [Check.tail, List.append_assoc]
  exact isWord_spaces c.before_arg rfl _

theorem Call.head_tail (c : Call isalnum) (rest : Text) :
    Regex.isWord (isword isalnum) (c.tail ++ rest).head? = false := by
  unfold Call.tail
  cases c.directive.target with
  | none =>
      rw [List.append_assoc]
      exact isWord_spaces c.before_call rfl _
  | some target =>
      rw [List.append_assoc]
      exact isWord_spaces c.before_arg rfl _

theorem type_id_call_eq (c : Check isalnum) (pos : Nat) (m : Regex.Match) (rest : Text) :
    type_id_call ⟨pos, m, c.tail ++ rest⟩ = some (pos, strip c.arg.text) := by
  have htail : c.tail ++ rest = c.before_arg.text ++ '<' :: (c.arg.text ++
      '>' :: (c.before_call.text ++ '(' :: rest)) := by
    simp [Check.tail]
  have harg := template_arg_eq c.before_arg c.arg.balanced (c.before_call.text ++ '(' :: rest)
  simp only [type_id_call, htail, harg, called_eq, if_true]

theorem kind_word_eq (verb : Verb) (pos len : Nat) (rest : Text) :
    kind_word ⟨pos, ⟨len, [verb.text.toList]⟩, rest⟩ = some verb := by
  cases verb <;> rfl

theorem directive_call_eq (c : Call isalnum) (pos len : Nat) (rest : Text) :
    directive_call ⟨pos, ⟨len, [c.directive.verb.text.toList]⟩, c.tail ++ rest⟩ =
      some (pos, c.directive.verb, c.directive.target.map fun target => target.last.text) := by
  have hplain (h : c.directive.target = none) : called (c.tail ++ rest) = true := by
    have htail : c.tail ++ rest = c.before_call.text ++ '(' :: rest := by
      simp [Call.tail, h]
    rw [htail, called_eq]
  have htarget (target : QualName isalnum) (h : c.directive.target = some target) :
      ∃ behind, template_arg (c.tail ++ rest) =
        some (c.left.text ++ (target.text ++ c.right.text), behind) ∧ called behind = true := by
    refine ⟨c.before_call.text ++ '(' :: rest, ?_, called_eq c.before_call rest⟩
    have htail : c.tail ++ rest = c.before_arg.text ++ '<' ::
        (c.left.text ++ (target.text ++ c.right.text) ++
          '>' :: (c.before_call.text ++ '(' :: rest)) := by
      simp [Call.tail, h]
    rw [htail]
    exact template_arg_eq c.before_arg (balanced_name c.left c.right target) _
  have hname (target : QualName isalnum) :
      lastPart (strip (c.left.text ++ (target.text ++ c.right.text))) = target.last.text := by
    rw [strip_around c.left.isspace c.right.isspace
      fun d hd => not_isspace_of_name_char (target.name_char d hd), target.lastPart]
  have hverb := kind_word_eq c.directive.verb pos len (c.tail ++ rest)
  simp only [directive_call, hverb]
  cases hd : c.directive with
  | stay =>
      have hcall := hplain (by rw [hd]; rfl)
      simp [Directive.verb, Directive.target, hcall]
  | done =>
      have hcall := hplain (by rw [hd]; rfl)
      simp [Directive.verb, Directive.target, hcall]
  | transition_to target =>
      obtain ⟨behind, harg, hcall⟩ := htarget target (by rw [hd]; rfl)
      simp [Directive.verb, Directive.target, harg, hcall, hname]
  | transition_to_now target =>
      obtain ⟨behind, harg, hcall⟩ := htarget target (by rw [hd]; rfl)
      simp [Directive.verb, Directive.target, harg, hcall, hname]

-- The events of the pieces, with their positions.
def Piece.event : Piece isalnum → Option Event
  | plain _ => none
  | check c => some (.msg (strip c.arg.text))
  | call c => some (.dir c.directive.verb (c.directive.target.map fun target => target.last.text))

def eventsAt : Nat → List (Piece isalnum) → List (Nat × Event)
  | _, [] => []
  | pos, p :: ps => (p.event.map fun e => (pos, e)).toList ++ eventsAt (pos + p.text.length) ps

def Piece.Ok : Piece isalnum → Prop
  | plain text => Plain isalnum text
  | check _ => True
  | call _ => True

def msg_at : Nat × Event → Option (Nat × Text)
  | (pos, .msg type_text) => some (pos, type_text)
  | (_, .dir _ _) => none

def dir_at : Nat × Event → Option (Nat × Verb × Option Text)
  | (_, .msg _) => none
  | (pos, .dir verb target) => some (pos, verb, target)

-- What one word with its arguments gives, before any text.
section Words

variable (isalnum) in
theorem no_prev : Regex.isWord (isword isalnum) none = false := rfl

variable {w tail : Text} (hne : w ≠ []) (hw : ∀ c ∈ w, isword isalnum c = true)
  (htail : Plain isalnum tail)
  (hhead : ∀ rest, Regex.isWord (isword isalnum) (tail ++ rest).head? = false)

include hne hw htail hhead

theorem word_type_ids (pos : Nat) (rest : Text) :
    ((_TYPE_ID_RE isalnum).spansAt pos none (w ++ tail ++ rest)).filterMap type_id_call =
      (if w ∈ type_id_names then (type_id_call ⟨pos, ⟨w.length, []⟩, tail ++ rest⟩).toList
        else []) ++
        ((_TYPE_ID_RE isalnum).spansAt (pos + (w ++ tail).length) none rest).filterMap
          type_id_call := by
  have hword := Regex.wholeWord_word (names_type_id isalnum) hne hw (hhead rest)
    (no_prev isalnum) pos
  have hbehind := plain_type_ids htail (no_prev isalnum) (pos + w.length) rest
  rw [type_id_re] at hbehind ⊢
  rw [List.append_assoc, hword, List.filterMap_append, hbehind, List.length_append,
    Nat.add_assoc]
  congr 1
  by_cases hmem : w ∈ type_id_names
  · rw [if_pos hmem, if_pos hmem]
    cases hcall : type_id_call ⟨pos, ⟨w.length, []⟩, tail ++ rest⟩ with
    | none => rw [List.filterMap_cons_none hcall, List.filterMap_nil, Option.toList_none]
    | some call => rw [List.filterMap_cons_some hcall, List.filterMap_nil, Option.toList_some]
  · rw [if_neg hmem, if_neg hmem, List.filterMap_nil]

theorem word_directives (pos : Nat) (rest : Text) :
    ((_DIRECTIVE_RE isalnum).spansAt pos none (w ++ tail ++ rest)).filterMap directive_call =
      (if w ∈ directive_names then (directive_call ⟨pos, ⟨w.length, [w]⟩, tail ++ rest⟩).toList
        else []) ++
        ((_DIRECTIVE_RE isalnum).spansAt (pos + (w ++ tail).length) none rest).filterMap
          directive_call := by
  have hword := Regex.wholeWord_word (names_directive isalnum) hne hw (hhead rest)
    (no_prev isalnum) pos
  have hbehind := plain_directives htail (no_prev isalnum) (pos + w.length) rest
  rw [directive_re] at hbehind ⊢
  rw [List.append_assoc, hword, List.filterMap_append, hbehind, List.length_append,
    Nat.add_assoc]
  congr 1
  by_cases hmem : w ∈ directive_names
  · rw [if_pos hmem, if_pos hmem]
    cases hcall : directive_call ⟨pos, ⟨w.length, [w]⟩, tail ++ rest⟩ with
    | none => rw [List.filterMap_cons_none hcall, List.filterMap_nil, Option.toList_none]
    | some call => rw [List.filterMap_cons_some hcall, List.filterMap_nil, Option.toList_some]
  · rw [if_neg hmem, if_neg hmem, List.filterMap_nil]

end Words

variable (isalnum) in
theorem verb_word (verb : Verb) : verb.text.toList ≠ [] ∧
    (∀ c ∈ verb.text.toList, isword isalnum c = true) ∧ verb.text.toList ∉ type_id_names ∧
      verb.text.toList ∈ directive_names := by
  have hall : (verbs.all fun verb => verb.text.toList ≠ [] &&
      (verb.text.toList.all fun c => c.isAlphanum || c = '_') &&
        verb.text.toList ∉ type_id_names && verb.text.toList ∈ directive_names) = true := by
    decide
  have hmem : verb ∈ verbs := by cases verb <;> decide
  have hverb := List.all_eq_true.mp hall verb hmem
  simp only [Bool.and_eq_true, decide_eq_true_eq] at hverb
  exact ⟨hverb.1.1.1, isword_ascii isalnum hverb.1.1.2, hverb.1.2, hverb.2⟩

variable (isalnum) in
theorem type_id_word : "type_id".toList ≠ [] ∧
    (∀ c ∈ "type_id".toList, isword isalnum c = true) ∧ "type_id".toList ∈ type_id_names ∧
      "type_id".toList ∉ directive_names :=
  ⟨by decide, isword_ascii isalnum (by decide), by decide, by decide⟩

theorem Piece.type_ids {p : Piece isalnum} (hok : p.Ok) (pos : Nat) (rest : Text) :
    ((_TYPE_ID_RE isalnum).spansAt pos none (p.text ++ rest)).filterMap type_id_call =
      ((p.event.map fun e => (pos, e)).toList.filterMap msg_at) ++
        ((_TYPE_ID_RE isalnum).spansAt (pos + p.text.length) none rest).filterMap
          type_id_call := by
  cases p with
  | plain text =>
      have hplain := plain_type_ids hok (no_prev isalnum) pos rest
      exact hplain.trans (List.nil_append _).symm
  | check c =>
      obtain ⟨hne, hw, hmem, _⟩ := type_id_word isalnum
      have hword := word_type_ids hne hw c.plain_tail c.head_tail pos rest
      rw [if_pos hmem, type_id_call_eq] at hword
      exact hword
  | call c =>
      obtain ⟨hne, hw, hnot, _⟩ := verb_word isalnum c.directive.verb
      have hword := word_type_ids hne hw c.plain_tail c.head_tail pos rest
      rw [if_neg hnot] at hword
      exact hword

theorem Piece.directives {p : Piece isalnum} (hok : p.Ok) (pos : Nat) (rest : Text) :
    ((_DIRECTIVE_RE isalnum).spansAt pos none (p.text ++ rest)).filterMap directive_call =
      ((p.event.map fun e => (pos, e)).toList.filterMap dir_at) ++
        ((_DIRECTIVE_RE isalnum).spansAt (pos + p.text.length) none rest).filterMap
          directive_call := by
  cases p with
  | plain text =>
      have hplain := plain_directives hok (no_prev isalnum) pos rest
      exact hplain.trans (List.nil_append _).symm
  | check c =>
      obtain ⟨hne, hw, _, hnot⟩ := type_id_word isalnum
      have hword := word_directives hne hw c.plain_tail c.head_tail pos rest
      rw [if_neg hnot] at hword
      exact hword
  | call c =>
      obtain ⟨hne, hw, _, hmem⟩ := verb_word isalnum c.directive.verb
      have hword := word_directives hne hw c.plain_tail c.head_tail pos rest
      rw [if_pos hmem, directive_call_eq] at hword
      exact hword

theorem type_ids_eq {pieces : List (Piece isalnum)} (hok : ∀ p ∈ pieces, p.Ok) (pos : Nat) :
    ((_TYPE_ID_RE isalnum).spansAt pos none (textOf pieces)).filterMap type_id_call =
      (eventsAt pos pieces).filterMap msg_at := by
  induction pieces generalizing pos with
  | nil => rfl
  | cons p ps ih =>
      have hrest := ih (fun p hp => hok p (List.mem_cons_of_mem _ hp)) (pos + p.text.length)
      have hfirst := (hok p List.mem_cons_self)
      have htext : textOf (p :: ps) = p.text ++ textOf ps := List.flatMap_cons
      rw [htext, eventsAt, List.filterMap_append, ← hrest, Piece.type_ids hfirst]

theorem directives_eq {pieces : List (Piece isalnum)} (hok : ∀ p ∈ pieces, p.Ok) (pos : Nat) :
    ((_DIRECTIVE_RE isalnum).spansAt pos none (textOf pieces)).filterMap directive_call =
      (eventsAt pos pieces).filterMap dir_at := by
  induction pieces generalizing pos with
  | nil => rfl
  | cons p ps ih =>
      have hrest := ih (fun p hp => hok p (List.mem_cons_of_mem _ hp)) (pos + p.text.length)
      have hfirst := (hok p List.mem_cons_self)
      have htext : textOf (p :: ps) = p.text ++ textOf ps := List.flatMap_cons
      rw [htext, eventsAt, List.filterMap_append, ← hrest, Piece.directives hfirst]

theorem event_text {p : Piece isalnum} {e : Event} (h : p.event = some e) : 0 < p.text.length := by
  cases p with
  | plain text => simp [Piece.event] at h
  | check c =>
      have hne := List.length_pos_of_ne_nil (type_id_word isalnum).1
      have htext : (Piece.check c).text.length = "type_id".toList.length + c.tail.length :=
        List.length_append
      omega
  | call c =>
      have hne := List.length_pos_of_ne_nil (verb_word isalnum c.directive.verb).1
      have htext : (Piece.call c).text.length =
          c.directive.verb.text.toList.length + c.tail.length := List.length_append
      omega

theorem le_eventsAt (pieces : List (Piece isalnum)) (pos : Nat) :
    ∀ e ∈ eventsAt pos pieces, pos ≤ e.1 := by
  induction pieces generalizing pos with
  | nil => simp [eventsAt]
  | cons p ps ih =>
      intro e he
      rw [eventsAt, List.mem_append] at he
      rcases he with he | he
      · obtain ⟨event, _, rfl⟩ := Option.map_eq_some_iff.mp (Option.mem_toList.mp he)
        exact Nat.le_refl _
      · have hle := ih _ e he
        omega

-- The events come in the order of their positions.
theorem eventsAt_sorted (pieces : List (Piece isalnum)) (pos : Nat) :
    (eventsAt pos pieces).Pairwise fun e e' => e.1 < e'.1 := by
  induction pieces generalizing pos with
  | nil => exact List.Pairwise.nil
  | cons p ps ih =>
      rw [eventsAt, List.pairwise_append]
      refine ⟨?_, ih _, fun e he e' he' => ?_⟩
      · cases p.event with
        | none => exact List.Pairwise.nil
        | some e => exact List.pairwise_singleton _ _
      · obtain ⟨event, hevent, rfl⟩ := Option.map_eq_some_iff.mp (Option.mem_toList.mp he)
        have hle := le_eventsAt ps _ e' he'
        have hpos := event_text hevent
        simp only
        omega

theorem split_events (events : List (Nat × Event)) :
    ((events.filterMap msg_at).map (fun call => (call.1, Event.msg call.2)) ++
      (events.filterMap dir_at).map fun call => (call.1, Event.dir call.2.1 call.2.2)).Perm
        events := by
  induction events with
  | nil => exact List.Perm.nil
  | cons e events ih =>
      obtain ⟨pos, event⟩ := e
      cases event with
      | msg type_text => exact List.Perm.cons _ ih
      | dir verb target => exact List.perm_middle.trans (List.Perm.cons _ ih)

-- So sorted by position they are the events of the pieces.
theorem events_of_pieces {pieces : List (Piece isalnum)} (hok : ∀ p ∈ pieces, p.Ok) :
    events_of isalnum (textOf pieces) = eventsAt 0 pieces := by
  have hmsgs : _find_type_id_calls isalnum (textOf pieces) = (eventsAt 0 pieces).filterMap msg_at :=
    type_ids_eq hok 0
  have hdirs : _find_directive_calls isalnum (textOf pieces) =
      (eventsAt 0 pieces).filterMap dir_at := directives_eq hok 0
  have hsorted := eventsAt_sorted pieces 0
  have hperm : (events_of isalnum (textOf pieces)).Perm (eventsAt 0 pieces) := by
    rw [events_of, hmsgs, hdirs]
    exact (List.perm_insertionSort _ _).trans (split_events _)
  have hle : (events_of isalnum (textOf pieces)).Pairwise fun e e' => e.1 ≤ e'.1 :=
    List.pairwise_insertionSort _ _
  refine List.Perm.eq_of_pairwise ?_ hle (hsorted.imp Nat.le_of_lt) hperm
  intro e e' he he' hle hle'
  have hmem : e ∈ eventsAt 0 pieces := hperm.subset he
  by_contra hne
  rcases Nat.lt_or_ge e.1 e'.1 with hlt | hge
  · omega
  · have hsame : e.1 = e'.1 := by omega
    have hnodup : ((eventsAt 0 pieces).map Prod.fst).Nodup :=
      List.pairwise_map.mpr (hsorted.imp Nat.ne_of_lt)
    exact hne (List.inj_on_of_nodup_map hnodup hmem he' hsame)

end Found

end Diagrams

end CortexFlow
