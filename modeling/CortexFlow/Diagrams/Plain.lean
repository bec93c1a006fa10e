import CortexFlow.Diagrams.FlowEdges
import CortexFlow.Diagrams.Names
import Mathlib

namespace CortexFlow

namespace Diagrams

open Lib

section Closing

theorem find_closing_append {opening closing : Char} {depth : Nat} {t : Text} {n : Nat}
    (h : find_closing opening closing depth t = some n) (rest : Text) :
    find_closing opening closing depth (t ++ rest) = some n := by
  induction t generalizing depth n with
  | nil => cases h
  | cons c t ih =>
      simp only [List.cons_append, find_closing] at h ⊢
      split_ifs at h ⊢ with hopening hclosing hdepth
      · obtain ⟨k, hk, rfl⟩ := Option.map_eq_some_iff.mp h
        rw [ih hk]
        rfl
      · exact h
      · obtain ⟨k, hk, rfl⟩ := Option.map_eq_some_iff.mp h
        rw [ih hk]
        rfl
      · obtain ⟨k, hk, rfl⟩ := Option.map_eq_some_iff.mp h
        rw [ih hk]
        rfl

theorem find_closing_skip {opening closing : Char} {u : Text}
    (hu : ∀ c ∈ u, c ≠ opening ∧ c ≠ closing) (depth : Nat) (t : Text) :
    find_closing opening closing depth (u ++ t) =
      (find_closing opening closing depth t).map (· + u.length) := by
  induction u with
  | nil => simp
  | cons c u ih =>
      obtain ⟨hopening, hclosing⟩ := hu c List.mem_cons_self
      rw [List.cons_append, find_closing, if_neg hopening, if_neg hclosing,
        ih fun c hc => hu c (List.mem_cons_of_mem _ hc), Option.map_map]
      rfl

end Closing

variable (isalnum : Char → Bool)

-- What has to come behind the word for a call of it.
def Verb.opener : Verb → Char
  | transition_to_now => '<'
  | transition_to => '<'
  | done => '('
  | stay => '('

def not_opened (opener : Char) (m : Regex.Span) : Bool := (lstrip m.rest).head?.any (· ≠ opener)

def not_called (m : Regex.Span) : Bool := (kind_word m).all fun verb => not_opened verb.opener m

-- Text in which no `type_id<...>(...)` and no directive is called: where one of the words
-- stands in it, what comes next there is something else.
structure Plain (u : Text) : Prop where
  closed : Regex.Closed (isword isalnum) u
  type_ids : ((_TYPE_ID_RE isalnum).spans u).all (not_opened '<') = true
  directives : ((_DIRECTIVE_RE isalnum).spans u).all not_called = true

section Names

def type_id_names : List Text := ["type_id".toList]

def directive_names : List Text := (verbs.map Verb.text).map String.toList

theorem names_type_id :
    Regex.Names (isword isalnum) (.lit "type_id") type_id_names fun _ => [] :=
  Regex.names_lit "type_id" ⟨by decide, isword_ascii isalnum (by decide)⟩

theorem names_directive :
    Regex.Names (isword isalnum) (.group (.alts ((verbs.map Verb.text).map .lit)))
      directive_names fun k => [k] := by
  refine Regex.names_alts (by decide) fun k hk => ?_
  have hall : (directive_names.all fun k => k ≠ [] && k.all fun c => c.isAlphanum || c = '_') =
      true := by decide
  have hk := List.all_eq_true.mp hall k hk
  rw [Bool.and_eq_true, decide_eq_true_eq] at hk
  exact ⟨hk.1, isword_ascii isalnum hk.2⟩

theorem type_id_re : _TYPE_ID_RE isalnum = Regex.wholeWord (isword isalnum) (.lit "type_id") := rfl

theorem directive_re : _DIRECTIVE_RE isalnum =
    Regex.wholeWord (isword isalnum) (.group (.alts ((verbs.map Verb.text).map .lit))) := rfl

end Names

section Plain

variable {isalnum}

theorem not_opened_extend {opener : Char} {m : Regex.Span} (h : not_opened opener m = true)
    (rest : Text) : not_opened opener (m.extend rest) = true := by
  rw [not_opened, Option.any_eq_true] at h ⊢
  obtain ⟨c, hc, hne⟩ := h
  obtain ⟨t, ht⟩ := List.head?_eq_some_iff.mp hc
  refine ⟨c, ?_, hne⟩
  rw [Regex.Span.extend, lstrip_append, ht, if_neg (List.cons_ne_nil c t)]
  rfl

theorem not_called_extend {m : Regex.Span} (h : not_called m = true) (rest : Text) :
    not_called (m.extend rest) = true := by
  rw [not_called, Option.all_eq_true] at h ⊢
  exact fun verb hverb => not_opened_extend (h verb hverb) rest

theorem template_arg_none {m : Regex.Span} (h : not_opened '<' m = true) :
    template_arg m.rest = none := by
  rw [not_opened, Option.any_eq_true] at h
  obtain ⟨c, hc, hne⟩ := h
  obtain ⟨t, ht⟩ := List.head?_eq_some_iff.mp hc
  have hangle : c ≠ '<' := by simpa using hne
  rw [template_arg, ht]
  split
  · rename_i heq
    exact absurd (List.cons.inj heq).1 hangle
  · rfl

theorem type_id_call_none {m : Regex.Span} (h : not_opened '<' m = true) :
    type_id_call m = none := by
  rw [type_id_call, template_arg_none h]

theorem directive_call_none {m : Regex.Span} (h : not_called m = true) :
    directive_call m = none := by
  rw [not_called] at h
  unfold directive_call
  cases hverb : kind_word m with
  | none => rfl
  | some verb =>
      rw [hverb, Option.all_some] at h
      have hparen (hopened : not_opened '(' m = true) : called m.rest = false := by
        rw [not_opened, Option.any_eq_true] at hopened
        obtain ⟨c, hc, hne⟩ := hopened
        rw [called, hc]
        simpa using hne
      cases verb with
      | transition_to_now => simp only [template_arg_none h, or_true, if_true]
      | transition_to => simp only [template_arg_none h, true_or, if_true]
      | done => simp [hparen h]
      | stay => simp [hparen h]

-- Plain text gives no calls, wherever it stands.
theorem plain_type_ids {u : Text} (h : Plain isalnum u) {prev : Option Char}
    (hprev : Regex.isWord (isword isalnum) prev = false) (pos : Nat) (rest : Text) :
    ((_TYPE_ID_RE isalnum).spansAt pos prev (u ++ rest)).filterMap type_id_call =
      ((_TYPE_ID_RE isalnum).spansAt (pos + u.length) none rest).filterMap type_id_call := by
  have hcalls := h.type_ids
  rw [type_id_re] at hcalls ⊢
  rw [Regex.wholeWord_between (names_type_id isalnum) h.closed hprev, List.filterMap_append,
    List.filterMap_map, List.filterMap_eq_nil_iff.mpr, List.nil_append]
  intro m hm
  exact type_id_call_none
    (not_opened_extend (m := m.shift pos) (List.all_eq_true.mp hcalls m hm) rest)

theorem plain_directives {u : Text} (h : Plain isalnum u) {prev : Option Char}
    (hprev : Regex.isWord (isword isalnum) prev = false) (pos : Nat) (rest : Text) :
    ((_DIRECTIVE_RE isalnum).spansAt pos prev (u ++ rest)).filterMap directive_call =
      ((_DIRECTIVE_RE isalnum).spansAt (pos + u.length) none rest).filterMap directive_call := by
  have hcalls := h.directives
  rw [directive_re] at hcalls ⊢
  rw [Regex.wholeWord_between (names_directive isalnum) h.closed hprev, List.filterMap_append,
    List.filterMap_map, List.filterMap_eq_nil_iff.mpr, List.nil_append]
  intro m hm
  exact directive_call_none
    (not_called_extend (m := m.shift pos) (List.all_eq_true.mp hcalls m hm) rest)

-- How plain text is put together.
theorem plain_nil : Plain isalnum [] := ⟨fun _ hc => absurd hc (by simp), rfl, rfl⟩

theorem plain_append {u v : Text} (hu : Plain isalnum u) (hv : Plain isalnum v) :
    Plain isalnum (u ++ v) := by
  have hprev : Regex.isWord (isword isalnum) none = false := rfl
  refine ⟨Regex.closed_append hu.closed hv.closed, ?_, ?_⟩
  · have hsplit := Regex.wholeWord_between (names_type_id isalnum) hu.closed hprev 0 v
    have hshift := Regex.spansAt_shift (r := _TYPE_ID_RE isalnum) 0 u.length none v
    have hall : (_TYPE_ID_RE isalnum).spans (u ++ v) = _ := hsplit
    rw [type_id_re] at hshift
    rw [hall, hshift, List.all_append, List.all_map, List.all_map, Bool.and_eq_true,
      List.all_eq_true, List.all_eq_true]
    refine ⟨fun m hm => ?_, List.all_eq_true.mp hv.type_ids⟩
    exact not_opened_extend (m := m.shift 0) (List.all_eq_true.mp hu.type_ids m hm) v
  · have hsplit := Regex.wholeWord_between (names_directive isalnum) hu.closed hprev 0 v
    have hshift := Regex.spansAt_shift (r := _DIRECTIVE_RE isalnum) 0 u.length none v
    have hall : (_DIRECTIVE_RE isalnum).spans (u ++ v) = _ := hsplit
    rw [directive_re] at hshift
    rw [hall, hshift, List.all_append, List.all_map, List.all_map, Bool.and_eq_true,
      List.all_eq_true, List.all_eq_true]
    refine ⟨fun m hm => ?_, List.all_eq_true.mp hv.directives⟩
    exact not_called_extend (m := m.shift 0) (List.all_eq_true.mp hu.directives m hm) v

theorem plain_char {c : Char} (hc : isword isalnum c = false) : Plain isalnum [c] := by
  refine ⟨fun d hd => ?_, ?_, ?_⟩
  · cases hd
    exact hc
  · have hskip := Regex.wholeWord_plain (names_type_id isalnum) hc 0 none []
    have hnil : (_TYPE_ID_RE isalnum).spans [c] = [] := hskip
    rw [hnil]
    rfl
  · have hskip := Regex.wholeWord_plain (names_directive isalnum) hc 0 none []
    have hnil : (_DIRECTIVE_RE isalnum).spans [c] = [] := hskip
    rw [hnil]
    rfl

theorem plain_chars {u : Text} (hu : ∀ c ∈ u, isword isalnum c = false) : Plain isalnum u := by
  induction u with
  | nil => exact plain_nil
  | cons c u ih =>
      exact plain_append (u := [c]) (plain_char (hu c List.mem_cons_self))
        (ih fun d hd => hu d (List.mem_cons_of_mem _ hd))

theorem plain_spaces (s : Spaces) : Plain isalnum s.text :=
  plain_chars fun c hc => not_isword_of_isspace isalnum (s.isspace c hc)

-- A word, with what comes behind it: it is none of the names, or it is not called.
theorem plain_word {w v : Text} (hne : w ≠ []) (hw : ∀ c ∈ w, isword isalnum c = true)
    (hv : Plain isalnum v) (hv' : v ≠ []) (hhead : Regex.isWord (isword isalnum) v.head? = false)
    (hnext : w ∉ type_id_names ∧ w ∉ directive_names ∨
      ∃ c, (lstrip v).head? = some c ∧ c ≠ '<' ∧ c ≠ '(') : Plain isalnum (w ++ v) := by
  have hprev : Regex.isWord (isword isalnum) none = false := rfl
  have hclosed : Regex.Closed (isword isalnum) (w ++ v) := by
    intro c hc
    rw [List.getLast?_append_of_ne_nil _ hv'] at hc
    exact hv.closed c hc
  have hopener {m : Regex.Span} (hm : m.rest = v) (opener : Char)
      (hc : opener = '<' ∨ opener = '(')
      (hnext : ∃ c, (lstrip v).head? = some c ∧ c ≠ '<' ∧ c ≠ '(') :
      not_opened opener m = true := by
    obtain ⟨c, hsome, hangle, hparen⟩ := hnext
    rw [not_opened, hm, hsome]
    rcases hc with rfl | rfl
    · simpa using hangle
    · simpa using hparen
  refine ⟨hclosed, ?_, ?_⟩
  · have hsplit := Regex.wholeWord_word (names_type_id isalnum) hne hw hhead hprev 0
    have hshift := Regex.spansAt_shift (r := _TYPE_ID_RE isalnum) 0 w.length none v
    have hall : (_TYPE_ID_RE isalnum).spans (w ++ v) = _ := hsplit
    rw [type_id_re] at hshift
    rw [hall, hshift, List.all_append, List.all_map, Bool.and_eq_true]
    refine ⟨?_, hv.type_ids⟩
    split_ifs with hmem
    · rcases hnext with hnot | hnext
      · exact absurd hmem hnot.1
      · simpa using hopener rfl '<' (Or.inl rfl) hnext
    · rfl
  · have hsplit := Regex.wholeWord_word (names_directive isalnum) hne hw hhead hprev 0
    have hshift := Regex.spansAt_shift (r := _DIRECTIVE_RE isalnum) 0 w.length none v
    have hall : (_DIRECTIVE_RE isalnum).spans (w ++ v) = _ := hsplit
    rw [directive_re] at hshift
    rw [hall, hshift, List.all_append, List.all_map, Bool.and_eq_true]
    refine ⟨?_, hv.directives⟩
    split_ifs with hmem
    · rcases hnext with hnot | hnext
      · exact absurd hmem hnot.2
      · rw [List.all_cons, List.all_nil, Bool.and_true, not_called, Option.all_eq_true]
        intro verb _
        refine hopener rfl verb.opener ?_ hnext
        cases verb with
        | transition_to_now => exact Or.inl rfl
        | transition_to => exact Or.inl rfl
        | done => exact Or.inr rfl
        | stay => exact Or.inr rfl
    · rfl

end Plain

end Diagrams

end CortexFlow
