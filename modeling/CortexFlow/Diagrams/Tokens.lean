import CortexFlow.Diagrams.Comments
import CortexFlow.Lib.Cpp
import Mathlib

namespace CortexFlow

namespace Diagrams

open Lib

-- The token with blanks for what is strictly inside of it, if it is a comment or a
-- literal.
def blanked (t : Cpp.Token) : Text := t.opening ++ (blanks t.content ++ t.closing)

def blankedAll (tokens : List Cpp.Token) : Text := tokens.flatMap blanked

theorem neutralize_plain {u : Text} (hu : u.all Cpp.plain = true) (rest : Text) :
    neutralize (u ++ rest) = u ++ neutralize rest := by
  induction u with
  | nil => rfl
  | cons c u ih =>
      rw [List.all_cons, Bool.and_eq_true] at hu
      have hc := hu.1
      simp only [Cpp.plain, ne_eq, Bool.and_eq_true, decide_eq_true_eq] at hc
      have hopens : ¬opens c (u ++ rest) := fun h => hc.1.1 h.1
      have hquote : ¬(c = '"' ∨ c = '\'') := by
        rintro (h | h)
        · exact hc.1.2 h
        · exact hc.2 h
      have hrest := ih hu.2
      rw [neutralize] at hrest
      rw [neutralize, List.cons_append, neutralizeFrom_code hopens, if_neg hquote, hrest]
      rfl

theorem neutralize_slash {rest : Text} (h : rest.head? ≠ some '/' ∧ rest.head? ≠ some '*') :
    neutralize ('/' :: rest) = '/' :: neutralize rest := by
  have hopens : ¬opens '/' rest := by
    rintro ⟨_, hstar | hslash⟩
    · exact h.2 hstar
    · exact h.1 hslash
  rw [neutralize, neutralizeFrom_code hopens, if_neg (by decide)]
  rfl

-- The loop over a literal comes to its closing quote.
theorem neutralizeFrom_elements {quote : Char} (elements : List (Cpp.Element quote))
    (hquote : quote ≠ '\\') (rest : Text) :
    neutralizeFrom (.literal quote) (elements.flatMap Cpp.Element.spelling ++ quote :: rest) =
      blanks (elements.flatMap Cpp.Element.spelling) ++ quote :: neutralize rest := by
  induction elements with
  | nil => exact neutralizeFrom_quote quote rest
  | cons element elements ih =>
      rw [List.flatMap_cons, List.append_assoc, blanks, List.map_append, List.append_assoc,
        ← blanks, ← blanks, ← ih]
      cases element with
      | char c h => exact neutralizeFrom_literal h.1 h.2.1 _
      | escape c h =>
          have hescape (t : Text) : neutralizeFrom (.literal quote) ('\\' :: c :: t) =
              ' ' :: blank c :: neutralizeFrom (.literal quote) t := by
            rw [neutralizeFrom, if_neg hquote.symm, if_pos rfl]
          exact hescape _

-- One token, whatever comes behind it.
theorem neutralize_token {t : Cpp.Token} {rest : Text} (hbefore : t.Before rest)
    (hseparated : t.separated = false) :
    neutralize (t.spelling ++ rest) = blanked t ++ neutralize rest := by
  have hplain {u : Text} (hu : u.all Cpp.plain = true) :
      neutralize (u ++ ([] ++ []) ++ rest) = u ++ ([] ++ []) ++ neutralize rest := by
    rw [List.append_nil, List.append_nil]
    exact neutralize_plain hu rest
  cases t with
  | layout c h =>
      have hall : ([' ', '\t', '\n', '\x0b', '\x0c', '\r'].all fun c => [c].all Cpp.plain) =
          true := by decide
      exact hplain (List.all_eq_true.mp hall c h)
  | identifier i => exact hplain (Cpp.plain_identifier i)
  | punctuator p h =>
      rcases Cpp.punctuator_cases h with rfl | rfl | hp
      · exact neutralize_slash (hbefore rfl)
      · have hequals : ('=' :: rest).head? ≠ some '/' ∧ ('=' :: rest).head? ≠ some '*' := by simp
        exact (neutralize_slash hequals).trans
          (congrArg ('/' :: ·) (neutralize_plain (u := ['=']) rfl rest))
      · exact hplain hp
  | number n =>
      refine hplain (Cpp.plain_head n fun part hpart => ?_)
      by_contra hnot
      have hany := List.any_eq_true.mpr ⟨part, hpart, by simpa using hnot⟩
      rw [Cpp.Token.separated, hany] at hseparated
      cases hseparated
  | literal quote elements hquote hchar =>
      have hescape : quote ≠ '\\' := by
        rintro rfl
        simp at hquote
      have hopens (t : Text) : ¬opens quote t := by
        rintro ⟨rfl, _⟩
        simp at hquote
      have hspelling : (Cpp.Token.literal quote elements hquote hchar).spelling ++ rest =
          quote :: (elements.flatMap Cpp.Element.spelling ++ quote :: rest) := by
        simp [Cpp.Token.spelling, Cpp.Token.opening, Cpp.Token.content, Cpp.Token.closing]
      rw [hspelling, neutralize, neutralizeFrom_code (hopens _), if_pos hquote,
        neutralizeFrom_elements elements hescape]
      simp [blanked, Cpp.Token.opening, Cpp.Token.content, Cpp.Token.closing]
  | line_comment content h hsplice =>
      have hline := neutralize_line h hbefore
      simpa [blanked, Cpp.Token.spelling, Cpp.Token.opening, Cpp.Token.content,
        Cpp.Token.closing] using hline
  | block_comment content h =>
      have hblock := neutralize_block h rest
      simpa [blanked, Cpp.Token.spelling, Cpp.Token.opening, Cpp.Token.content,
        Cpp.Token.closing] using hblock

-- The first digit separator of a number is taken for an opening quote, and what it
-- separates is blanked.
theorem neutralize_separated {t : Cpp.Token} (h : t.separated = true) (rest : Text)
    (rest' : Text) : neutralize (t.spelling ++ rest) ≠ blanked t ++ rest' := by
  cases t with
  | number n =>
      have hspelling (rest : Text) :
          (Cpp.Token.number n).spelling ++ rest = n.spelling ++ rest := by
        simp [Cpp.Token.spelling, Cpp.Token.opening, Cpp.Token.content, Cpp.Token.closing]
      have hblanked : blanked (.number n) = n.spelling := by
        simp [blanked, blanks, Cpp.Token.opening, Cpp.Token.content, Cpp.Token.closing]
      obtain ⟨part, hpart⟩ := Option.isSome_iff_exists.mp (List.find?_isSome.mpr
        (List.any_eq_true.mp h))
      obtain ⟨hfound, before, behind, hparts, hbefore⟩ := List.find?_eq_some_iff_append.mp hpart
      cases part with
      | separator c hc =>
          have hsplit (rest : Text) : n.spelling ++ rest =
              ((if n.dot then ['.'] else []) ++
                n.first :: before.flatMap Cpp.NumberPart.spelling) ++
                  '\'' :: c :: (behind.flatMap Cpp.NumberPart.spelling ++ rest) := by
            simp [Cpp.Number.spelling, hparts, Cpp.NumberPart.spelling]
          have hplain := Cpp.plain_head n fun part hpart => by simpa using hbefore part hpart
          have hquote : c ≠ '\'' := by
            rintro rfl
            exact absurd hc (by decide)
          have hescape : c ≠ '\\' := by
            rintro rfl
            exact absurd hc (by decide)
          have hblank : blank c ≠ c := by
            intro hsame
            rcases blank_cases c with hnewline | hspace
            · rw [hnewline] at hsame
              exact absurd (hsame ▸ hc) (by decide)
            · rw [hspace] at hsame
              exact absurd (hsame ▸ hc) (by decide)
          rw [hspelling, hblanked, hsplit, hsplit, neutralize_plain hplain, neutralize,
            neutralizeFrom_code (by simp [opens]), if_pos (Or.inr rfl),
            neutralizeFrom_literal hquote hescape]
          intro hsame
          have hcons := List.append_cancel_left hsame
          simp only [List.cons.injEq] at hcons
          exact hblank hcons.2.1
      | char c hc => cases hfound
      | exponent e sign he hsign => cases hfound
      | dot => cases hfound
  | layout c hc => cases h
  | identifier i => cases h
  | punctuator p hp => cases h
  | literal quote elements hquote hchar => cases h
  | line_comment content hcontent hsplice => cases h
  | block_comment content hcontent => cases h

-- Over the tokens of a C++ text `neutralize` blanks what is inside of comments and
-- literals, and nothing else, exactly if no numeric literal has a digit separator.
theorem neutralize_agrees_iff {tokens : List Cpp.Token} (h : Cpp.Apart tokens) :
    neutralize (Cpp.render tokens) = blankedAll tokens ↔
      ∀ t ∈ tokens, t.separated = false := by
  induction tokens with
  | nil => simp [Cpp.render, blankedAll]
  | cons t ts ih =>
      have hrender : Cpp.render (t :: ts) = t.spelling ++ Cpp.render ts := List.flatMap_cons
      have hblanked : blankedAll (t :: ts) = blanked t ++ blankedAll ts := List.flatMap_cons
      rw [hrender, hblanked, List.forall_mem_cons]
      by_cases hseparated : t.separated = true
      · refine ⟨fun hsame => absurd hsame (neutralize_separated hseparated _ _), fun hall => ?_⟩
        rw [hall.1] at hseparated
        cases hseparated
      · have hplain := Bool.eq_false_iff.mpr hseparated
        rw [neutralize_token h.1 hplain, List.append_cancel_left_eq, ih h.2]
        exact ⟨fun hall => ⟨hplain, hall⟩, fun hall => hall.2⟩

-- A quote in a comment, the opening of a comment in a literal, an escaped quote, and a
-- division before a number.
def quoted_tokens : List Cpp.Token :=
  [.block_comment "it's".toList (by decide), .identifier ⟨'x', [], by decide, by decide⟩,
    .punctuator "/" (by decide), .number ⟨false, '2', [.dot], by decide⟩,
    .literal '"' [.char '/' (by decide), .char '*' (by decide), .escape '"' (by decide)]
      (by decide) (by decide),
    .punctuator "\x7b" (by decide)]

theorem neutralize_agrees_quoted :
    neutralize (Cpp.render quoted_tokens) = blankedAll quoted_tokens := by
  have hapart : Cpp.Apart quoted_tokens := by
    refine ⟨trivial, trivial, fun _ => ?_, trivial, trivial, fun h => ?_, trivial⟩
    · exact ⟨by decide, by decide⟩
    · exact absurd h (by decide)
  exact (neutralize_agrees_iff hapart).mpr (by decide)

-- The digits of `1'000'000` are blanked.
def million : Cpp.Token :=
  .number ⟨false, '1', [.separator '0' (by decide), .char '0' (by decide), .char '0' (by decide),
    .separator '0' (by decide), .char '0' (by decide), .char '0' (by decide)], by decide⟩

theorem separator_not_code :
    ¬∀ tokens : List Cpp.Token, Cpp.Apart tokens →
      neutralize (Cpp.render tokens) = blankedAll tokens := by
  intro h
  have hsame := h [million] ⟨trivial, trivial⟩
  exact absurd hsame (by decide)

end Diagrams

end CortexFlow
