import CortexFlow.Diagrams.Comments
import Mathlib

namespace CortexFlow

namespace Diagrams

-- What becomes of a character: it stays, or it is blanked.
def Kept (c c' : Char) : Prop := c' = c ∨ c' = blank c

theorem kept_newline {c c' : Char} (h : Kept c c') : c' = '\n' ↔ c = '\n' := by
  rcases h with rfl | rfl
  · rfl
  · unfold blank
    split_ifs with hc
    · exact ⟨fun _ => hc, fun _ => rfl⟩
    · exact ⟨fun hspace => absurd hspace (by decide), fun hnewline => absurd hnewline hc⟩

theorem kept_or_space {c c' : Char} (h : Kept c c') : c' = c ∨ c' = ' ' := by
  rcases h with rfl | rfl
  · exact Or.inl rfl
  · unfold blank
    split_ifs with hc
    · exact Or.inl hc.symm
    · exact Or.inr rfl

theorem neutralizeFrom_kept (mode : Mode) (t : Text) :
    List.Forall₂ Kept t (neutralizeFrom mode t) := by
  have hsame (c : Char) : Kept c c := Or.inl rfl
  have hblank (c : Char) : Kept c (blank c) := Or.inr rfl
  fun_induction neutralizeFrom mode t with
  | case1 => exact .nil
  | case2 t ih => exact .cons (hsame '/') (.cons (hsame '*') ih)
  | case3 t ih => exact .cons (hsame '/') (.cons (hsame '/') ih)
  | case4 c t _ _ _ ih => exact .cons (hsame c) ih
  | case5 c t _ _ _ ih => exact .cons (hsame c) ih
  | case6 t ih => exact .cons (hsame '*') (.cons (hsame '/') ih)
  | case7 c t _ ih => exact .cons (hblank c) ih
  | case8 t ih => exact .cons (hsame '\n') ih
  | case9 c t hc ih =>
      have hspace : Kept c ' ' := Or.inr (by rw [blank, if_neg hc])
      exact .cons hspace ih
  | case10 quote t ih => exact .cons (hsame quote) ih
  | case11 quote hquote => exact .cons (hblank '\\') .nil
  | case12 quote d t hquote ih => exact .cons (hblank '\\') (.cons (hblank d) ih)
  | case13 quote c t hquote hescape ih => exact .cons (hblank c) ih

theorem neutralize_length (source : Text) : (neutralize source).length = source.length :=
  (neutralizeFrom_kept .code source).length_eq.symm

-- In code the next character is looked at before it is copied: it is the same afterwards.
theorem head?_neutralizeFrom_code (t : Text) : (neutralizeFrom .code t).head? = t.head? := by
  cases t with
  | nil => rfl
  | cons c t =>
      by_cases hopens : opens c t
      · obtain ⟨rfl, hhead | hhead⟩ := hopens
        · obtain ⟨s, rfl⟩ := List.head?_eq_some_iff.mp hhead
          rfl
        · obtain ⟨s, rfl⟩ := List.head?_eq_some_iff.mp hhead
          rfl
      · rw [neutralizeFrom_code hopens]
        rfl

@[simp] theorem blank_blank (c : Char) : blank (blank c) = blank c := by
  rcases blank_cases c with h | h
  · rw [h]
    rfl
  · rw [h]
    rfl

-- A literal is between quotes of the same kind.
def Mode.Quoted : Mode → Prop
  | .literal quote => quote = '"' ∨ quote = '\''
  | _ => True

theorem blank_ne_quote {quote : Char} (hquote : Mode.Quoted (.literal quote)) (c : Char) :
    blank c ≠ quote := by
  rcases hquote with rfl | rfl
  · rcases blank_cases c with h | h <;> simp [h]
  · rcases blank_cases c with h | h <;> simp [h]

theorem blank_ne_escape (c : Char) : blank c ≠ '\\' := by
  rcases blank_cases c with h | h <;> simp [h]

-- Over its own result `neutralize` takes the same turns.
theorem neutralizeFrom_twice {mode : Mode} (hmode : mode.Quoted) (t : Text) :
    neutralizeFrom mode (neutralizeFrom mode t) = neutralizeFrom mode t := by
  have hliteral {quote : Char} (hquote : Mode.Quoted (.literal quote)) (c : Char) (t : Text) :
      neutralizeFrom (.literal quote) (blank c :: t) =
        blank c :: neutralizeFrom (.literal quote) t := by
    rw [neutralizeFrom_literal (blank_ne_quote hquote c) (blank_ne_escape c), blank_blank]
  fun_induction neutralizeFrom mode t with
  | case1 mode =>
      cases mode <;> rfl
  | case2 t ih =>
      rw [neutralizeFrom, ih trivial]
  | case3 t ih =>
      rw [neutralizeFrom, ih trivial]
  | case4 c t _ _ hquote ih =>
      have hopens : ¬opens c (neutralizeFrom (.literal c) t) := by
        rintro ⟨rfl, _⟩
        exact absurd hquote (by decide)
      rw [neutralizeFrom_code hopens, if_pos hquote, ih hquote]
  | case5 c t hblock hline hquote ih =>
      have hopens : ¬opens c (neutralizeFrom .code t) := by
        rintro ⟨rfl, hhead⟩
        rw [head?_neutralizeFrom_code] at hhead
        rcases hhead with hhead | hhead
        · obtain ⟨s, hs⟩ := List.head?_eq_some_iff.mp hhead
          exact hblock s rfl hs
        · obtain ⟨s, hs⟩ := List.head?_eq_some_iff.mp hhead
          exact hline s rfl hs
      rw [neutralizeFrom_code hopens, if_neg hquote, ih trivial]
  | case6 t ih =>
      rw [neutralizeFrom, ih trivial]
  | case7 c t _ ih =>
      have hcloses : ¬closes (blank c) (neutralizeFrom .block t) := by
        rintro ⟨hstar, _⟩
        rcases blank_cases c with h | h
        · exact absurd (h.symm.trans hstar) (by decide)
        · exact absurd (h.symm.trans hstar) (by decide)
      rw [neutralizeFrom_block hcloses, blank_blank, ih trivial]
  | case8 t ih =>
      rw [neutralizeFrom, if_pos rfl, ih trivial]
  | case9 c t hc ih =>
      rw [neutralizeFrom, if_neg (by decide), ih trivial]
  | case10 quote t ih =>
      rw [neutralizeFrom_quote, ih trivial]
  | case11 quote hquote =>
      exact hliteral hmode '\\' []
  | case12 quote d t hquote ih =>
      have hspace := hliteral hmode '\\' (blank d :: neutralizeFrom (.literal quote) t)
      exact hspace.trans (by rw [hliteral hmode, ih hmode]; rfl)
  | case13 quote c t hquote hescape ih =>
      rw [hliteral hmode, ih hmode]

-- Whatever the text, well formed or not, `neutralize` keeps its length and its newlines,
-- puts nothing but blanks into it, and has nothing left to do.
theorem neutralize_idempotent (source : Text) :
    (neutralize source).length = source.length ∧
      (∀ i : Nat, (neutralize source)[i]? = some '\n' ↔ source[i]? = some '\n') ∧
      (∀ (i : Nat) (c : Char), (neutralize source)[i]? = some c → source[i]? = some c ∨ c = ' ') ∧
      neutralize (neutralize source) = neutralize source := by
  have hkept {i : Nat} {c c' : Char} (hc : source[i]? = some c)
      (hc' : (neutralize source)[i]? = some c') : Kept c c' := by
    obtain ⟨hi, rfl⟩ := List.getElem?_eq_some_iff.mp hc
    obtain ⟨hi', rfl⟩ := List.getElem?_eq_some_iff.mp hc'
    exact (neutralizeFrom_kept .code source).get hi hi'
  have hlength := neutralize_length source
  have hsource {i : Nat} {c' : Char} (hc' : (neutralize source)[i]? = some c') :
      ∃ c, source[i]? = some c := by
    have hi := (List.getElem?_eq_some_iff.mp hc').1
    rw [hlength] at hi
    exact ⟨source[i], List.getElem?_eq_getElem hi⟩
  have hresult {i : Nat} {c : Char} (hc : source[i]? = some c) :
      ∃ c', (neutralize source)[i]? = some c' := by
    have hi := (List.getElem?_eq_some_iff.mp hc).1
    rw [← hlength] at hi
    exact ⟨(neutralize source)[i], List.getElem?_eq_getElem hi⟩
  have hcode : Mode.code.Quoted := trivial
  refine ⟨hlength, fun i => ⟨fun h => ?_, fun h => ?_⟩, fun i c' h => ?_,
    neutralizeFrom_twice hcode source⟩
  · obtain ⟨c, hc⟩ := hsource h
    rw [hc, (kept_newline (hkept hc h)).mp rfl]
  · obtain ⟨c', hc'⟩ := hresult h
    rw [hc', (kept_newline (hkept h hc')).mpr rfl]
  · obtain ⟨c, hc⟩ := hsource h
    rcases kept_or_space (hkept hc h) with rfl | rfl
    · exact Or.inl hc
    · exact Or.inr rfl

end Diagrams

end CortexFlow
