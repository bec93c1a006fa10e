import CortexFlow.Diagrams.BraceScope
import Mathlib

namespace CortexFlow

namespace Diagrams

-- Whether a comment may begin behind the text: `neutralize` comes out of it in code,
-- and not behind the first half of a `/*` or `//`.
def in_code : Mode → Text → Bool
  | .code, [] => true
  | _, [] => false
  | .code, ['/'] => false
  | .code, '/' :: '*' :: t => in_code .block t
  | .code, '/' :: '/' :: t => in_code .line t
  | .code, c :: t =>
      if c = '"' ∨ c = '\'' then in_code (.literal c) t else in_code .code t
  | .block, '*' :: '/' :: t => in_code .code t
  | .block, _ :: t => in_code .block t
  | .line, c :: t => if c = '\n' then in_code .code t else in_code .line t
  | .literal quote, c :: t =>
      if c = quote then in_code .code t
      else if c = '\\' then
        match t with
        | [] => false
        | _ :: t => in_code (.literal quote) t
      else in_code (.literal quote) t

-- The comments that may stand before the text `post`: to the end of the line, to the
-- first `*/`, or to the end of the text.
inductive Comment (post : Text) : Text → Prop
  | line {content : Text} (hcontent : '\n' ∉ content)
      (hpost : post = [] ∨ post.head? = some '\n') : Comment post ('/' :: '/' :: content)
  | block {content : Text} (hcontent : ¬['*', '/'] <:+: content) :
      Comment post ('/' :: '*' :: (content ++ ['*', '/']))
  | unclosed {content : Text} (hcontent : ¬['*', '/'] <:+: content) (hpost : post = []) :
      Comment post ('/' :: '*' :: content)

-- The comment replaced by as many blanks, with the newlines kept.
def blanks (comment : Text) : Text := comment.map blank

-- The same up to blanks: what is left of a comment's delimiters is a blank.
def Blanked (c c' : Char) : Prop := c = c' ∨ c' = ' ' ∧ (c = '/' ∨ c = '*')

theorem blanked_refl (c : Char) : Blanked c c := Or.inl rfl

theorem blank_cases (c : Char) : blank c = '\n' ∨ blank c = ' ' := by
  unfold blank
  split_ifs
  · exact Or.inl rfl
  · exact Or.inr rfl

theorem isspace_blank (c : Char) : isspace (blank c) = true := by
  cases blank_cases c with
  | inl h =>
      rw [h]
      decide
  | inr h =>
      rw [h]
      decide

theorem isspace_blanks {comment : Text} : ∀ c ∈ blanks comment, isspace c = true := by
  intro c hc
  obtain ⟨d, _, rfl⟩ := List.mem_map.mp hc
  exact isspace_blank d

section Neutralize

-- The next two characters open a comment, or close one.
def opens (c : Char) (t : Text) : Prop := c = '/' ∧ (t.head? = some '*' ∨ t.head? = some '/')

def closes (c : Char) (t : Text) : Prop := c = '*' ∧ t.head? = some '/'

theorem neutralizeFrom_code {c : Char} {t : Text} (h : ¬opens c t) :
    neutralizeFrom .code (c :: t) =
      c :: neutralizeFrom (if c = '"' ∨ c = '\'' then .literal c else .code) t := by
  rw [neutralizeFrom]
  · split_ifs <;> rfl
  · rintro s rfl rfl
    exact h ⟨rfl, Or.inl rfl⟩
  · rintro s rfl rfl
    exact h ⟨rfl, Or.inr rfl⟩

theorem neutralizeFrom_block {c : Char} {t : Text} (h : ¬closes c t) :
    neutralizeFrom .block (c :: t) = blank c :: neutralizeFrom .block t := by
  rw [neutralizeFrom]
  rintro s rfl rfl
  exact h ⟨rfl, rfl⟩

theorem neutralizeFrom_quote (quote : Char) (t : Text) :
    neutralizeFrom (.literal quote) (quote :: t) = quote :: neutralizeFrom .code t := by
  rw [neutralizeFrom.eq_def]
  simp only [if_true]

theorem neutralizeFrom_literal {quote c : Char} (hquote : c ≠ quote) (hescape : c ≠ '\\')
    (t : Text) :
    neutralizeFrom (.literal quote) (c :: t) = blank c :: neutralizeFrom (.literal quote) t := by
  rw [neutralizeFrom.eq_def]
  simp only [if_neg hquote, if_neg hescape]

theorem head?_append_of_ne_nil {t : Text} (ht : t ≠ []) (rest : Text) :
    (t ++ rest).head? = t.head? := by
  cases t with
  | nil => exact absurd rfl ht
  | cons c t => rfl

theorem neutralizeFrom_append {mode : Mode} {pre : Text} (h : in_code mode pre = true)
    (rest : Text) :
    neutralizeFrom mode (pre ++ rest) = neutralizeFrom mode pre ++ neutralizeFrom .code rest := by
  fun_induction in_code mode pre with
  | case1 => rfl
  | case2 => exact nomatch h
  | case3 => exact nomatch h
  | case4 t ih => exact congrArg (fun s => '/' :: '*' :: s) (ih h)
  | case5 t ih => exact congrArg (fun s => '/' :: '/' :: s) (ih h)
  | case6 c t _ _ _ hquote ih =>
      have hopens (s : Text) : ¬opens c s := by
        rintro ⟨rfl, _⟩
        exact absurd hquote (by decide)
      rw [List.cons_append, neutralizeFrom_code (hopens _), neutralizeFrom_code (hopens _),
        if_pos hquote, ih h, List.cons_append]
  | case7 c t hlast hblock hline hquote ih =>
      have hopens : ¬opens c t := by
        rintro ⟨rfl, hhead | hhead⟩
        · obtain ⟨s, hs⟩ := List.head?_eq_some_iff.mp hhead
          exact hblock s rfl hs
        · obtain ⟨s, hs⟩ := List.head?_eq_some_iff.mp hhead
          exact hline s rfl hs
      have hopens' : ¬opens c (t ++ rest) := by
        rintro ⟨hc, hhead⟩
        rw [head?_append_of_ne_nil (hlast hc)] at hhead
        exact hopens ⟨hc, hhead⟩
      rw [List.cons_append, neutralizeFrom_code hopens, neutralizeFrom_code hopens',
        if_neg hquote, ih h, List.cons_append]
  | case8 t ih => exact congrArg (fun s => '*' :: '/' :: s) (ih h)
  | case9 c t hclose ih =>
      have ht : t ≠ [] := by
        rintro rfl
        exact nomatch h
      have hcloses : ¬closes c t := by
        rintro ⟨rfl, hhead⟩
        obtain ⟨s, hs⟩ := List.head?_eq_some_iff.mp hhead
        exact hclose s rfl hs
      have hcloses' : ¬closes c (t ++ rest) := by
        rintro ⟨hc, hhead⟩
        rw [head?_append_of_ne_nil ht] at hhead
        exact hcloses ⟨hc, hhead⟩
      rw [List.cons_append, neutralizeFrom_block hcloses, neutralizeFrom_block hcloses', ih h,
        List.cons_append]
  | case10 t ih => exact congrArg (fun s => '\n' :: s) (ih h)
  | case11 c t hc ih =>
      simp only [List.cons_append, neutralizeFrom, if_neg hc, ih h]
  | case12 c t ih =>
      rw [List.cons_append, neutralizeFrom_quote, neutralizeFrom_quote, ih h, List.cons_append]
  | case13 => exact nomatch h
  | case14 quote d t hquote ih =>
      simp only [List.cons_append, neutralizeFrom, if_neg hquote, if_true, ih h]
  | case15 quote c t hquote hescape ih =>
      rw [List.cons_append, neutralizeFrom_literal hquote hescape,
        neutralizeFrom_literal hquote hescape, ih h, List.cons_append]

theorem neutralize_append {pre : Text} (h : in_code .code pre = true) (rest : Text) :
    neutralize (pre ++ rest) = neutralize pre ++ neutralize rest :=
  neutralizeFrom_append h rest

theorem neutralizeFrom_line {content post : Text} (hcontent : '\n' ∉ content)
    (hpost : post = [] ∨ post.head? = some '\n') :
    neutralizeFrom .line (content ++ post) = blanks content ++ neutralize post := by
  induction content with
  | nil =>
      cases hpost with
      | inl hpost =>
          subst hpost
          rfl
      | inr hpost =>
          obtain ⟨rest, rfl⟩ := List.head?_eq_some_iff.mp hpost
          rfl
  | cons c content ih =>
      have hc : c ≠ '\n' := (List.ne_of_not_mem_cons hcontent).symm
      simp only [List.cons_append, neutralizeFrom, if_neg hc,
        ih (List.not_mem_of_not_mem_cons hcontent)]
      rw [blanks, blanks, List.map_cons, blank, if_neg hc, List.cons_append]

-- What the loop over a block comment does with text that has no `*/`, and does not
-- become one with what follows.
theorem neutralizeFrom_content {content rest : Text} (hcontent : ¬['*', '/'] <:+: content)
    (hrest : rest.head? ≠ some '/') :
    neutralizeFrom .block (content ++ rest) = blanks content ++ neutralizeFrom .block rest := by
  induction content with
  | nil => rfl
  | cons c content ih =>
      have hcloses : ¬closes c (content ++ rest) := by
        rintro ⟨rfl, hhead⟩
        cases content with
        | nil => exact hrest hhead
        | cons d content =>
            cases hhead
            exact hcontent (List.prefix_append ['*', '/'] content).isInfix
      rw [List.cons_append, neutralizeFrom_block hcloses, ih fun h => hcontent (List.infix_cons h)]
      rfl

@[simp] theorem neutralize_nil : neutralize [] = [] := rfl

-- What `neutralize` leaves of a comment.
theorem neutralize_line {content post : Text} (hcontent : '\n' ∉ content)
    (hpost : post = [] ∨ post.head? = some '\n') :
    neutralize ('/' :: '/' :: (content ++ post)) =
      '/' :: '/' :: (blanks content ++ neutralize post) := by
  rw [neutralize, neutralizeFrom, neutralizeFrom_line hcontent hpost]

theorem neutralize_block {content : Text} (hcontent : ¬['*', '/'] <:+: content) (post : Text) :
    neutralize ('/' :: '*' :: (content ++ '*' :: '/' :: post)) =
      '/' :: '*' :: (blanks content ++ '*' :: '/' :: neutralize post) := by
  have hclose : ('*' :: '/' :: post).head? ≠ some '/' := fun h => absurd h (by simp)
  rw [neutralize, neutralizeFrom, neutralizeFrom_content hcontent hclose]
  rfl

theorem neutralize_unclosed {content : Text} (hcontent : ¬['*', '/'] <:+: content) :
    neutralize ('/' :: '*' :: content) = '/' :: '*' :: blanks content := by
  have h := neutralizeFrom_content hcontent (show [].head? ≠ some '/' from nofun)
  rw [List.append_nil, neutralizeFrom, List.append_nil] at h
  rw [neutralize, neutralizeFrom, h]

theorem neutralize_comment {post comment : Text} (h : Comment post comment) :
    neutralize (comment ++ post) = neutralize comment ++ neutralize post := by
  cases h with
  | line hcontent hpost =>
      have hself := neutralize_line hcontent (Or.inl rfl)
      rw [List.append_nil, neutralize_nil, List.append_nil] at hself
      rw [List.cons_append, List.cons_append, neutralize_line hcontent hpost, hself]
      rfl
  | block hcontent =>
      rw [List.cons_append, List.cons_append, List.append_assoc]
      exact (neutralize_block hcontent post).trans
        (by simp [neutralize_block hcontent])
  | unclosed hcontent hpost => rw [hpost, List.append_nil, neutralize_nil, List.append_nil]

theorem comment_blanked {post comment : Text} (h : Comment post comment) :
    List.Forall₂ Blanked (neutralize comment) (blanks comment) := by
  have hslash : Blanked '/' (blank '/') := Or.inr ⟨rfl, Or.inl rfl⟩
  have hstar : Blanked '*' (blank '*') := Or.inr ⟨rfl, Or.inr rfl⟩
  have hsame (content : Text) : List.Forall₂ Blanked (blanks content) (blanks content) :=
    List.forall₂_same.mpr fun c _ => blanked_refl c
  cases h with
  | @line content hcontent _ =>
      have hself := neutralize_line hcontent (Or.inl rfl)
      rw [List.append_nil, neutralize_nil, List.append_nil] at hself
      rw [hself]
      exact .cons hslash (.cons hslash (hsame content))
  | @block content hcontent =>
      rw [neutralize_block hcontent []]
      refine .cons hslash (.cons hstar ?_)
      rw [List.map_append]
      exact List.rel_append (hsame content) (.cons hstar (.cons hslash .nil))
  | @unclosed content hcontent _ =>
      rw [neutralize_unclosed hcontent]
      exact .cons hslash (.cons hstar (hsame content))

end Neutralize

-- What `neutralize` leaves of a comment, and the blanks in its place.
structure Gap (d b : Text) : Prop where
  blanked : List.Forall₂ Blanked d b
  blank : ∀ c ∈ b, isspace c = true
  slash : d.head? = some '/'
  wide : 2 ≤ b.length

theorem gap_comment {post comment : Text} (h : Comment post comment) :
    Gap (neutralize comment) (blanks comment) := by
  have hwide : 2 ≤ (blanks comment).length ∧ (neutralize comment).head? = some '/' := by
    rw [blanks, List.length_map]
    cases h with
    | line => exact ⟨Nat.le_add_left 2 _, rfl⟩
    | block => exact ⟨Nat.le_add_left 2 _, rfl⟩
    | unclosed => exact ⟨Nat.le_add_left 2 _, rfl⟩
  exact ⟨comment_blanked h, isspace_blanks, hwide.2, hwide.1⟩

theorem Gap.mem {d b : Text} (h : Gap d b) : ∀ c ∈ d, isspace c = true ∨ c = '/' ∨ c = '*' := by
  have hblank := h.blank
  have hblanked := h.blanked
  clear h
  induction hblanked with
  | nil => exact nofun
  | cons hc _ ih =>
      simp only [List.forall_mem_cons] at hblank ⊢
      refine ⟨?_, ih hblank.2⟩
      rcases hc with rfl | ⟨_, hc⟩
      · exact Or.inl hblank.1
      · exact Or.inr hc

theorem Gap.ne_nil {d b : Text} (h : Gap d b) : d ≠ [] := by
  intro hd
  have hslash := h.slash
  rw [hd] at hslash
  exact nomatch hslash

theorem Gap.length_eq {d b : Text} (h : Gap d b) : d.length = b.length := h.blanked.length_eq

-- What is looked for is not in the gap.
theorem Gap.outside {d b u v : Text} (h : Gap d b) {i : Nat} {x : Char}
    (hx : isspace x = false) (hi : (u ++ (b ++ v))[i]? = some x) :
    i < u.length ∨ u.length + b.length ≤ i := by
  by_contra hin
  have hmem : x ∈ b := by
    rw [List.getElem?_append_right (by omega), List.getElem?_append_left (by omega)] at hi
    exact List.mem_of_getElem? hi
  have hspace := h.blank x hmem
  rw [hx] at hspace
  exact nomatch hspace

-- What looks for other characters than these does not see the difference.
section Delimiters

theorem Blanked.eq_iff {c c' x : Char} (h : Blanked c c') (hx : x ≠ '/' ∧ x ≠ '*' ∧ x ≠ ' ') :
    c = x ↔ c' = x := by
  obtain ⟨hslash, hstar, hspace⟩ := hx
  rcases h with rfl | ⟨rfl, rfl | rfl⟩
  · rfl
  · exact ⟨fun h => absurd h.symm hslash, fun h => absurd h.symm hspace⟩
  · exact ⟨fun h => absurd h.symm hstar, fun h => absurd h.symm hspace⟩

end Delimiters

end Diagrams

end CortexFlow
