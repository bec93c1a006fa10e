import CortexFlow.Diagrams.Items
import CortexFlow.Diagrams.Tokens
import CortexFlow.Diagrams.Signature

namespace CortexFlow

namespace Diagrams

open Lib

-- What `neutralize` leaves of a text does not depend on what comes behind it.
def Complete (u : Text) : Prop := ∀ rest, neutralize (u ++ rest) = neutralize u ++ neutralize rest

section Neutral

theorem complete_nil : Complete [] := fun _ => rfl

theorem complete_append {u v : Text} (hu : Complete u) (hv : Complete v) : Complete (u ++ v) := by
  intro rest
  rw [List.append_assoc, hu, hv, hu, List.append_assoc]

theorem complete_plain {u : Text} (hu : u.all Cpp.plain = true) : Complete u := by
  intro rest
  have hself := neutralize_plain hu []
  rw [List.append_nil, neutralize_nil, List.append_nil] at hself
  rw [neutralize_plain hu, hself]

theorem neutralize_plain_self {u : Text} (hu : u.all Cpp.plain = true) : neutralize u = u := by
  have hself := neutralize_plain hu []
  rwa [List.append_nil, neutralize_nil, List.append_nil] at hself

-- A text that ends with `c`, split at its first characters.
theorem cons_concat {c d : Char} {t u : Text} (h : d :: t = u ++ [c]) :
    (u = [] ∧ d = c ∧ t = []) ∨ ∃ v, u = d :: v ∧ t = v ++ [c] := by
  rcases List.cons_eq_append_iff.mp h with ⟨hu, hcons⟩ | ⟨v, hu, ht⟩
  · obtain ⟨hc, ht⟩ := List.cons.inj hcons
    exact Or.inl ⟨hu, hc.symm, ht.symm⟩
  · exact Or.inr ⟨v, hu, ht⟩

theorem cons_concat_of_ne {c d : Char} {t u : Text} (ht : t ≠ []) (h : d :: t = u ++ [c]) :
    ∃ v, u = d :: v ∧ t = v ++ [c] :=
  (cons_concat h).resolve_left fun hnil => ht hnil.2.2

theorem cons_cons_concat {c d e : Char} {t u : Text} (he : c ≠ e) (h : d :: e :: t = u ++ [c]) :
    ∃ v, u = d :: e :: v ∧ t = v ++ [c] := by
  obtain ⟨u, rfl, hrest⟩ := cons_concat_of_ne (List.cons_ne_nil e t) h
  obtain ⟨v, rfl, hv⟩ := (cons_concat hrest).resolve_left fun hnil => he hnil.2.1.symm
  exact ⟨v, rfl, hv⟩

theorem not_opens_of_append {d : Char} {u v : Text} (h : ¬opens d (u ++ v)) : ¬opens d u := by
  rintro ⟨hd, hhead⟩
  have hu : u ≠ [] := by
    rintro rfl
    rcases hhead with hhead | hhead <;> cases hhead
  exact h ⟨hd, by rwa [head?_append_of_ne_nil hu]⟩

theorem not_closes_of_append {d : Char} {u v : Text} (h : ¬closes d (u ++ v)) : ¬closes d u := by
  rintro ⟨hd, hhead⟩
  have hu : u ≠ [] := by
    rintro rfl
    cases hhead
  exact h ⟨hd, by rwa [head?_append_of_ne_nil hu]⟩

-- In code one more character is copied.
theorem neutralizeFrom_concat {c : Char} (hslash : c ≠ '/') (hstar : c ≠ '*') {mode : Mode}
    {t u : Text} (h : in_code mode t = true) (ht : t = u ++ [c]) :
    neutralizeFrom mode t = neutralizeFrom mode u ++ [c] := by
  have hmore {mode : Mode} {t : Text} (hmode : in_code mode [] = false)
      (h : in_code mode t = true) : t ≠ [] := by
    rintro rfl
    rw [hmode] at h
    cases h
  fun_induction in_code mode t generalizing u with
  | case1 => simp at ht
  | case2 => cases h
  | case3 => cases h
  | case4 t ih =>
      obtain ⟨v, rfl, rfl⟩ := cons_cons_concat hstar ht
      exact congrArg (fun s => '/' :: '*' :: s) (ih h rfl)
  | case5 t ih =>
      obtain ⟨v, rfl, rfl⟩ := cons_cons_concat hslash ht
      exact congrArg (fun s => '/' :: '/' :: s) (ih h rfl)
  | case6 d t _ _ _ hquote ih =>
      have hslash' (s : Text) : ¬opens d s := by
        rintro ⟨rfl, _⟩
        exact absurd hquote (by decide)
      obtain ⟨v, rfl, rfl⟩ := cons_concat_of_ne (hmore rfl h) ht
      rw [neutralizeFrom_code (hslash' _), neutralizeFrom_code (hslash' _), if_pos hquote,
        ih h rfl, List.cons_append]
  | case7 d t hlast hblock hline hquote ih =>
      have hnot : ¬opens d t := by
        rintro ⟨rfl, hhead | hhead⟩
        · obtain ⟨s, hs⟩ := List.head?_eq_some_iff.mp hhead
          exact hblock s rfl hs
        · obtain ⟨s, hs⟩ := List.head?_eq_some_iff.mp hhead
          exact hline s rfl hs
      rw [neutralizeFrom_code hnot, if_neg hquote]
      rcases cons_concat ht with ⟨rfl, rfl, rfl⟩ | ⟨v, rfl, rfl⟩
      · rfl
      · rw [neutralizeFrom_code (not_opens_of_append hnot), if_neg hquote, ih h rfl,
          List.cons_append]
  | case8 t ih =>
      obtain ⟨v, rfl, rfl⟩ := cons_cons_concat hslash ht
      exact congrArg (fun s => '*' :: '/' :: s) (ih h rfl)
  | case9 d t hclose ih =>
      have hnot : ¬closes d t := by
        rintro ⟨rfl, hhead⟩
        obtain ⟨s, hs⟩ := List.head?_eq_some_iff.mp hhead
        exact hclose s rfl hs
      obtain ⟨v, rfl, rfl⟩ := cons_concat_of_ne (hmore rfl h) ht
      rw [neutralizeFrom_block hnot, neutralizeFrom_block (not_closes_of_append hnot), ih h rfl,
        List.cons_append]
  | case10 t ih =>
      rcases cons_concat ht with ⟨rfl, rfl, rfl⟩ | ⟨v, rfl, rfl⟩
      · rfl
      · exact congrArg (fun s => '\n' :: s) (ih h rfl)
  | case11 d t hd ih =>
      obtain ⟨v, rfl, rfl⟩ := cons_concat_of_ne (hmore rfl h) ht
      simp only [List.cons_append, neutralizeFrom, if_neg hd, ih h rfl]
  | case12 d t ih =>
      rw [neutralizeFrom_quote]
      rcases cons_concat ht with ⟨rfl, rfl, rfl⟩ | ⟨v, rfl, rfl⟩
      · rfl
      · rw [neutralizeFrom_quote, ih h rfl, List.cons_append]
  | case13 => cases h
  | case14 quote d t hquote ih =>
      obtain ⟨v, rfl, hv⟩ := cons_concat_of_ne (List.cons_ne_nil _ _) ht
      obtain ⟨v, rfl, rfl⟩ := cons_concat_of_ne (hmore rfl h) hv
      simp only [List.cons_append, neutralizeFrom, if_neg hquote, if_true, ih h rfl]
  | case15 quote d t hquote hescape ih =>
      obtain ⟨v, rfl, rfl⟩ := cons_concat_of_ne (hmore rfl h) ht
      rw [neutralizeFrom_literal hquote hescape, neutralizeFrom_literal hquote hescape,
        ih h rfl, List.cons_append]

-- Text that ends in code before `c` can be read apart from it.
theorem neutralize_ends {c : Char} (hslash : c ≠ '/') (hstar : c ≠ '*') {u : Text}
    (h : ends_before c u = true) (rest : Text) :
    neutralize (u ++ c :: rest) = neutralize u ++ c :: neutralize rest := by
  have hcons : u ++ c :: rest = u ++ [c] ++ rest := by simp
  rw [hcons, neutralize_append h, neutralize, neutralizeFrom_concat hslash hstar h rfl]
  simp [neutralize]

end Neutral

theorem ne_of_quiet {c : Char} (hc : c ∉ statement_ends) :
    (c ≠ ';' ∧ c ≠ '{' ∧ c ≠ '}') ∧ c ≠ '(' ∧ c ≠ ')' := by
  simpa [statement_ends, and_assoc] using hc

-- Code that `neutralize` leaves as it is, in which no statement ends and nothing is nested.
structure Bare (u : Text) : Prop where
  plain : u.all Cpp.plain = true
  quiet : ∀ c ∈ u, c ∉ statement_ends

section Bare

theorem bare_nil : Bare [] := ⟨rfl, fun c hc => absurd hc (by simp)⟩

theorem bare_append {u v : Text} (hu : Bare u) (hv : Bare v) : Bare (u ++ v) := by
  refine ⟨?_, fun c hc => ?_⟩
  · rw [List.all_append, hu.plain, hv.plain]
    rfl
  · rcases List.mem_append.mp hc with hc | hc
    · exact hu.quiet c hc
    · exact hv.quiet c hc

theorem bare_flatMap {α : Type} {l : List α} {f : α → Text} (h : ∀ a ∈ l, Bare (f a)) :
    Bare (l.flatMap f) := by
  induction l with
  | nil => exact bare_nil
  | cons a l ih =>
      rw [List.flatMap_cons]
      exact bare_append (h a List.mem_cons_self) (ih fun b hb => h b (List.mem_cons_of_mem _ hb))

theorem bare_of_forall {p : Char → Bool} {u : Text} (hu : ∀ c ∈ u, p c = true)
    (hp : (('/' :: '"' :: '\'' :: statement_ends).all fun c => !p c) = true) : Bare u := by
  have hnot {c d : Char} (hc : c ∈ u) (hd : d ∈ '/' :: '"' :: '\'' :: statement_ends) :
      c ≠ d := by
    rintro rfl
    have hfalse := List.all_eq_true.mp hp c hd
    rw [hu c hc] at hfalse
    cases hfalse
  refine ⟨List.all_eq_true.mpr fun c hc => ?_, fun c hc hends => ?_⟩
  · simp only [Cpp.plain, Bool.and_eq_true, decide_eq_true_eq]
    exact ⟨⟨hnot hc (by simp), hnot hc (by simp)⟩, hnot hc (by simp)⟩
  · exact hnot hc (by simp [hends]) rfl

theorem bare_spaces (s : Spaces) : Bare s.text :=
  bare_of_forall s.isspace (by decide)

theorem bare_ascii {u : Text} (hu : (u.all fun c => c.isAlphanum || c = ':' || c = '&') = true) :
    Bare u :=
  bare_of_forall (List.all_eq_true.mp hu) (by decide)

variable {isalnum : Char → Bool}

theorem bare_name (n : QualName isalnum) : Bare n.text := by
  have hchars : ∀ c ∈ n.text, (isword isalnum c || c = ':') = true := by
    intro c hc
    rw [Bool.or_eq_true, decide_eq_true_eq]
    exact n.name_char c hc
  exact bare_of_forall hchars rfl

theorem bare_ident (i : Ident isalnum) : Bare i.text := by
  have hname := bare_name (⟨[], i⟩ : QualName isalnum)
  rwa [QualName.text, List.flatMap_nil, List.nil_append] at hname

theorem Bare.complete {u : Text} (h : Bare u) : Complete u := complete_plain h.plain

theorem Bare.braces {u : Text} (h : Bare u) : braces u = true :=
  Brackets.balanced_free fun c hc => (ne_of_quiet (h.quiet c hc)).1.2

end Bare

-- Text that can be taken out of any context: it is complete, and its braces are closed.
structure Whole (u : Text) : Prop where
  complete : Complete u
  nested : braces (neutralize u) = true

section Whole

theorem whole_nil : Whole [] := ⟨complete_nil, rfl⟩

theorem whole_append {u v : Text} (hu : Whole u) (hv : Whole v) : Whole (u ++ v) := by
  refine ⟨complete_append hu.complete hv.complete, ?_⟩
  rw [hu.complete]
  exact Brackets.balanced_append hu.nested hv.nested

theorem whole_flatMap {α : Type} {l : List α} {f : α → Text} (h : ∀ a ∈ l, Whole (f a)) :
    Whole (l.flatMap f) := by
  induction l with
  | nil => exact whole_nil
  | cons a l ih =>
      rw [List.flatMap_cons]
      exact whole_append (h a List.mem_cons_self) (ih fun b hb => h b (List.mem_cons_of_mem _ hb))

theorem Bare.whole {u : Text} (h : Bare u) : Whole u := by
  refine ⟨h.complete, ?_⟩
  rw [neutralize_plain_self h.plain]
  exact h.braces

theorem whole_char {c : Char} (hc : Cpp.plain c = true) (hopening : c ≠ '{')
    (hclosing : c ≠ '}') : Whole [c] := by
  have hplain : [c].all Cpp.plain = true := by simpa using hc
  refine ⟨complete_plain hplain, ?_⟩
  rw [neutralize_plain_self hplain]
  exact Brackets.balanced_cons hopening hclosing rfl

theorem neutralize_cons {c : Char} (hc : Cpp.plain c = true) (t : Text) :
    neutralize (c :: t) = c :: neutralize t := by
  have hplain : [c].all Cpp.plain = true := by simpa using hc
  exact neutralize_plain hplain t

-- `c` ends the text `u`, as far as `neutralize` goes.
def Ends (u : Text) (c : Char) : Prop :=
  ∀ rest, neutralize (u ++ c :: rest) = neutralize u ++ c :: neutralize rest

theorem whole_ends {u v : Text} {c : Char} (hu : Ends u c) (hc : Cpp.plain c = true)
    (hnested : braces (neutralize u) = true) (hv : Whole (c :: v)) : Whole (u ++ c :: v) := by
  refine ⟨fun rest => ?_, ?_⟩
  · have hrest := hv.complete rest
    rw [List.cons_append, neutralize_cons hc, neutralize_cons hc] at hrest
    rw [List.append_assoc, List.cons_append, hu, hu, List.append_assoc, hrest]
  · have hself := hv.nested
    rw [neutralize_cons hc] at hself
    rw [hu]
    exact Brackets.balanced_append hnested hself

-- What stands in braces.
theorem whole_braced {u v : Text} (hu : Ends u '}') (hnested : braces (neutralize u) = true)
    (hv : Whole v) : Whole ('{' :: (u ++ '}' :: v)) := by
  refine ⟨fun rest => ?_, ?_⟩
  · rw [List.cons_append, List.append_assoc, List.cons_append, neutralize_cons rfl,
      neutralize_cons rfl, hu, hu, hv.complete]
    simp
  · rw [neutralize_cons rfl, hu]
    exact Brackets.balanced_wrap (by decide) hnested hv.nested

theorem Remark.neutral (r : Remark) : Complete r.text ∧
    ∀ c ∈ neutralize r.text, isspace c = true ∨ c = '/' ∨ c = '*' := by
  cases r with
  | spaces s =>
      refine ⟨(bare_spaces s).complete, fun c hc => Or.inl ?_⟩
      rw [Remark.text, neutralize_plain_self (bare_spaces s).plain] at hc
      exact s.isspace c hc
  | line content hline =>
      have hcomment (rest : Text) : Comment ('\n' :: rest) ('/' :: '/' :: content) :=
        .line hline (Or.inr rfl)
      have hform (rest : Text) : neutralize ('/' :: '/' :: (content ++ '\n' :: rest)) =
          neutralize ('/' :: '/' :: content) ++ '\n' :: neutralize rest :=
        neutralize_comment (hcomment rest)
      refine ⟨fun rest => ?_, fun c hc => ?_⟩
      · simp only [Remark.text, List.cons_append, List.append_assoc, List.nil_append, hform,
          neutralize_nil]
      · rw [Remark.text, hform] at hc
        rcases List.mem_append.mp hc with hc | hc
        · exact (gap_comment (hcomment [])).mem c hc
        · rw [neutralize_nil, List.mem_singleton] at hc
          rw [hc]
          exact Or.inl rfl
  | block content hblock =>
      have hcomment (rest : Text) : Comment rest ('/' :: '*' :: (content ++ ['*', '/'])) :=
        .block hblock
      exact ⟨fun rest => neutralize_comment (hcomment rest), (gap_comment (hcomment [])).mem⟩

theorem not_ends_of_remark {c : Char} (h : isspace c = true ∨ c = '/' ∨ c = '*') :
    c ∉ statement_ends := by
  rcases h with h | rfl | rfl
  · intro hmem
    have hall : (statement_ends.all fun c => !isspace c) = true := by decide
    have hspace := List.all_eq_true.mp hall c hmem
    rw [h] at hspace
    cases hspace
  · decide
  · decide

theorem braces_of_quiet {u : Text} (hu : ∀ c ∈ u, c ∉ statement_ends) : braces u = true :=
  Brackets.balanced_free fun c hc => (ne_of_quiet (hu c hc)).1.2

theorem Remark.whole (r : Remark) : Whole r.text :=
  ⟨r.neutral.1, braces_of_quiet fun c hc => not_ends_of_remark (r.neutral.2 c hc)⟩

theorem Include.neutral (i : Include) (rest : Text) :
    neutralize (i.text ++ rest) = '#' :: (neutralize i.content ++ '\n' :: neutralize rest) := by
  have htext : i.text ++ rest = '#' :: (i.content ++ '\n' :: rest) := by simp [Include.text]
  rw [htext, neutralize_cons rfl, neutralize_ends (by decide) (by decide) i.ends]

theorem Include.whole (i : Include) : Whole i.text := by
  have hself := i.neutral []
  rw [List.append_nil, neutralize_nil] at hself
  refine ⟨fun rest => ?_, ?_⟩
  · rw [i.neutral, hself]
    simp
  · rw [hself]
    refine Brackets.balanced_cons (by decide) (by decide) ?_
    exact Brackets.balanced_append i.nested rfl

theorem Trivia.whole (t : Trivia) : Whole t.text := by
  cases t with
  | remark r => exact r.whole
  | directive i => exact i.whole

end Whole

-- What is left of the parts of an item.
section Parts

theorem Access.bare (a : Access) : Bare a.text := by
  cases a with
  | public_ => exact bare_ascii (by decide)
  | protected_ => exact bare_ascii (by decide)
  | private_ => exact bare_ascii (by decide)

theorem ClassKey.bare (k : ClassKey) : Bare k.text := by
  cases k with
  | class_ => exact bare_ascii (by decide)
  | struct_ => exact bare_ascii (by decide)

theorem Qualifier.bare (q : Qualifier) : Bare q.text := by
  cases q with
  | const => exact bare_ascii (by decide)
  | override => exact bare_ascii (by decide)
  | final => exact bare_ascii (by decide)
  | noexcept => exact bare_ascii (by decide)
  | ref => exact bare_ascii (by decide)
  | rref => exact bare_ascii (by decide)

theorem bare_colon : Bare [':'] := bare_ascii (by decide)

theorem bare_namespace : Bare namespace_word := bare_ascii (by decide)

theorem Label.front (l : Label) : Bare (l.access.text ++ (l.gap.text ++ [':'])) :=
  bare_append l.access.bare (bare_append (bare_spaces l.gap) bare_colon)

theorem Label.text_eq (l : Label) :
    l.text = l.access.text ++ (l.gap.text ++ [':']) ++ l.behind.flatMap Remark.text := by
  simp [Label.text]

theorem Label.whole (l : Label) : Whole l.text := by
  rw [l.text_eq]
  exact whole_append l.front.whole (whole_flatMap fun r _ => r.whole)

theorem Lead.whole (l : Lead) : Whole l.text :=
  whole_append (whole_flatMap fun t _ => t.whole) (whole_flatMap fun l _ => l.whole)

theorem neutralize_remarks {remarks : List Remark} :
    ∀ c ∈ neutralize (remarks.flatMap Remark.text), isspace c = true ∨ c = '/' ∨ c = '*' := by
  induction remarks with
  | nil => simp
  | cons r remarks ih =>
      intro c hc
      rw [List.flatMap_cons, r.neutral.1] at hc
      rcases List.mem_append.mp hc with hc | hc
      · exact r.neutral.2 c hc
      · exact ih c hc

theorem Label.neutral (l : Label) : neutralize l.text =
    l.access.text ++ (l.gap.text ++ ':' :: neutralize (l.behind.flatMap Remark.text)) := by
  rw [l.text_eq, l.front.complete, neutralize_plain_self l.front.plain]
  simp

theorem quiet_labels {labels : List Label} :
    ∀ c ∈ neutralize (labels.flatMap Label.text), c ∉ statement_ends := by
  induction labels with
  | nil => simp
  | cons l labels ih =>
      intro c hc
      rw [List.flatMap_cons, l.whole.complete, l.text_eq, l.front.complete,
        neutralize_plain_self l.front.plain] at hc
      rcases List.mem_append.mp hc with hc | hc
      · rcases List.mem_append.mp hc with hc | hc
        · exact l.front.quiet c hc
        · exact not_ends_of_remark (neutralize_remarks c hc)
      · exact ih c hc

variable {isalnum : Char → Bool}

theorem Forward.bare (f : Forward isalnum) : Bare f.text :=
  bare_append f.key.bare (bare_append (bare_spaces f.gap.toSpaces)
    (bare_append (bare_ident f.name) (bare_spaces f.trail)))

theorem Statement.neutral (s : Statement) : Ends s.text ';' :=
  neutralize_ends (by decide) (by decide) s.ends

theorem Member.neutral (m : Member isalnum) (rest : Text) :
    neutralize (m.text ++ ';' :: rest) = neutralize m.head ++ '{' :: (neutralize m.value ++
      '}' :: (m.trail.text ++ ';' :: neutralize rest)) := by
  have htext : m.text ++ ';' :: rest =
      m.head ++ '{' :: (m.value ++ '}' :: (m.trail.text ++ ';' :: rest)) := by
    simp [Member.text]
  rw [htext, neutralize_ends (by decide) (by decide) m.head_ends,
    neutralize_ends (by decide) (by decide) m.value_ends, neutralize_plain (bare_spaces _).plain,
    neutralize_cons rfl]

theorem Function.bare_types (f : Function isalnum) : Bare f.types_text :=
  bare_flatMap fun t _ => bare_append (bare_name t.1) (bare_spaces t.2.toSpaces)

theorem Function.bare_tail (f : Function isalnum) : Bare f.tail_text :=
  bare_append (bare_flatMap fun q _ => bare_append (bare_spaces q.1) q.2.bare)
    (bare_spaces f.trail)

theorem Function.neutral (f : Function isalnum) (rest : Text) :
    neutralize (f.text ++ rest) = f.types_text ++ (f.name.text ++ (f.gap.text ++
      '(' :: (neutralize f.args ++ ')' :: (f.tail_text ++
        '{' :: (neutralize f.body ++ '}' :: neutralize rest))))) := by
  have htext : f.text ++ rest = f.types_text ++ (f.name.text ++ (f.gap.text ++
      '(' :: (f.args ++ ')' :: (f.tail_text ++ '{' :: (f.body ++ '}' :: rest))))) := by
    simp [Function.text]
  rw [htext, neutralize_plain f.bare_types.plain, neutralize_plain (bare_name _).plain,
    neutralize_plain (bare_spaces _).plain, neutralize_cons rfl,
    neutralize_ends (by decide) (by decide) f.args_ends, neutralize_plain f.bare_tail.plain,
    neutralize_cons rfl, neutralize_ends (by decide) (by decide) f.body_ends]

-- Only the bases are not taken as they are.
theorem Head.split (h : Head isalnum) :
    Bare h.text ∨ ∃ (u : Text) (b : Bases), h.text = u ++ b.text ∧ Bare u := by
  cases h with
  | namespace_ gap name trail =>
      exact Or.inl (bare_append bare_namespace (bare_append (bare_spaces _)
        (bare_append (bare_ident name) (bare_spaces trail))))
  | anonymous trail => exact Or.inl (bare_append bare_namespace (bare_spaces trail))
  | class_ key gap name tail closing =>
      cases tail with
      | spaces s =>
          exact Or.inl (bare_append key.bare (bare_append (bare_spaces _)
            (bare_append (bare_ident name) (bare_spaces s))))
      | bases b =>
          refine Or.inr ⟨key.text ++ (gap.text ++ (name.text ++ (b.gap.text ++ [':']))), b, ?_, ?_⟩
          · simp [Head.text, ClassTail.text]
          · exact bare_append key.bare (bare_append (bare_spaces _) (bare_append (bare_ident name)
              (bare_append (bare_spaces b.gap) bare_colon)))

theorem Head.ends (h : Head isalnum) : Ends h.text '{' := by
  intro rest
  rcases h.split with hbare | ⟨u, b, htext, hbare⟩
  · rw [hbare.complete, neutralize_cons rfl]
  · rw [htext, List.append_assoc, hbare.complete, hbare.complete,
      neutralize_ends (by decide) (by decide) b.ends, List.append_assoc]

theorem Head.quiet (h : Head isalnum) :
    ∀ c ∈ neutralize h.text, c ≠ ';' ∧ c ≠ '{' ∧ c ≠ '}' := by
  have hquiet {u : Text} (hu : Bare u) : ∀ c ∈ neutralize u, c ≠ ';' ∧ c ≠ '{' ∧ c ≠ '}' := by
    rw [neutralize_plain_self hu.plain]
    exact fun c hc => (ne_of_quiet (hu.quiet c hc)).1
  rcases h.split with hbare | ⟨u, b, htext, hbare⟩
  · exact hquiet hbare
  · rw [htext, hbare.complete]
    intro c hc
    rcases List.mem_append.mp hc with hc | hc
    · exact hquiet hbare c hc
    · simpa [and_assoc] using List.all_eq_true.mp b.plain c hc

theorem Head.nested (h : Head isalnum) : parens (neutralize h.text) = true := by
  have hparens {u : Text} (hu : Bare u) : parens (neutralize u) = true := by
    rw [neutralize_plain_self hu.plain]
    exact Brackets.balanced_free fun c hc => (ne_of_quiet (hu.quiet c hc)).2
  rcases h.split with hbare | ⟨u, b, htext, hbare⟩
  · exact hparens hbare
  · rw [htext, hbare.complete]
    exact Brackets.balanced_append (hparens hbare) b.nested

theorem Head.whole_closing (h : Head isalnum) : Whole h.closing := by
  cases h with
  | namespace_ => exact whole_nil
  | anonymous => exact whole_nil
  | class_ _ _ _ _ closing =>
      exact whole_append (bare_spaces closing).whole (whole_char rfl (by decide) (by decide))

theorem Leaf.whole (l : Leaf isalnum) : Whole l.text := by
  have hsemicolon : Whole [';'] := whole_char rfl (by decide) (by decide)
  cases l with
  | statement s =>
      refine whole_ends s.neutral rfl (Brackets.balanced_free fun c hc => ?_) hsemicolon
      simpa using List.all_eq_true.mp s.braceless c hc
  | forward f => exact whole_append f.bare.whole hsemicolon
  | member m =>
      have htext : (Leaf.member m).text =
          m.head ++ '{' :: (m.value ++ '}' :: (m.trail.text ++ [';'])) := by
        simp [Leaf.text, Member.text]
      have hhead : Ends m.head '{' := neutralize_ends (by decide) (by decide) m.head_ends
      have hvalue : Ends m.value '}' := neutralize_ends (by decide) (by decide) m.value_ends
      rw [htext]
      refine whole_ends hhead rfl (braces_of_quiet fun c hc => ?_)
        (whole_braced hvalue m.nested (whole_append (bare_spaces _).whole hsemicolon))
      simpa using List.all_eq_true.mp m.plain c hc
  | function f =>
      have hargs : Ends f.args ')' := neutralize_ends (by decide) (by decide) f.args_ends
      have hbody : Ends f.body '}' := neutralize_ends (by decide) (by decide) f.body_ends
      have hbraced : Whole (f.tail_text ++ '{' :: (f.body ++ ['}'])) :=
        whole_append f.bare_tail.whole (whole_braced hbody f.body_braces whole_nil)
      have hclose := whole_append (whole_char (c := ')') rfl (by decide) (by decide)) hbraced
      have hopen : Whole ['('] := whole_char rfl (by decide) (by decide)
      exact whole_append f.bare_types.whole (whole_append (bare_name _).whole
        (whole_append (bare_spaces _).whole
          (whole_append hopen (whole_ends hargs rfl f.args_braces hclose))))

theorem Items.whole (x : Items isalnum) : Whole x.text := by
  induction x with
  | nil gap => exact whole_flatMap fun t _ => t.whole
  | leaf lead l rest ih => exact whole_append lead.whole (whole_append l.whole ih)
  | scope lead head body rest ihbody ihrest =>
      have hbody : Ends body.text '}' := fun rest => by
        rw [ihbody.complete, neutralize_cons rfl]
      refine whole_append lead.whole (whole_ends head.ends rfl ?_
        (whole_braced hbody ihbody.nested (whole_append head.whole_closing ihrest)))
      exact Brackets.balanced_free fun c hc => (head.quiet c hc).2

end Parts

end Diagrams

end CortexFlow
