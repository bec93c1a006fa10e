import CortexFlow.Diagrams.FunctionNames
import CortexFlow.Diagrams.Hidden
import CortexFlow.Diagrams.Neutralize
import CortexFlow.Diagrams.Scoped

namespace CortexFlow

namespace Diagrams

open Lib

variable {isalnum : Char → Bool}

-- Where a statement ends.
section NextTop

theorem find_next_top_none {u : Text} (hu : ∀ c ∈ u, c ≠ ';' ∧ c ≠ '{' ∧ c ≠ '}') (depth : Int) :
    find_next_top depth u = none := by
  induction u generalizing depth with
  | nil => rfl
  | cons c u ih =>
      obtain ⟨hsemicolon, hopen, hclose⟩ := hu c List.mem_cons_self
      have hrest := ih fun c hc => hu c (List.mem_cons_of_mem _ hc)
      simp only [find_next_top, hrest, hsemicolon, hopen, hclose, or_false, and_false, if_false,
        Option.map_none, ite_self]

theorem find_next_top_append {depth : Nat} {u : Text}
    (hu : Brackets.closed '(' ')' depth u = true) (hnone : find_next_top depth u = none)
    (t : Text) :
    find_next_top depth (u ++ t) = (find_next_top 0 t).map (· + u.length) := by
  induction u generalizing depth with
  | nil =>
      have hzero : depth = 0 := by simpa [Brackets.closed] using hu
      rw [hzero]
      simp
  | cons c u ih =>
      have hmap (f : Option Nat) : (f.map (· + u.length)).map (· + 1) =
          f.map (· + (c :: u).length) := by
        rw [Option.map_map]
        rfl
      simp only [Brackets.closed, find_next_top] at hu hnone
      rw [List.cons_append, find_next_top]
      split_ifs at hu hnone ⊢ with hopen hclose hends
      · have hrest := @ih (depth + 1) hu (Option.map_eq_none_iff.mp hnone)
        rw [← hmap, ← hrest]
        rfl
      · rw [Bool.and_eq_true, decide_eq_true_eq] at hu
        have hdepth : (depth : Int) - 1 = ((depth - 1 : Nat) : Int) := by omega
        rw [hdepth] at hnone ⊢
        rw [← hmap, ← ih hu.2 (Option.map_eq_none_iff.mp hnone)]
      · rw [← hmap, ← ih hu (Option.map_eq_none_iff.mp hnone)]

-- Among the arguments nothing ends a statement.
theorem find_next_top_args {depth : Nat} {u : Text}
    (hu : Brackets.closed '(' ')' depth u = true) (t : Text) :
    find_next_top ((depth : Int) + 1) (u ++ ')' :: t) =
      (find_next_top 0 t).map (· + (u.length + 1)) := by
  induction u generalizing depth with
  | nil =>
      have hzero : depth = 0 := by simpa [Brackets.closed] using hu
      rw [hzero]
      rfl
  | cons c u ih =>
      have hmap (f : Option Nat) : (f.map (· + (u.length + 1))).map (· + 1) =
          f.map (· + ((c :: u).length + 1)) := by
        rw [Option.map_map]
        rfl
      simp only [Brackets.closed] at hu
      rw [List.cons_append, find_next_top]
      split_ifs at hu ⊢ with hopen hclose hends
      · have hrest := @ih (depth + 1) hu
        rw [← hmap, ← hrest]
        rfl
      · rw [Bool.and_eq_true, decide_eq_true_eq] at hu
        have hdepth : (depth : Int) + 1 - 1 = ((depth - 1 : Nat) : Int) + 1 := by omega
        rw [hdepth, ← hmap, ← ih hu.2]
      · omega
      · rw [← hmap, ← ih hu]

end NextTop

-- What one item takes of the walk.
section Items

theorem begins_cons {c : Char} {t : Text} :
    begins_item (c :: t) = true ↔ isspace c = false ∧ c ≠ '#' ∧ ¬opens c t := by
  simp only [begins_item, opens, Bool.and_eq_true, Bool.not_eq_true', decide_eq_true_eq,
    Bool.and_eq_false_iff, Bool.or_eq_false_iff, decide_eq_false_iff_not, and_assoc, not_and_or,
    not_or]
  tauto

theorem step_item {t : Text} (hbegin : begins_item t = true) (hclose : t.head? ≠ some '}')
    (hne : t ≠ []) : step isalnum t = item isalnum t := by
  obtain ⟨c, t, rfl⟩ := List.exists_cons_of_ne_nil hne
  obtain ⟨hspace, hhash, hopens⟩ := begins_cons.mp hbegin
  have hbrace : c ≠ '}' := fun hc => hclose (by rw [hc]; rfl)
  have hline : ¬(c = '/' ∧ t.head? = some '/') := fun h => hopens ⟨h.1, Or.inr h.2⟩
  have hblock : ¬(c = '/' ∧ t.head? = some '*') := fun h => hopens ⟨h.1, Or.inl h.2⟩
  rw [step, if_neg (by rw [hspace]; decide), if_neg hbrace, if_neg hhash, if_neg hline,
    if_neg hblock]

-- Before a `;` that no brace precedes, no scope is opened.
theorem opened_statement {u : Text} (hu : ∀ c ∈ u, c ≠ '{') (t : Text) :
    opened isalnum (u ++ ';' :: t) = none := by
  have hnone {r : Regex} (hr : ScopeRegex isalnum r) : r.matchAt (u ++ ';' :: t) = none := by
    cases hmatch : r.matchAt (u ++ ';' :: t) with
    | none => rfl
    | some m =>
        obtain ⟨k, _, hk, hplain⟩ := scope_ends isalnum hr (matchAt_mem hmatch)
        have hle : k ≤ u.length := by
          by_contra hlt
          have hmem : ';' ∈ (u ++ ';' :: t).take k := by
            refine List.mem_of_getElem? (i := u.length) ?_
            rw [List.getElem?_take_of_lt (by omega), List.getElem?_append_right (Nat.le_refl _),
              Nat.sub_self]
            rfl
          exact absurd hmem (fun hmem => hplain ';' hmem (by decide))
        by_cases hlt : k < u.length
        · rw [List.getElem?_append_left hlt] at hk
          exact absurd rfl (hu _ (List.mem_of_getElem? hk))
        · have hlast : k = u.length := by omega
          rw [hlast, List.getElem?_append_right (Nat.le_refl _), Nat.sub_self] at hk
          cases hk
  rw [opened, hnone .of_namespace, hnone .of_anon_ns, hnone .of_class]
  rfl

theorem getElem?_marker (u t : Text) (c : Char) : (u ++ c :: t)[u.length]? = some c := by
  rw [List.getElem?_append_right (Nat.le_refl _), Nat.sub_self]
  rfl

theorem drop_marker (u t : Text) (c : Char) : (u ++ c :: t).drop (u.length + 1) = t := by
  rw [← List.drop_drop, List.drop_left]
  rfl

theorem drop_braced (u v t : Text) :
    (u ++ '{' :: (v ++ '}' :: t)).drop (u.length + 1 + v.length + 1) = t := by
  have hassoc : u.length + 1 + v.length + 1 = u.length + 1 + (v.length + 1) := by omega
  rw [hassoc, ← List.drop_drop, drop_marker, drop_marker]

theorem head?_marker {u : Text} {c : Char} (hu : ∀ d ∈ u, d ≠ '}') (hc : c ≠ '}') (t : Text) :
    (u ++ c :: t).head? ≠ some '}' := by
  cases u with
  | nil => exact fun h => hc (Option.some.inj h)
  | cons d u => exact fun h => hu d List.mem_cons_self (Option.some.inj h)

theorem scan_statement {u t : Text} (hbegin : begins_item (u ++ ';' :: t) = true)
    (hbraces : ∀ c ∈ u, c ≠ '{' ∧ c ≠ '}') (hparens : parens u = true)
    (hone : find_next_top 0 u = none) (prefix_ : Text) (bodies : Bodies) :
    scanAll isalnum (u ++ ';' :: t) prefix_ bodies = scanAll isalnum t prefix_ bodies := by
  have hnext : find_next_top 0 (u ++ ';' :: t) = some u.length := by
    have happend := find_next_top_append hparens hone (';' :: t)
    have hends : find_next_top 0 (';' :: t) = some 0 := rfl
    rw [hends, Option.map_some, Nat.zero_add] at happend
    exact happend
  have hstep : step isalnum (u ++ ';' :: t) = .next (u.length + 1) := by
    rw [step_item hbegin (head?_marker (fun c hc => (hbraces c hc).2) (by decide) t) (by simp),
      item_eq, opened_statement fun c hc => (hbraces c hc).1, Option.getD_none,
      statement_eq isalnum hnext, getElem?_marker, if_pos rfl]
  rw [scanAll_eq, hstep, resume, drop_marker]

-- What comes before a brace, and is not a scope, is read as a signature.
theorem scan_braced {u v t : Text} (hopened : opened isalnum (u ++ '{' :: (v ++ '}' :: t)) = none)
    (hbegin : begins_item (u ++ '{' :: (v ++ '}' :: t)) = true)
    (hclose : (u ++ '{' :: (v ++ '}' :: t)).head? ≠ some '}') (hparens : parens u = true)
    (hone : find_next_top 0 u = none) (hv : braces v = true) (prefix_ : Text) (bodies : Bodies) :
    scanAll isalnum (u ++ '{' :: (v ++ '}' :: t)) prefix_ bodies =
      scanAll isalnum t prefix_ (match _extract_function_name isalnum u with
        | none => bodies
        | some name => bodies.insert (_join_qname prefix_ name) v) := by
  have hnext : find_next_top 0 (u ++ '{' :: (v ++ '}' :: t)) = some u.length := by
    have happend := find_next_top_append hparens hone ('{' :: (v ++ '}' :: t))
    have hends : find_next_top 0 ('{' :: (v ++ '}' :: t)) = some 0 := rfl
    rw [hends, Option.map_some, Nat.zero_add] at happend
    exact happend
  have hne : '}' ≠ '{' := by decide
  have hfind : find_matching_brace 1 (v ++ '}' :: t) = some v.length := find_of_closed hne hv t
  have hstep : (step isalnum (u ++ '{' :: (v ++ '}' :: t))).close =
      .body (_extract_function_name isalnum u) (u.length + 1) v.length
        (u.length + 1 + v.length + 1) := by
    rw [step_item hbegin hclose (by simp), item_eq, hopened, Option.getD_none,
      statement_eq isalnum hnext, getElem?_marker, if_neg (by decide), if_pos rfl, bodyAt, braced,
      drop_marker, hfind, List.take_left]
    rfl
  rw [scanAll_close, hstep]
  cases _extract_function_name isalnum u with
  | none => rw [resume, drop_braced]
  | some name => rw [resume, drop_braced, drop_marker, List.take_left]

theorem begins_of_head {t : Text} {c : Char} (h : t.head? = some c) (hspace : isspace c = false)
    (hhash : c ≠ '#') (hslash : c ≠ '/') : begins_item t = true := by
  obtain ⟨s, rfl⟩ := List.head?_eq_some_iff.mp h
  exact begins_cons.mpr ⟨hspace, hhash, fun hopens => hslash hopens.1⟩

theorem begins_letter {t : Text} {c : Char} (h : t.head? = some c) (hc : ident_start c = true) :
    begins_item t = true ∧ t.head? ≠ some '}' := by
  refine ⟨begins_of_head h (not_isspace_of_start hc) ?_ ?_, ?_⟩
  · rintro rfl
    cases hc
  · rintro rfl
    cases hc
  · intro hclose
    rw [h] at hclose
    cases Option.some.inj hclose
    cases hc

theorem Head.head (h : Head isalnum) (t : Text) :
    ∃ c, (neutralize h.text ++ t).head? = some c ∧ ident_start c = true := by
  have hbare {u : Text} (hu : Bare u) (rest : Text) :
      neutralize (u ++ rest) ++ t = u ++ (neutralize rest ++ t) := by
    rw [hu.complete, neutralize_plain_self hu.plain, List.append_assoc]
  cases h with
  | namespace_ gap name trail =>
      rw [Head.text, hbare bare_namespace]
      exact ⟨'n', rfl, rfl⟩
  | anonymous trail =>
      rw [Head.text, hbare bare_namespace]
      exact ⟨'n', rfl, rfl⟩
  | class_ key gap name tail closing =>
      rw [Head.text, hbare key.bare]
      cases key with
      | class_ => exact ⟨'c', rfl, rfl⟩
      | struct_ => exact ⟨'s', rfl, rfl⟩

theorem scan_scope (h : Head isalnum) {v : Text} (hv : braces v = true) (t prefix_ : Text)
    (bodies : Bodies) :
    scanAll isalnum (neutralize h.text ++ '{' :: (v ++ '}' :: t)) prefix_ bodies =
      scanAll isalnum t prefix_ (scanAll isalnum v (prefix_within prefix_ h.name) bodies) := by
  obtain ⟨next, hopened⟩ := opened_head h (v ++ '}' :: t)
  obtain ⟨c, hhead, hc⟩ := h.head ('{' :: (v ++ '}' :: t))
  obtain ⟨hbegin, hclose⟩ := begins_letter hhead hc
  have hne : '}' ≠ '{' := by decide
  have hfind : find_matching_brace 1 (v ++ '}' :: t) = some v.length := find_of_closed hne hv t
  have hstep : (step isalnum (neutralize h.text ++ '{' :: (v ++ '}' :: t))).close =
      .scope h.name ((neutralize h.text).length + 1) v.length
        ((neutralize h.text).length + 1 + v.length + 1) := by
    rw [step_item hbegin hclose (by simp), item_eq, hopened, Option.getD_some, braced,
      drop_marker, hfind]
    rfl
  rw [scanAll_close, hstep]
  cases h.name with
  | none => rw [resume, drop_braced, drop_marker, List.take_left]; rfl
  | some name => rw [resume, drop_braced, drop_marker, List.take_left]; rfl

end Items

-- What comes between two items is skipped.
section Trivia

theorem not_newline_neutralize {t : Text} (h : '\n' ∉ t) : '\n' ∉ neutralize t := by
  have hkept := neutralizeFrom_kept .code t
  unfold neutralize
  generalize neutralizeFrom .code t = t' at hkept
  induction hkept with
  | nil => exact h
  | cons hc _ ih =>
      obtain ⟨hne, hrest⟩ := List.ne_and_not_mem_of_not_mem_cons h
      intro hmem
      rcases List.mem_cons.mp hmem with heq | hmem
      · exact hne ((kept_newline hc).mp heq.symm).symm
      · exact ih hrest hmem

theorem scan_remark (r : Remark) (rest prefix_ : Text) (bodies : Bodies) :
    scanAll isalnum (neutralize (r.text ++ rest)) prefix_ bodies =
      scanAll isalnum (neutralize rest) prefix_ bodies := by
  have hcomment {post comment : Text} (h : Comment post comment) :
      scanAll isalnum (neutralize (comment ++ post)) prefix_ bodies =
        scanAll isalnum (neutralize post) prefix_ bodies := by
    have hskip := scanAll_comment isalnum h (neutralize post).length prefix_ bodies
    rwa [List.take_length, ← neutralize_comment h] at hskip
  cases r with
  | spaces s =>
      rw [Remark.text, neutralize_plain (bare_spaces s).plain, scanAll_spaces isalnum s.isspace]
  | line content hline =>
      have hline : Comment ('\n' :: rest) ('/' :: '/' :: content) := .line hline (Or.inr rfl)
      have hskip := hcomment hline
      rw [neutralize_cons rfl, scanAll_space isalnum (by decide)] at hskip
      simpa [Remark.text] using hskip
  | block content hblock => exact hcomment (.block hblock)

theorem scan_directive (i : Include) (rest prefix_ : Text) (bodies : Bodies) :
    scanAll isalnum (neutralize (i.text ++ rest)) prefix_ bodies =
      scanAll isalnum (neutralize rest) prefix_ bodies := by
  have hline : '\n' ∉ '#' :: neutralize i.content := by
    simpa using not_newline_neutralize i.line
  have hlength : lineLength ('#' :: neutralize i.content ++ '\n' :: neutralize rest) =
      ('#' :: neutralize i.content).length := lineLength_append hline (Or.inr rfl)
  have hstep : step isalnum ('#' :: neutralize i.content ++ '\n' :: neutralize rest) =
      .next (lineLength ('#' :: neutralize i.content ++ '\n' :: neutralize rest)) := rfl
  rw [i.neutral, ← List.cons_append, scanAll_eq, hstep, hlength, resume, List.drop_left,
    scanAll_space isalnum (by decide)]

theorem scan_trivia (gap : List Trivia) (rest prefix_ : Text) (bodies : Bodies) :
    scanAll isalnum (neutralize (gap.flatMap Trivia.text ++ rest)) prefix_ bodies =
      scanAll isalnum (neutralize rest) prefix_ bodies := by
  induction gap with
  | nil => rfl
  | cons t gap ih =>
      rw [List.flatMap_cons, List.append_assoc]
      cases t with
      | remark r => exact (scan_remark r _ prefix_ bodies).trans ih
      | directive i => exact (scan_directive i _ prefix_ bodies).trans ih

end Trivia

-- Labels in front of an item are taken for a part of it.
section Labels

theorem Access.word (a : Access) (isalnum : Char → Bool) :
    a.text ≠ [] ∧ a.text ∉ scope_words ∧ (∀ c ∈ a.text, isword isalnum c = true) ∧
      ∀ c, a.text.head? = some c → ident_start c = true := by
  have hword : (a.text.all fun c => c.isAlphanum || c = '_') = true := by
    cases a with
    | public_ => decide
    | protected_ => decide
    | private_ => decide
  refine ⟨?_, ?_, isword_ascii isalnum hword, fun c hc => ?_⟩
  · cases a with
    | public_ => decide
    | protected_ => decide
    | private_ => decide
  · cases a with
    | public_ => decide
    | protected_ => decide
    | private_ => decide
  · cases a with
    | public_ => cases hc; rfl
    | protected_ => cases hc; rfl
    | private_ => cases hc; rfl

theorem takeWhile_before {p : Char → Bool} {c : Char} (hc : p c = false) (u t : Text) :
    (u ++ c :: t).takeWhile p = u.takeWhile p := by
  induction u with
  | nil => rw [List.nil_append, List.takeWhile_cons, if_neg (by rw [hc]; decide)]; rfl
  | cons d u ih => rw [List.cons_append, List.takeWhile_cons, List.takeWhile_cons, ih]

theorem neutralize_labels (l : Label) (labels : List Label) :
    neutralize ((l :: labels).flatMap Label.text) = l.access.text ++ (l.gap.text ++
      ':' :: (neutralize (l.behind.flatMap Remark.text) ++
        neutralize (labels.flatMap Label.text))) := by
  rw [List.flatMap_cons, l.whole.complete, l.neutral]
  simp

theorem begins_labels (labels : List Label) {t : Text}
    (h : begins_item t = true ∧ t.head? ≠ some '}') :
    begins_item (neutralize (labels.flatMap Label.text) ++ t) = true ∧
      (neutralize (labels.flatMap Label.text) ++ t).head? ≠ some '}' := by
  cases labels with
  | nil => exact h
  | cons l labels =>
      obtain ⟨hne, _, _, hstart⟩ := l.access.word fun _ => false
      obtain ⟨c, u, hcons⟩ := List.exists_cons_of_ne_nil hne
      have hhead : (neutralize ((l :: labels).flatMap Label.text) ++ t).head? = some c := by
        rw [neutralize_labels, hcons]
        rfl
      exact begins_letter hhead (hstart c (by rw [hcons]; rfl))

theorem opened_labels (labels : List Label) {t : Text}
    (h : labels = [] → opened isalnum t = none) :
    opened isalnum (neutralize (labels.flatMap Label.text) ++ t) = none := by
  cases labels with
  | nil => exact h rfl
  | cons l labels =>
      obtain ⟨_, hscope, hword, _⟩ := l.access.word isalnum
      refine opened_none fun hbegins => hscope ?_
      have htake : (neutralize ((l :: labels).flatMap Label.text) ++ t).takeWhile
          (isword isalnum) = l.access.text := by
        rw [neutralize_labels, List.append_assoc]
        rw [List.append_assoc, List.cons_append]
        exact Regex.takeWhile_run hword (head?_spaces l.gap.isspace (Or.inr rfl) _)
      rw [← htake]
      exact hbegins.word

theorem clear_labels (labels : List Label) :
    Clear isalnum (neutralize (labels.flatMap Label.text)) := by
  rcases List.eq_nil_or_concat labels with rfl | ⟨labels, l, rfl⟩
  · exact clear_nil
  · have htext : neutralize ((labels.concat l).flatMap Label.text) =
        neutralize (labels.flatMap Label.text) ++ (l.access.text ++ (l.gap.text ++
          ':' :: neutralize (l.behind.flatMap Remark.text))) := by
      have hwhole : Whole (labels.flatMap Label.text) := whole_flatMap fun l _ => l.whole
      rw [List.concat_eq_append, List.flatMap_append, List.flatMap_singleton, hwhole.complete,
        l.neutral]
    rw [htext]
    rcases List.eq_nil_or_concat (neutralize (l.behind.flatMap Remark.text)) with hnil | ⟨u, c, hu⟩
    · have hcolon : (l.access.text ++ l.gap.text).getLast? ≠ some ':' := by
        intro hlast
        have hmem := List.mem_of_getLast? hlast
        rcases List.mem_append.mp hmem with hmem | hmem
        · have hword := (l.access.word isalnum).2.2.1 ':' hmem
          cases hword
        · exact absurd (l.gap.isspace ':' hmem) (by decide)
      have hassoc : neutralize (labels.flatMap Label.text) ++ (l.access.text ++ (l.gap.text ++
          [':'])) = neutralize (labels.flatMap Label.text) ++ (l.access.text ++ l.gap.text) ++
            [':'] := by simp
      rw [hnil, hassoc]
      refine clear_colon ?_
      rwa [List.getLast?_append_of_ne_nil]
      intro hempty
      exact (l.access.word isalnum).1 (List.append_eq_nil_iff.mp hempty).1
    · have hchar := neutralize_remarks c (by rw [hu]; simp)
      have hassoc : neutralize (labels.flatMap Label.text) ++ (l.access.text ++ (l.gap.text ++
          ':' :: u.concat c)) = neutralize (labels.flatMap Label.text) ++ (l.access.text ++
            (l.gap.text ++ ':' :: u)) ++ [c] := by simp
      rw [hu, hassoc]
      refine clear_concat ?_
      rintro (hword | rfl)
      · rcases hchar with hspace | rfl | rfl
        · rw [not_isword_of_isspace isalnum hspace] at hword
          cases hword
        · cases hword
        · cases hword
      · rcases hchar with hspace | hslash | hstar
        · exact absurd hspace (by decide)
        · exact absurd hslash (by decide)
        · exact absurd hstar (by decide)

end Labels

end Diagrams

end CortexFlow
