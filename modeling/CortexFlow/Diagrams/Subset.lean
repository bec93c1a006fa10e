import CortexFlow.Diagrams.Parse

namespace CortexFlow

namespace Diagrams

open Lib

variable {isalnum : Char → Bool}

def Bodies.insertAll (bodies : Bodies) (entries : List (Text × Text)) : Bodies :=
  entries.foldl (fun bodies entry => bodies.insert entry.1 entry.2) bodies

-- What the walk finds in the items: it takes what comes behind a label for a statement or a
-- function, whatever it is.
def Leaf.found (prefix_ : Text) : Leaf isalnum → List (Text × Text)
  | .function f => [(_join_qname prefix_ f.name.text, neutralize f.body)]
  | _ => []

def signature_found (isalnum : Char → Bool) (prefix_ signature body : Text) : List (Text × Text) :=
  match _extract_function_name isalnum signature with
  | none => []
  | some name => [(_join_qname prefix_ name, body)]

def Items.found (prefix_ : Text) : Items isalnum → List (Text × Text)
  | .nil _ => []
  | .leaf _ l rest => l.found prefix_ ++ rest.found prefix_
  | .scope lead head body rest =>
      (if lead.labels = [] then body.found (prefix_within prefix_ head.name)
        else signature_found isalnum prefix_
          (neutralize (lead.labels.flatMap Label.text ++ head.text)) (neutralize body.text)) ++
      rest.found prefix_

section Leaves

theorem begins_neutral {t : Text} (h : begins_item t = true) {c : Char}
    (hspace : isspace c = false) (hhash : c ≠ '#') (hslash : c ≠ '/') (hstar : c ≠ '*')
    (rest : Text) : begins_item (neutralize t ++ c :: rest) = true := by
  cases t with
  | nil => exact begins_of_head rfl hspace hhash hslash
  | cons d t =>
      obtain ⟨hspace', hhash', hopens⟩ := begins_cons.mp h
      rw [neutralize, neutralizeFrom_code hopens, List.cons_append]
      refine begins_cons.mpr ⟨hspace', hhash', ?_⟩
      rintro ⟨rfl, hhead⟩
      rw [if_neg (by decide)] at hhead
      cases t with
      | nil =>
          rcases hhead with hhead | hhead
          · exact hstar (Option.some.inj hhead)
          · exact hslash (Option.some.inj hhead)
      | cons e t =>
          have hne : neutralizeFrom .code (e :: t) ≠ [] := by
            intro hnil
            have hsame := head?_neutralizeFrom_code (e :: t)
            rw [hnil] at hsame
            cases hsame
          rw [head?_append_of_ne_nil hne, head?_neutralizeFrom_code] at hhead
          exact hopens ⟨rfl, hhead⟩

theorem bare_parens {u : Text} (hu : ∀ c ∈ u, c ∉ statement_ends) :
    parens u = true ∧ find_next_top 0 u = none :=
  ⟨Brackets.balanced_free fun c hc => (ne_of_quiet (hu c hc)).2,
    find_next_top_none (fun c hc => (ne_of_quiet (hu c hc)).1) 0⟩

-- Labels change nothing about where a statement ends.
theorem parens_labels (labels : List Label) {u : Text} (hparens : parens u = true)
    (hone : find_next_top 0 u = none) :
    parens (neutralize (labels.flatMap Label.text) ++ u) = true ∧
      find_next_top 0 (neutralize (labels.flatMap Label.text) ++ u) = none := by
  have hquiet : ∀ c ∈ neutralize (labels.flatMap Label.text), c ∉ statement_ends := quiet_labels
  obtain ⟨hlabels, hnone⟩ := bare_parens hquiet
  refine ⟨Brackets.balanced_append hlabels hparens, ?_⟩
  have happend := find_next_top_append hlabels hnone u
  rw [hone] at happend
  exact happend

theorem scan_labelled_statement (labels : List Label) {u : Text}
    (hbegin : ∀ rest, begins_item (u ++ ';' :: rest) = true) (hbraces : ∀ c ∈ u, c ≠ '{' ∧ c ≠ '}')
    (hparens : parens u = true) (hone : find_next_top 0 u = none) (t prefix_ : Text)
    (bodies : Bodies) :
    scanAll isalnum (neutralize (labels.flatMap Label.text) ++ (u ++ ';' :: t)) prefix_ bodies =
      scanAll isalnum t prefix_ bodies := by
  have hclose : (u ++ ';' :: t).head? ≠ some '}' :=
    head?_marker (fun c hc => (hbraces c hc).2) (by decide) t
  obtain ⟨hbegins, _⟩ := begins_labels labels ⟨hbegin t, hclose⟩
  obtain ⟨hparens', hone'⟩ := parens_labels labels hparens hone
  rw [← List.append_assoc] at hbegins ⊢
  refine scan_statement hbegins (fun c hc => ?_) hparens' hone' prefix_ bodies
  rcases List.mem_append.mp hc with hc | hc
  · exact (ne_of_quiet (quiet_labels c hc)).1.2
  · exact hbraces c hc

theorem scan_leaf_statement (labels : List Label) (s : Statement) (t prefix_ : Text)
    (bodies : Bodies) :
    scanAll isalnum (neutralize (labels.flatMap Label.text) ++ (neutralize s.text ++ ';' :: t))
      prefix_ bodies = scanAll isalnum t prefix_ bodies := by
  refine scan_labelled_statement labels (fun rest => ?_) (fun c hc => ?_) s.nested s.one t prefix_
    bodies
  · exact begins_neutral s.begins (by decide) (by decide) (by decide) (by decide) rest
  · simpa using List.all_eq_true.mp s.braceless c hc

theorem scan_leaf_forward (labels : List Label) (f : Forward isalnum) (t prefix_ : Text)
    (bodies : Bodies) :
    scanAll isalnum (neutralize (labels.flatMap Label.text) ++ (f.text ++ ';' :: t))
      prefix_ bodies = scanAll isalnum t prefix_ bodies := by
  obtain ⟨hparens, hone⟩ := bare_parens f.bare.quiet
  refine scan_labelled_statement labels (fun rest => ?_) (fun c hc => ?_) hparens hone t prefix_
    bodies
  · have hhead : ∃ c, (f.text ++ ';' :: rest).head? = some c ∧ ident_start c = true := by
      rw [Forward.text]
      cases f.key with
      | class_ => exact ⟨'c', rfl, rfl⟩
      | struct_ => exact ⟨'s', rfl, rfl⟩
    obtain ⟨c, hc, hstart⟩ := hhead
    exact (begins_letter hc hstart).1
  · exact (ne_of_quiet (f.bare.quiet c hc)).1.2

-- A signature, with labels in front of it.
theorem scan_labelled (labels : List Label) {u v t : Text}
    (hopened : labels = [] → opened isalnum (u ++ '{' :: (v ++ '}' :: t)) = none)
    (hbegin : begins_item (u ++ '{' :: (v ++ '}' :: t)) = true)
    (hclose : (u ++ '{' :: (v ++ '}' :: t)).head? ≠ some '}') (hparens : parens u = true)
    (hone : find_next_top 0 u = none) (hv : braces v = true) (prefix_ : Text) (bodies : Bodies) :
    scanAll isalnum (neutralize (labels.flatMap Label.text) ++ (u ++ '{' :: (v ++ '}' :: t)))
        prefix_ bodies =
      scanAll isalnum t prefix_ (bodies.insertAll (signature_found isalnum prefix_
        (neutralize (labels.flatMap Label.text) ++ u) v)) := by
  have hopened' : opened isalnum (neutralize (labels.flatMap Label.text) ++
      (u ++ '{' :: (v ++ '}' :: t))) = none := opened_labels labels hopened
  obtain ⟨hbegins, hclose'⟩ := begins_labels labels ⟨hbegin, hclose⟩
  obtain ⟨hparens', hone'⟩ := parens_labels labels hparens hone
  rw [← List.append_assoc] at hopened' hbegins hclose' ⊢
  rw [scan_braced hopened' hbegins hclose' hparens' hone' hv, signature_found]
  cases _extract_function_name isalnum (neutralize (labels.flatMap Label.text) ++ u) with
  | none => rfl
  | some name => rfl

theorem extract_quiet {u : Text} (hu : ∀ c ∈ u, c ∉ statement_ends) :
    _extract_function_name isalnum u = none := by
  have hgroup : find_group 0 none 0 u = none := by
    have hskip := find_group_skip (fun c hc => (ne_of_quiet (hu c hc)).2) 0 []
    rwa [List.append_nil] at hskip
  rw [extract_eq, hgroup]

theorem scan_leaf_member (labels : List Label) (m : Member isalnum) (t prefix_ : Text)
    (bodies : Bodies) :
    scanAll isalnum (neutralize (labels.flatMap Label.text) ++ (neutralize m.head ++
        '{' :: (neutralize m.value ++ '}' :: (m.trail.text ++ ';' :: t)))) prefix_ bodies =
      scanAll isalnum t prefix_ bodies := by
  have hquiet : ∀ c ∈ neutralize m.head, c ∉ statement_ends := by
    intro c hc
    simpa using List.all_eq_true.mp m.plain c hc
  have hopened (t : Text) : opened isalnum (neutralize m.head ++ '{' :: t) = none := by
    refine opened_none fun hbegins => m.word ?_
    have hword := hbegins.word
    rwa [takeWhile_before (by rfl)] at hword
  have hclose (t : Text) : (neutralize m.head ++ '{' :: t).head? ≠ some '}' :=
    head?_marker (fun c hc => (ne_of_quiet (hquiet c hc)).1.2.2) (by decide) t
  obtain ⟨hparens, hone⟩ := bare_parens hquiet
  have hextract : signature_found isalnum prefix_ (neutralize (labels.flatMap Label.text) ++
      neutralize m.head) (neutralize m.value) = [] := by
    rw [signature_found, extract_quiet]
    intro c hc
    rcases List.mem_append.mp hc with hc | hc
    · exact quiet_labels c hc
    · exact hquiet c hc
  rw [scan_labelled labels (fun _ => hopened _)
    (begins_neutral m.begins (by decide) (by decide) (by decide) (by decide) _) (hclose _) hparens
    hone m.nested, hextract, scanAll_spaces isalnum m.trail.isspace, scanAll_semicolon]
  rfl

theorem QualName.front (n : QualName isalnum) : ∃ (i : Ident isalnum) (rest : Text),
    n.text = i.text ++ rest ∧ (rest = [] ∨ rest.head? = some ':') := by
  obtain ⟨scopes, last⟩ := n
  cases scopes with
  | nil => exact ⟨last, [], by simp [QualName.text], Or.inl rfl⟩
  | cons i scopes =>
      refine ⟨i, "::".toList ++ (⟨scopes, last⟩ : QualName isalnum).text, ?_, Or.inr rfl⟩
      simp [QualName.text]

-- No scope begins with a name, unless it is one of the words.
theorem not_begins_name (n : QualName isalnum) {u t : Text} {c : Char}
    (hu : ∀ d ∈ u, isspace d = true) (hc : isspace c = false)
    (hnext : u ≠ [] ∨ isword isalnum c = false)
    (hword : n.text ∉ scope_words ∨ ¬(ident_start c = true ∨ c = '{')) :
    ¬Begins isalnum (n.text ++ (u ++ c :: t)) := by
  intro hbegins
  obtain ⟨i, rest, htext, hrest⟩ := n.front
  obtain ⟨d, hd, hopens⟩ := hbegins.next
  have hfirst := hbegins.word
  rcases hrest with rfl | hcolon
  · rw [List.append_nil] at htext
    rw [htext] at hd hfirst hword
    obtain ⟨htake, hchar⟩ := next_char_eq (s := t) i.isword hu hc hnext
    rw [htake] at hfirst
    rw [hchar] at hd
    cases hd
    exact hword.elim (fun h => h hfirst) fun h => h hopens
  · obtain ⟨rest, rfl⟩ := List.head?_eq_some_iff.mp hcolon
    rw [htext, List.append_assoc, List.cons_append] at hd
    have hnil : ∀ d ∈ ([] : Text), isspace d = true := by simp
    have hstop : ([] : Text) ≠ [] ∨ isword isalnum ':' = false := Or.inr rfl
    obtain ⟨_, hchar⟩ := next_char_eq (s := rest ++ (u ++ c :: t)) i.isword hnil (by decide) hstop
    rw [List.nil_append] at hchar
    rw [hchar] at hd
    cases hd
    rcases hopens with hopens | hopens
    · cases hopens
    · exact absurd hopens (by decide)

theorem QualName.head (n : QualName isalnum) (t : Text) :
    ∃ c r, n.text ++ t = c :: r ∧ ident_start c = true := by
  obtain ⟨i, rest, htext, _⟩ := n.front
  refine ⟨i.first, i.rest ++ rest ++ t, ?_, i.first_ok⟩
  rw [htext]
  simp [Ident.text]

theorem types_head (types : List (QualName isalnum × Spaces1)) (name : QualName isalnum)
    (t : Text) :
    ∃ c r, types.flatMap (fun t => t.1.text ++ t.2.text) ++ (name.text ++ t) = c :: r ∧
      ident_start c = true := by
  cases types with
  | nil => exact name.head t
  | cons type types =>
      rw [List.flatMap_cons, List.append_assoc, List.append_assoc]
      exact type.1.head _

theorem not_begins_types {types : List (QualName isalnum × Spaces1)}
    (hok : ∀ t ∈ types, t.1.text ∉ scope_words) (name : QualName isalnum) (gap : Spaces)
    (t : Text) :
    ¬Begins isalnum (types.flatMap (fun t => t.1.text ++ t.2.text) ++
      (name.text ++ (gap.text ++ '(' :: t))) := by
  cases types with
  | nil => exact not_begins_name name gap.isspace (by decide) (Or.inr rfl) (Or.inr (by decide))
  | cons type types =>
      obtain ⟨c, r, hhead, hc⟩ := types_head types name (gap.text ++ '(' :: t)
      rw [List.flatMap_cons, List.append_assoc, List.append_assoc, hhead]
      exact not_begins_name type.1 type.2.isspace (not_isspace_of_start hc)
        (Or.inl type.2.ne_nil) (Or.inl (hok type List.mem_cons_self))

theorem Function.clear (f : Function isalnum) (labels : List Label) :
    Clear isalnum (neutralize (labels.flatMap Label.text) ++ f.types_text) := by
  rw [Function.types_text]
  rcases List.eq_nil_or_concat f.types with htypes | ⟨types, type, htypes⟩
  · rw [htypes, List.flatMap_nil, List.append_nil]
    exact clear_labels labels
  · rw [htypes, List.concat_eq_append, List.flatMap_append, List.flatMap_singleton]
    rcases List.eq_nil_or_concat type.2.text with hnil | ⟨u, c, hspaces⟩
    · exact absurd hnil type.2.ne_nil
    · have hspace : isspace c = true := type.2.isspace c (by rw [hspaces]; simp)
      rw [hspaces, List.concat_eq_append, ← List.append_assoc, ← List.append_assoc,
        ← List.append_assoc]
      refine clear_concat fun hname => ?_
      rw [not_isspace_of_name_char hname] at hspace
      cases hspace

-- A signature, without what comes before the types.
def Function.signature (f : Function isalnum) : Text :=
  f.types_text ++ (f.name.text ++ (f.gap.text ++ '(' :: (neutralize f.args ++ ')' :: f.tail_text)))

theorem Function.signature_one (f : Function isalnum) :
    parens f.signature = true ∧ find_next_top 0 f.signature = none := by
  have hfront : Bare (f.types_text ++ (f.name.text ++ f.gap.text)) :=
    bare_append f.bare_types (bare_append (bare_name _) (bare_spaces _))
  obtain ⟨hparens, hone⟩ := bare_parens hfront.quiet
  obtain ⟨htail, hnone⟩ := bare_parens f.bare_tail.quiet
  have hsplit : f.signature = f.types_text ++ (f.name.text ++ f.gap.text) ++
      '(' :: (neutralize f.args ++ ')' :: f.tail_text) := by
    simp [Function.signature]
  have hargs : find_next_top 0 ('(' :: (neutralize f.args ++ ')' :: f.tail_text)) = none := by
    have hnext := find_next_top_args f.args_parens f.tail_text
    rw [hnone] at hnext
    exact Option.map_eq_none_iff.mpr hnext
  have hall := find_next_top_append hparens hone ('(' :: (neutralize f.args ++ ')' :: f.tail_text))
  rw [hargs] at hall
  rw [hsplit]
  exact ⟨Brackets.balanced_append hparens
    (Brackets.balanced_wrap (by decide) f.args_parens htail), hall⟩

theorem scan_leaf_function (labels : List Label) (f : Function isalnum) (t prefix_ : Text)
    (bodies : Bodies) :
    scanAll isalnum (neutralize (labels.flatMap Label.text) ++ (f.signature ++
        '{' :: (neutralize f.body ++ '}' :: t))) prefix_ bodies =
      scanAll isalnum t prefix_ (bodies.insertAll ((Leaf.function f).found prefix_)) := by
  obtain ⟨hparens, hone⟩ := f.signature_one
  have hassoc (t : Text) : f.signature ++ t = f.types_text ++ (f.name.text ++ (f.gap.text ++
      '(' :: (neutralize f.args ++ ')' :: (f.tail_text ++ t)))) := by
    simp [Function.signature]
  have hopened (t : Text) : opened isalnum (f.signature ++ t) = none := by
    rw [hassoc]
    exact opened_none (not_begins_types f.types_ok f.name f.gap _)
  have hhead (t : Text) : begins_item (f.signature ++ t) = true ∧
      (f.signature ++ t).head? ≠ some '}' := by
    obtain ⟨c, r, hcons, hc⟩ := types_head f.types f.name (f.gap.text ++
      '(' :: (neutralize f.args ++ ')' :: (f.tail_text ++ t)))
    refine begins_letter (c := c) ?_ hc
    rw [hassoc, Function.types_text, hcons]
    rfl
  have hquiet : ∀ c ∈ neutralize (labels.flatMap Label.text) ++ f.types_text,
      c ≠ '(' ∧ c ≠ ')' := by
    intro c hc
    rcases List.mem_append.mp hc with hc | hc
    · exact (ne_of_quiet (quiet_labels c hc)).2
    · exact (ne_of_quiet (f.bare_types.quiet c hc)).2
  have hextract := f.extract (f.clear labels) hquiet
  rw [scan_labelled labels (fun _ => hopened _) (hhead _).1 (hhead _).2 hparens hone f.body_braces,
    signature_found, Function.signature, ← List.append_assoc, hextract]
  rfl

theorem scan_leaf (labels : List Label) (l : Leaf isalnum) (rest prefix_ : Text) (bodies : Bodies) :
    scanAll isalnum (neutralize (labels.flatMap Label.text ++ (l.text ++ rest))) prefix_ bodies =
      scanAll isalnum (neutralize rest) prefix_ (bodies.insertAll (l.found prefix_)) := by
  have hlabels : Whole (labels.flatMap Label.text) := whole_flatMap fun l _ => l.whole
  rw [hlabels.complete]
  cases l with
  | statement s =>
      have htext : (Leaf.statement s : Leaf isalnum).text ++ rest = s.text ++ ';' :: rest := by
        simp [Leaf.text]
      rw [htext, s.neutral]
      exact scan_leaf_statement labels s _ prefix_ bodies
  | forward f =>
      have htext : (Leaf.forward f).text ++ rest = f.text ++ ';' :: rest := by simp [Leaf.text]
      rw [htext, neutralize_plain f.bare.plain, neutralize_cons rfl]
      exact scan_leaf_forward labels f _ prefix_ bodies
  | member m =>
      have htext : (Leaf.member m).text ++ rest = m.text ++ ';' :: rest := by simp [Leaf.text]
      rw [htext, m.neutral]
      exact scan_leaf_member labels m _ prefix_ bodies
  | function f =>
      have hsignature : neutralize ((Leaf.function f).text ++ rest) = f.signature ++
          '{' :: (neutralize f.body ++ '}' :: neutralize rest) := by
        rw [Leaf.text, f.neutral, Function.signature]
        simp
      rw [hsignature]
      exact scan_leaf_function labels f _ prefix_ bodies

end Leaves

section Items

theorem insertAll_append (bodies : Bodies) (a b : List (Text × Text)) :
    bodies.insertAll (a ++ b) = (bodies.insertAll a).insertAll b := List.foldl_append

theorem scanAll_nil (prefix_ : Text) (bodies : Bodies) :
    scanAll isalnum [] prefix_ bodies = bodies := scan_nil isalnum 0 prefix_ bodies

theorem scan_closing (h : Head isalnum) (rest prefix_ : Text) (bodies : Bodies) :
    scanAll isalnum (neutralize (h.closing ++ rest)) prefix_ bodies =
      scanAll isalnum (neutralize rest) prefix_ bodies := by
  cases h with
  | namespace_ => rfl
  | anonymous => rfl
  | class_ _ _ _ _ closing =>
      rw [Head.closing, List.append_assoc, neutralize_plain (bare_spaces closing).plain,
        scanAll_spaces isalnum closing.isspace, List.singleton_append, neutralize_cons rfl,
        scanAll_semicolon]

theorem scan_labelled_scope {labels : List Label} (hlabels : labels ≠ []) (h : Head isalnum)
    {v : Text} (hv : braces v = true) (t prefix_ : Text) (bodies : Bodies) :
    scanAll isalnum (neutralize (labels.flatMap Label.text) ++
        (neutralize h.text ++ '{' :: (v ++ '}' :: t))) prefix_ bodies =
      scanAll isalnum t prefix_ (bodies.insertAll (signature_found isalnum prefix_
        (neutralize (labels.flatMap Label.text) ++ neutralize h.text) v)) := by
  obtain ⟨c, hhead, hc⟩ := h.head ('{' :: (v ++ '}' :: t))
  obtain ⟨hbegin, hclose⟩ := begins_letter hhead hc
  have hone : find_next_top 0 (neutralize h.text) = none := find_next_top_none h.quiet 0
  exact scan_labelled labels (fun hnil => absurd hnil hlabels) hbegin hclose h.nested hone hv
    prefix_ bodies

-- The walk goes over the items one by one.
theorem scan_items (x : Items isalnum) (rest prefix_ : Text) (bodies : Bodies) :
    scanAll isalnum (neutralize (x.text ++ rest)) prefix_ bodies =
      scanAll isalnum (neutralize rest) prefix_ (bodies.insertAll (x.found prefix_)) := by
  induction x generalizing rest prefix_ bodies with
  | nil gap => exact scan_trivia gap rest prefix_ bodies
  | leaf lead l items ih =>
      have htext : (Items.leaf lead l items).text ++ rest = lead.gap.flatMap Trivia.text ++
          (lead.labels.flatMap Label.text ++ (l.text ++ (items.text ++ rest))) := by
        simp [Items.text, Lead.text]
      rw [htext, scan_trivia, scan_leaf, ih, Items.found, insertAll_append]
  | scope lead head body items ihbody ihitems =>
      have htext : (Items.scope lead head body items).text ++ rest =
          lead.gap.flatMap Trivia.text ++ (lead.labels.flatMap Label.text ++ (head.text ++
            '{' :: (body.text ++ '}' :: (head.closing ++ (items.text ++ rest))))) := by
        simp [Items.text, Lead.text]
      have hlabels : Whole (lead.labels.flatMap Label.text) := whole_flatMap fun l _ => l.whole
      have hneutral : neutralize (lead.labels.flatMap Label.text ++ (head.text ++
          '{' :: (body.text ++ '}' :: (head.closing ++ (items.text ++ rest))))) =
          neutralize (lead.labels.flatMap Label.text) ++ (neutralize head.text ++
            '{' :: (neutralize body.text ++
              '}' :: neutralize (head.closing ++ (items.text ++ rest)))) := by
        rw [hlabels.complete, head.ends, body.whole.complete, neutralize_cons rfl]
      have hbody : braces (neutralize body.text) = true := body.whole.nested
      rw [htext, scan_trivia, hneutral, Items.found, insertAll_append]
      by_cases hnil : lead.labels = []
      · have hinner := ihbody [] (prefix_within prefix_ head.name) bodies
        rw [List.append_nil, neutralize_nil, scanAll_nil] at hinner
        rw [if_pos hnil, hnil, List.flatMap_nil, neutralize_nil, List.nil_append,
          scan_scope head hbody, scan_closing, ihitems, hinner]
      · rw [if_neg hnil, scan_labelled_scope hnil head hbody, scan_closing, ihitems,
          hlabels.complete]

theorem functions_found (x : Items isalnum) :
    functions isalnum x.text = Bodies.insertAll [] (x.found []) := by
  have hscan := scan_items x [] [] []
  rw [List.append_nil, neutralize_nil, scanAll_nil] at hscan
  rw [functions_eq, ← hscan]

end Items

-- The dictionary of the bodies.
section Bodies

theorem keys_insert (bodies : Bodies) (name body : Text) :
    (bodies.insert name body).map Prod.fst =
      if name ∈ bodies.map Prod.fst then bodies.map Prod.fst
      else bodies.map Prod.fst ++ [name] := by
  unfold Bodies.insert
  split_ifs with hmem
  · rw [List.map_map]
    refine List.map_congr_left fun entry _ => ?_
    by_cases hname : entry.1 = name
    · simp [hname]
    · simp [hname]
  · simp

theorem nodup_insert {bodies : Bodies} (h : (bodies.map Prod.fst).Nodup) (name body : Text) :
    ((bodies.insert name body).map Prod.fst).Nodup := by
  rw [keys_insert]
  split_ifs with hmem
  · exact h
  · exact h.append (List.nodup_singleton _) (List.disjoint_singleton.mpr hmem)

theorem lookup_cons_of_ne {key other : Text} (h : other ≠ key) (value : Text) (bodies : Bodies) :
    List.lookup other ((key, value) :: bodies) = bodies.lookup other := by
  rw [List.lookup_cons, beq_eq_false_iff_ne.mpr h]

theorem lookup_overwritten {bodies : Bodies} {name : Text} (h : name ∈ bodies.map Prod.fst)
    (body : Text) :
    (bodies.map fun entry => if entry.1 = name then (name, body) else entry).lookup name =
      some body := by
  induction bodies with
  | nil => cases h
  | cons entry bodies ih =>
      obtain ⟨key, value⟩ := entry
      rw [List.map_cons]
      by_cases hname : key = name
      · rw [if_pos hname, List.lookup_cons_self]
      · rw [if_neg hname, lookup_cons_of_ne (Ne.symm hname)]
        exact ih ((List.mem_cons.mp h).resolve_left (Ne.symm hname))

theorem lookup_other {name other : Text} (h : other ≠ name) (body : Text) (bodies : Bodies) :
    (bodies.map fun entry => if entry.1 = name then (name, body) else entry).lookup other =
      bodies.lookup other := by
  induction bodies with
  | nil => rfl
  | cons entry bodies ih =>
      obtain ⟨key, value⟩ := entry
      rw [List.map_cons]
      by_cases hname : key = name
      · rw [if_pos hname, lookup_cons_of_ne h, hname, lookup_cons_of_ne h, ih]
      · rw [if_neg hname, List.lookup_cons, List.lookup_cons, ih]

theorem lookup_insert (bodies : Bodies) (name body other : Text) :
    (bodies.insert name body).lookup other =
      if other = name then some body else bodies.lookup other := by
  unfold Bodies.insert
  split_ifs with hmem hother hother
  · rw [hother, lookup_overwritten hmem]
  · exact lookup_other hother body bodies
  · have hnone : bodies.lookup name = none := by
      refine List.lookup_eq_none_iff.mpr fun entry hentry => bne_iff_ne.mpr ?_
      exact fun hname => hmem (hname ▸ List.mem_map_of_mem hentry)
    rw [hother, List.lookup_append, hnone, List.lookup_cons_self]
    rfl
  · rw [List.lookup_append, lookup_cons_of_ne hother, List.lookup_nil, Option.or_none]

theorem lookup_insertAll (entries : List (Text × Text)) (bodies : Bodies) (name : Text) :
    (bodies.insertAll entries).lookup name =
      (last_of name entries).or (bodies.lookup name) := by
  induction entries generalizing bodies with
  | nil => rfl
  | cons entry entries ih =>
      have hinsert : bodies.insertAll (entry :: entries) =
          (bodies.insert entry.1 entry.2).insertAll entries := rfl
      rw [hinsert, ih, lookup_insert, last_of, last_of, List.reverse_cons, List.lookup_append,
        Option.or_assoc, List.lookup_singleton]
      by_cases hname : name = entry.1
      · rw [if_pos hname, hname, beq_self_eq_true]
        rfl
      · rw [if_neg hname, beq_eq_false_iff_ne.mpr hname]
        rfl

theorem nodup_insertAll {bodies : Bodies} (h : (bodies.map Prod.fst).Nodup)
    (entries : List (Text × Text)) : ((bodies.insertAll entries).map Prod.fst).Nodup := by
  induction entries generalizing bodies with
  | nil => exact h
  | cons entry entries ih => exact ih (nodup_insert h entry.1 entry.2)

theorem mem_iff_lookup {bodies : Bodies} (h : (bodies.map Prod.fst).Nodup) (name body : Text) :
    (name, body) ∈ bodies ↔ bodies.lookup name = some body := by
  induction bodies with
  | nil => simp
  | cons entry bodies ih =>
      obtain ⟨key, value⟩ := entry
      obtain ⟨hkey, hrest⟩ := List.nodup_cons.mp h
      by_cases hname : name = key
      · subst hname
        have hnot : (name, body) ∉ bodies := fun hmem => hkey (List.mem_map.mpr ⟨_, hmem, rfl⟩)
        rw [List.lookup_cons_self, List.mem_cons, Option.some_inj, Prod.mk.injEq]
        exact ⟨fun hmem => (hmem.resolve_right hnot).2.symm, fun hbody => Or.inl ⟨rfl, hbody.symm⟩⟩
      · rw [lookup_cons_of_ne hname, ← ih hrest, List.mem_cons, Prod.mk.injEq]
        exact ⟨fun hmem => hmem.resolve_left fun heq => hname heq.1, Or.inr⟩

theorem nodup_functions (x : Items isalnum) : ((functions isalnum x.text).map Prod.fst).Nodup := by
  have hempty : (List.map Prod.fst ([] : Bodies)).Nodup := List.nodup_nil
  rw [functions_found]
  exact nodup_insertAll hempty _

theorem mem_functions (x : Items isalnum) (name body : Text) :
    (name, body) ∈ functions isalnum x.text ↔ last_of name (x.found []) = some body := by
  rw [mem_iff_lookup (nodup_functions x), functions_found, lookup_insertAll, List.lookup_nil,
    Option.or_none]

end Bodies

-- Without labels the walk finds what is defined.
section Unlabelled

theorem intercalate_concat (scopes : List Text) (name : Text) :
    "::".toList.intercalate (scopes ++ [name]) =
      if scopes = [] then name else "::".toList.intercalate scopes ++ ("::".toList ++ name) := by
  induction scopes with
  | nil => exact List.intercalate_singleton
  | cons scope scopes ih =>
      rw [if_neg (List.cons_ne_nil _ _), List.cons_append,
        List.intercalate_cons_of_ne_nil (List.append_ne_nil_of_right_ne_nil _ (by simp)), ih]
      cases scopes with
      | nil => rw [if_pos rfl, List.intercalate_singleton, List.append_assoc]
      | cons next scopes =>
          rw [if_neg (List.cons_ne_nil _ _), List.intercalate_cons_cons]
          simp only [List.append_assoc]

theorem intercalate_ne_nil {scopes : List Text} (hne : scopes ≠ [])
    (hscopes : ∀ scope ∈ scopes, scope ≠ []) : "::".toList.intercalate scopes ≠ [] := by
  obtain ⟨init, last, hcases⟩ := (List.eq_nil_or_concat scopes).resolve_left hne
  rw [List.concat_eq_append] at hcases
  have hlast : last ≠ [] := hscopes last (by rw [hcases]; simp)
  rw [hcases, intercalate_concat]
  split_ifs with hnil
  · exact hlast
  · intro hempty
    exact hlast (List.append_eq_nil_iff.mp (List.append_eq_nil_iff.mp hempty).2).2

theorem join_qname {scopes : List Text} (hscopes : ∀ scope ∈ scopes, scope ≠ []) (name : Text) :
    _join_qname ("::".toList.intercalate scopes) name = qualified_name scopes name := by
  rw [_join_qname, qualified_name, intercalate_concat]
  by_cases hnil : scopes = []
  · rw [if_pos hnil, hnil, if_pos List.intercalate_nil]
  · rw [if_neg hnil, if_neg (intercalate_ne_nil hnil hscopes), List.append_assoc]

theorem Leaf.found_defined (l : Leaf isalnum) {scopes : List Text}
    (hscopes : ∀ scope ∈ scopes, scope ≠ []) :
    l.found ("::".toList.intercalate scopes) = l.defined scopes := by
  cases l with
  | statement s => rfl
  | forward f => rfl
  | member m => rfl
  | function f => rw [Leaf.found, Leaf.defined, join_qname hscopes]

theorem Head.name_ne_nil (h : Head isalnum) : ∀ name ∈ h.name.toList, name ≠ [] := by
  intro name hname
  cases h with
  | namespace_ _ i _ =>
      rw [List.mem_singleton.mp hname]
      exact i.ne_nil
  | anonymous => cases hname
  | class_ _ _ i _ _ =>
      rw [List.mem_singleton.mp hname]
      exact i.ne_nil

theorem prefix_within_scopes (h : Head isalnum) {scopes : List Text}
    (hscopes : ∀ scope ∈ scopes, scope ≠ []) :
    prefix_within ("::".toList.intercalate scopes) h.name =
      "::".toList.intercalate (scopes ++ h.name.toList) := by
  cases h.name with
  | none => rw [prefix_within, Option.toList, List.append_nil]
  | some name => exact join_qname hscopes name

theorem scopes_within {scopes : List Text} (hscopes : ∀ scope ∈ scopes, scope ≠ [])
    (head : Head isalnum) : ∀ scope ∈ scopes ++ head.name.toList, scope ≠ [] := by
  intro scope hscope
  rcases List.mem_append.mp hscope with hscope | hscope
  · exact hscopes scope hscope
  · exact head.name_ne_nil scope hscope

theorem Items.found_defined {x : Items isalnum} (h : x.unlabelled) {scopes : List Text}
    (hscopes : ∀ scope ∈ scopes, scope ≠ []) :
    x.found ("::".toList.intercalate scopes) = x.defined scopes := by
  induction x generalizing scopes with
  | nil gap => rfl
  | leaf lead l rest ih => rw [Items.found, Items.defined, l.found_defined hscopes, ih h.2 hscopes]
  | scope lead head body rest ihbody ihrest =>
      obtain ⟨hlabels, hbody, hrest⟩ := h
      rw [Items.found, Items.defined, if_pos hlabels, prefix_within_scopes head hscopes,
        ihbody hbody (scopes_within hscopes head), ihrest hrest hscopes]

-- From the text of a tree of items `functions` gets back what is defined in it: each name
-- once, with the body of its last definition.
theorem functions_items {x : Items isalnum} (h : x.unlabelled) :
    ((functions isalnum x.text).map Prod.fst).Nodup ∧
      ∀ name body, (name, body) ∈ functions isalnum x.text ↔
        last_of name (x.defined []) = some body := by
  have hscopes : ∀ scope ∈ ([] : List Text), scope ≠ [] := List.forall_mem_nil _
  have hfound : x.found [] = x.defined [] := Items.found_defined h hscopes
  refine ⟨nodup_functions x, fun name body => ?_⟩
  rw [mem_functions, hfound]

-- `int x; namespace n { struct S { void f() { g(); } }; }`, with a directive and a comment.
def layout : List Trivia := [.remark (.spaces .one)]

def word (first : Char) (rest : String) (h : ident_start first = true)
    (hrest : rest.toList.all (isword fun _ => false) = true) : QualName fun _ => false :=
  ⟨[], first, rest.toList, h, hrest⟩

def space : Spaces1 := ⟨.one, List.cons_ne_nil _ _⟩

def handler : Function fun _ => false where
  types := [(word 'v' "oid" rfl rfl, space)]
  types_ok := by decide
  name := word 'f' "" rfl rfl
  name_ok := by decide
  gap := .none
  args := []
  args_ends := rfl
  args_parens := rfl
  args_braces := rfl
  qualifiers := []
  trail := .one
  body := " g(); ".toList
  body_ends := by decide
  body_braces := by decide

def letter (c : Char) (h : ident_start c = true) : Ident fun _ => false := ⟨c, [], h, rfl⟩

def inner_name : Ident fun _ => false := letter 'S' rfl

def sample : Items fun _ => false :=
  .leaf ⟨[.directive ⟨"include <x>".toList, by decide, by decide, by decide⟩,
      .remark (.line " n".toList (by decide))], []⟩
    (.statement ⟨"int x".toList, by decide, by decide, by decide, by decide, by decide⟩)
    (.scope ⟨layout, []⟩ (.namespace_ space (letter 'n' rfl) .one)
      (.scope ⟨layout, []⟩ (.class_ .struct_ space inner_name (.spaces .one) .none)
        (.leaf ⟨layout, []⟩ (.function handler) (.nil layout)) (.nil layout))
      (.nil []))

theorem functions_sample : sample.defined [] = [("n::S::f".toList, " g(); ".toList)] ∧
    ((functions (fun _ => false) sample.text).map Prod.fst).Nodup ∧
      ∀ name body, (name, body) ∈ functions (fun _ => false) sample.text ↔
        last_of name (sample.defined []) = some body :=
  ⟨by decide +kernel, functions_items ⟨rfl, rfl, ⟨rfl, ⟨rfl, trivial⟩, trivial⟩, trivial⟩⟩

end Unlabelled

end Diagrams

end CortexFlow
