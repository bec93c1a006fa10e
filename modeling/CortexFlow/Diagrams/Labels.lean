import CortexFlow.Diagrams.Subset

namespace CortexFlow

namespace Diagrams

open Lib

variable {isalnum : Char → Bool}

-- The same items, with other labels and another layout before them.
inductive Items.Relabelled : Items isalnum → Items isalnum → Prop
  | nil (gap gap' : List Trivia) : Relabelled (.nil gap) (.nil gap')
  | leaf (lead lead' : Lead) (l : Leaf isalnum) {rest rest' : Items isalnum}
      (hrest : Relabelled rest rest') : Relabelled (.leaf lead l rest) (.leaf lead' l rest')
  | scope (lead lead' : Lead) (head : Head isalnum) {body body' rest rest' : Items isalnum}
      (hbody : Relabelled body body') (hrest : Relabelled rest rest') :
      Relabelled (.scope lead head body rest) (.scope lead' head body' rest')

-- The same names, each with the same body.
def SameFunctions (bodies bodies' : Bodies) : Prop :=
  ∀ name body, (name, body) ∈ bodies ↔ (name, body) ∈ bodies'

-- What is defined in scopes with a label right before them.
def Items.hidden (scopes : List Text) : Items isalnum → List (Text × Text)
  | .nil _ => []
  | .leaf _ _ rest => rest.hidden scopes
  | .scope lead head body rest =>
      (if lead.labels = [] then body.hidden (scopes ++ head.name.toList)
        else body.defined (scopes ++ head.name.toList)) ++ rest.hidden scopes

-- What is defined elsewhere.
def Items.visible (scopes : List Text) : Items isalnum → List (Text × Text)
  | .nil _ => []
  | .leaf _ l rest => l.defined scopes ++ rest.visible scopes
  | .scope lead head body rest =>
      (if lead.labels = [] then body.visible (scopes ++ head.name.toList) else []) ++
        rest.visible scopes

-- What is taken for a function where a label stands before a scope.
def Items.misread (prefix_ : Text) : Items isalnum → List (Text × Text)
  | .nil _ => []
  | .leaf _ _ rest => rest.misread prefix_
  | .scope lead head body rest =>
      (if lead.labels = [] then body.misread (prefix_within prefix_ head.name)
        else signature_found isalnum prefix_
          (neutralize (lead.labels.flatMap Label.text ++ head.text)) (neutralize body.text)) ++
      rest.misread prefix_

-- The names on which the labels have a bearing.
def Items.touched (x : Items isalnum) : List Text :=
  (x.hidden [] ++ x.misread []).map Prod.fst

-- No base clause has parentheses.
def Items.parenless : Items isalnum → Prop
  | .nil _ => True
  | .leaf _ _ rest => rest.parenless
  | .scope _ head body rest =>
      '(' ∉ neutralize head.text ∧ body.parenless ∧ rest.parenless

section LastOf

theorem last_of_append (name : Text) (a b : List (Text × Text)) :
    last_of name (a ++ b) = (last_of name b).or (last_of name a) := by
  rw [last_of, List.reverse_append, List.lookup_append]
  rfl

theorem last_of_none {name : Text} {entries : List (Text × Text)}
    (h : name ∉ entries.map Prod.fst) : last_of name entries = none := by
  refine List.lookup_eq_none_iff.mpr fun entry hentry => bne_iff_ne.mpr ?_
  rintro rfl
  exact h (List.mem_map_of_mem (List.mem_reverse.mp hentry))

-- Where no name comes twice, what is last is all there is.
theorem last_of_iff {entries : List (Text × Text)} (h : (entries.map Prod.fst).Nodup)
    (name body : Text) : last_of name entries = some body ↔ (name, body) ∈ entries := by
  have hreverse : (entries.reverse.map Prod.fst).Nodup := by
    rw [List.map_reverse]
    exact List.nodup_reverse.mpr h
  rw [last_of, ← mem_iff_lookup hreverse, List.mem_reverse]

end LastOf

section Scopes

theorem defined_relabelled {x y : Items isalnum} (h : x.Relabelled y) (scopes : List Text) :
    x.defined scopes = y.defined scopes := by
  induction h generalizing scopes with
  | nil gap gap' => rfl
  | leaf lead lead' l _ ih => rw [Items.defined, Items.defined, ih]
  | scope lead lead' head _ _ ihbody ihrest =>
      rw [Items.defined, Items.defined, ihbody, ihrest]

theorem parenless_relabelled {x y : Items isalnum} (h : x.Relabelled y) (hx : x.parenless) :
    y.parenless := by
  induction h with
  | nil gap gap' => exact trivial
  | leaf lead lead' l _ ih => exact ih hx
  | scope lead lead' head _ _ ihbody ihrest => exact ⟨hx.1, ihbody hx.2.1, ihrest hx.2.2⟩

theorem defined_perm (x : Items isalnum) (scopes : List Text) :
    (x.defined scopes).Perm (x.visible scopes ++ x.hidden scopes) := by
  induction x generalizing scopes with
  | nil gap => exact .refl _
  | leaf lead l rest ih =>
      rw [Items.defined, Items.visible, Items.hidden, List.append_assoc]
      exact (ih scopes).append_left _
  | scope lead head body rest ihbody ihrest =>
      rw [Items.defined, Items.visible, Items.hidden]
      have hmiddle (a b c d : List (Text × Text)) :
          ((a ++ b) ++ (c ++ d)).Perm ((a ++ c) ++ (b ++ d)) := by
        rw [List.append_assoc, List.append_assoc, ← List.append_assoc b, ← List.append_assoc c]
        exact (List.perm_append_comm.append_right d).append_left a
      split_ifs with hlabels
      · exact ((ihbody _).append (ihrest scopes)).trans (hmiddle _ _ _ _)
      · have hrest := (ihrest scopes).append_left (body.defined (scopes ++ head.name.toList))
        refine hrest.trans ?_
        rw [List.nil_append]
        exact hmiddle [] _ _ _

-- Labels have a bearing on the names of the touched functions only.
theorem last_of_found {x : Items isalnum} {scopes : List Text}
    (hscopes : ∀ scope ∈ scopes, scope ≠ []) {name : Text}
    (hhidden : name ∉ (x.hidden scopes).map Prod.fst)
    (hmisread : name ∉ (x.misread ("::".toList.intercalate scopes)).map Prod.fst) :
    last_of name (x.found ("::".toList.intercalate scopes)) =
      last_of name (x.defined scopes) := by
  induction x generalizing scopes with
  | nil gap => rfl
  | leaf lead l rest ih =>
      rw [Items.found, Items.defined, last_of_append, last_of_append, l.found_defined hscopes,
        ih hscopes hhidden hmisread]
  | scope lead head body rest ihbody ihrest =>
      rw [Items.hidden, List.map_append, List.mem_append, not_or] at hhidden
      rw [Items.misread, List.map_append, List.mem_append, not_or] at hmisread
      rw [Items.found, Items.defined, last_of_append, last_of_append,
        ihrest hscopes hhidden.2 hmisread.2]
      by_cases hlabels : lead.labels = []
      · rw [if_pos hlabels] at hhidden hmisread ⊢
        rw [prefix_within_scopes head hscopes] at hmisread ⊢
        rw [ihbody (scopes_within hscopes head) hhidden.1 hmisread.1]
      · rw [if_neg hlabels] at hhidden hmisread ⊢
        rw [last_of_none hhidden.1, last_of_none hmisread.1]

theorem signature_parenless {u : Text} (hu : '(' ∉ u) (prefix_ body : Text) :
    signature_found isalnum prefix_ u body = [] := by
  rw [signature_found, extract_eq]
  cases hgroup : find_group 0 none 0 u with
  | none => rfl
  | some group =>
      have hat := grouped hgroup
      rcases hat.opens with hsome | ⟨_, _, _, hopen⟩
      · cases hsome
      · exact absurd (List.mem_of_getElem? hopen) hu

theorem found_parenless {x : Items isalnum} (hx : x.parenless) {scopes : List Text}
    (hscopes : ∀ scope ∈ scopes, scope ≠ []) :
    x.found ("::".toList.intercalate scopes) = x.visible scopes := by
  induction x generalizing scopes with
  | nil gap => rfl
  | leaf lead l rest ih => rw [Items.found, Items.visible, l.found_defined hscopes, ih hx hscopes]
  | scope lead head body rest ihbody ihrest =>
      obtain ⟨hhead, hbody, hrest⟩ := hx
      rw [Items.found, Items.visible, ihrest hrest hscopes]
      by_cases hlabels : lead.labels = []
      · rw [if_pos hlabels, if_pos hlabels, prefix_within_scopes head hscopes,
          ihbody hbody (scopes_within hscopes head)]
      · have hall : Whole (lead.labels.flatMap Label.text) := whole_flatMap fun l _ => l.whole
        have hplain : '(' ∉ neutralize (lead.labels.flatMap Label.text ++ head.text) := by
          rw [hall.complete, List.mem_append, not_or]
          exact ⟨fun hmem => quiet_labels _ hmem (by decide), hhead⟩
        rw [if_neg hlabels, if_neg hlabels, signature_parenless hplain]

end Scopes

section Invisible

theorem sameFunctions_iff (x y : Items isalnum) :
    SameFunctions (functions isalnum x.text) (functions isalnum y.text) ↔
      ∀ name, last_of name (x.found []) = last_of name (y.found []) := by
  simp only [SameFunctions, mem_functions]
  exact forall_congr' fun name => Option.ext_iff.symm

theorem last_of_untouched {x : Items isalnum} {name : Text} (h : name ∉ x.touched) :
    last_of name (x.found []) = last_of name (x.defined []) := by
  have hscopes : ∀ scope ∈ ([] : List Text), scope ≠ [] := List.forall_mem_nil _
  rw [Items.touched, List.map_append, List.mem_append, not_or] at h
  exact last_of_found hscopes h.1 h.2

-- Where no name is defined twice, what is found is what is not hidden.
theorem mem_visible {x : Items isalnum} (hx : ((x.defined []).map Prod.fst).Nodup)
    (entry : Text × Text) :
    entry ∈ x.visible [] ↔ entry ∈ x.defined [] ∧ entry ∉ x.hidden [] := by
  have hperm := defined_perm x []
  have hnodup : (x.visible [] ++ x.hidden []).Nodup := hperm.nodup_iff.mp hx.of_map
  have hdisjoint := List.disjoint_of_nodup_append hnodup
  rw [hperm.mem_iff, List.mem_append]
  exact ⟨fun hmem => ⟨Or.inl hmem, hdisjoint hmem⟩, fun hmem => hmem.1.resolve_right hmem.2⟩

theorem sameFunctions_visible {x y : Items isalnum} (h : x.Relabelled y) (hplain : x.parenless)
    (hnodup : ((x.defined []).map Prod.fst).Nodup) :
    SameFunctions (functions isalnum x.text) (functions isalnum y.text) ↔
      ∀ entry, entry ∈ x.visible [] ↔ entry ∈ y.visible [] := by
  have hscopes : ∀ scope ∈ ([] : List Text), scope ≠ [] := List.forall_mem_nil _
  have hkeys {z : Items isalnum} (hz : z.defined [] = x.defined []) :
      ((z.visible []).map Prod.fst).Nodup := by
    have hperm := (defined_perm z []).map Prod.fst
    rw [hz] at hperm
    have hboth := hperm.nodup_iff.mp hnodup
    rw [List.map_append] at hboth
    exact hboth.of_append_left
  have hmem {z : Items isalnum} (hz : z.defined [] = x.defined []) (hparens : z.parenless)
      (name body : Text) :
      (name, body) ∈ functions isalnum z.text ↔ (name, body) ∈ z.visible [] := by
    rw [mem_functions, ← last_of_iff (hkeys hz)]
    exact Iff.of_eq (congrArg (fun entries => last_of name entries = some body)
      (found_parenless hparens hscopes))
  have hy := (defined_relabelled h []).symm
  simp only [SameFunctions, hmem rfl hplain, hmem hy (parenless_relabelled h hplain), Prod.forall]

-- Labels are in the way where they stand right before a nested scope: of a class behind a
-- label nothing is found. Whether labels are put in or taken out, the functions are the same
-- if and only if each name that is defined in such a scope has the same last definition
-- outside of them.
theorem functions_relabelled {x y : Items isalnum} (h : x.Relabelled y) :
    (SameFunctions (functions isalnum x.text) (functions isalnum y.text) ↔
      ∀ name ∈ x.touched ++ y.touched,
        last_of name (x.found []) = last_of name (y.found [])) ∧
    (x.parenless → ((x.defined []).map Prod.fst).Nodup →
      (SameFunctions (functions isalnum x.text) (functions isalnum y.text) ↔
        ∀ entry, entry ∈ x.hidden [] ↔ entry ∈ y.hidden [])) := by
  have hdefined := defined_relabelled h []
  constructor
  · rw [sameFunctions_iff]
    refine ⟨fun hall name _ => hall name, fun hall name => ?_⟩
    by_cases hname : name ∈ x.touched ++ y.touched
    · exact hall name hname
    · rw [List.mem_append, not_or] at hname
      rw [last_of_untouched hname.1, last_of_untouched hname.2, hdefined]
  · intro hplain hnodup
    rw [sameFunctions_visible h hplain hnodup]
    have hnodup' := hnodup
    rw [hdefined] at hnodup'
    have hperm := defined_perm x []
    have hperm' := defined_perm y []
    refine forall_congr' fun entry => ?_
    have hx : entry ∈ x.hidden [] → entry ∈ x.defined [] := fun hmem =>
      hperm.mem_iff.mpr (List.mem_append_right _ hmem)
    have hy : entry ∈ y.hidden [] → entry ∈ y.defined [] := fun hmem =>
      hperm'.mem_iff.mpr (List.mem_append_right _ hmem)
    rw [mem_visible hnodup, mem_visible hnodup', ← hdefined]
    rw [← hdefined] at hy
    tauto

-- `class W { public: struct S { void f() { g(); } }; };`, with the label or without it.
def public_label : Label := ⟨.public_, .none, [.spaces .one]⟩

def widget (members : Items fun _ => false) : Items fun _ => false :=
  .scope ⟨[], []⟩ (.class_ .class_ space (letter 'W' rfl) (.spaces .one) .none) members (.nil [])

def nested (labels : List Label) : Items fun _ => false :=
  widget (.scope ⟨layout, labels⟩
    (.class_ .struct_ space inner_name (.spaces .one) .none)
    (.leaf ⟨layout, []⟩ (.function handler) (.nil layout)) (.nil layout))

-- `class W { public: void f() { g(); } };`
def touch (labels : List Label) : Items fun _ => false :=
  widget (.leaf ⟨layout, labels⟩ (.function handler) (.nil layout))

theorem nested_relabelled (labels labels' : List Label) :
    (nested labels).Relabelled (nested labels') :=
  .scope _ _ _ (.scope _ _ _ (.leaf _ _ _ (.nil _ _)) (.nil _ _)) (.nil _ _)

theorem touch_relabelled (labels labels' : List Label) :
    (touch labels).Relabelled (touch labels') :=
  .scope _ _ _ (.leaf _ _ _ (.nil _ _)) (.nil _ _)

theorem labels_not_invisible :
    ¬∀ (isalnum : Char → Bool) (x y : Items isalnum), x.Relabelled y →
      SameFunctions (functions isalnum x.text) (functions isalnum y.text) := by
  intro h
  have hsame := h _ _ _ (nested_relabelled [] [public_label]) "W::S::f".toList " g(); ".toList
  exact absurd (hsame.mp (by decide +kernel)) (by decide +kernel)

theorem functions_public_label :
    SameFunctions (functions (fun _ => false) (touch [public_label]).text)
        (functions (fun _ => false) (touch []).text) ∧
      ¬SameFunctions (functions (fun _ => false) (nested [public_label]).text)
        (functions (fun _ => false) (nested []).text) := by
  constructor
  · refine ((functions_relabelled (touch_relabelled [public_label] [])).2
      ⟨by decide +kernel, trivial, trivial⟩ (by decide +kernel)).mpr fun entry => ?_
    exact Iff.rfl
  · intro hsame
    have hhidden := ((functions_relabelled (nested_relabelled [public_label] [])).2
      ⟨by decide +kernel, ⟨by decide +kernel, trivial, trivial⟩, trivial⟩
      (by decide +kernel)).mp hsame ("W::S::f".toList, " g(); ".toList)
    exact absurd (hhidden.mp (by decide +kernel)) (by decide +kernel)

end Invisible

end Diagrams

end CortexFlow
