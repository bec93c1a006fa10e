import CortexFlow.Diagrams.Comments
import CortexFlow.Diagrams.Declarations
import CortexFlow.Lib.RegexSearch

namespace CortexFlow

namespace Diagrams

open Lib

-- The expressions that go on matching where a delimiter becomes a blank.
section Tolerates

variable (isalnum : Char → Bool)

end Tolerates

-- The expressions that are searched for do not begin with a blank.
section Openers

theorem exec_seq_nil {first : Regex} {prev : Option Char} {t : Text}
    (h : first.exec prev t = []) (rest : Regex) : (Regex.seq first rest).exec prev t = [] := by
  rw [Regex.exec, h]
  rfl

theorem exec_is_ne {x c : Char} (h : c ≠ x) (prev : Option Char) (t : Text) :
    (Regex.is x).exec prev (c :: t) = [] :=
  if_neg fun hc => h (of_decide_eq_true hc)

theorem ne_of_isspace {c x : Char} (hc : isspace c = true) (hx : isspace x = false) : c ≠ x := by
  rintro rfl
  rw [hc] at hx
  exact nomatch hx

variable (isalnum : Char → Bool) {prev : Option Char} {c : Char} {t : Text}

end Openers

-- What opens a scope ends with its first `{` and has no `;`; a forward declaration
-- ends with its first `;` and has no brace and no parenthesis.
section Ends

theorem within_chr {p : Char → Bool} {xs : Text} (h : (xs.all fun x => !p x) = true) :
    (Regex.chr p).Within (· ∉ xs) := by
  intro c hc hmem
  have hnot := List.all_eq_true.mp h c hmem
  rw [hc] at hnot
  exact nomatch hnot

theorem within_text {text : String} {xs : Text}
    (h : (text.toList.all fun x => !xs.contains x) = true) :
    (Regex.lit text).Within (· ∉ xs) := by
  refine Regex.within_lit fun x hx hmem => ?_
  have hnot := List.all_eq_true.mp h x hx
  rw [List.contains_iff_mem.mpr hmem] at hnot
  exact nomatch hnot

def statement_ends : Text := [';', '{', '}', '(', ')']

variable (isalnum : Char → Bool) {m : Regex.Match} {t : Text}

theorem forward_decl_ends (h : m ∈ (_FORWARD_DECL_RE isalnum).exec none t) :
    ∃ k, m.len = k + 1 ∧ t[k]? = some ';' ∧ ∀ c ∈ t.take k, c ∉ statement_ends := by
  have hspaces : spaces.Within (· ∉ statement_ends) := within_chr (by decide)
  have hident : (ident isalnum).Within (· ∉ statement_ends) :=
    ⟨within_chr (by decide), within_chr (p := isword isalnum) rfl⟩
  have hclass : class_or_struct.Within (· ∉ statement_ends) :=
    ⟨within_text (by decide), within_text (by decide)⟩
  have hall : ∀ r ∈ [class_or_struct, spaces1, ident isalnum, spaces],
      r.Within (· ∉ statement_ends) := by
    simp only [List.forall_mem_cons]
    exact ⟨hclass, ⟨hspaces, hspaces⟩, hident, hspaces, nofun⟩
  exact Regex.exec_closed hall h

-- The expressions for a namespace, an unnamed namespace and a class.
inductive ScopeRegex : Regex → Prop
  | of_namespace : ScopeRegex (_NAMESPACE_RE isalnum)
  | of_anon_ns : ScopeRegex _ANON_NS_RE
  | of_class : ScopeRegex (_CLASS_RE isalnum)

theorem scope_ends {r : Regex} (hr : ScopeRegex isalnum r) (h : m ∈ r.exec none t) :
    ∃ k, m.len = k + 1 ∧ t[k]? = some '{' ∧ ∀ c ∈ t.take k, c ∉ [';', '{'] := by
  have hspaces : spaces.Within (· ∉ [';', '{']) := within_chr (by decide)
  have hident : (ident isalnum).Within (· ∉ [';', '{']) :=
    ⟨within_chr (by decide), within_chr (p := isword isalnum) rfl⟩
  have hns : (Regex.lit "namespace").Within (· ∉ [';', '{']) := within_text (by decide)
  cases hr with
  | of_namespace =>
      have hall : ∀ r ∈ [.lit "namespace", spaces1, .group (ident isalnum), spaces],
          r.Within (· ∉ [';', '{']) := by
        simp only [List.forall_mem_cons]
        exact ⟨hns, ⟨hspaces, hspaces⟩, hident, hspaces, nofun⟩
      exact Regex.exec_closed hall h
  | of_anon_ns =>
      have hall : ∀ r ∈ [.lit "namespace", spaces], r.Within (· ∉ [';', '{']) := by
        simp only [List.forall_mem_cons]
        exact ⟨hns, hspaces, nofun⟩
      exact Regex.exec_closed hall h
  | of_class =>
      have hclass : class_or_struct.Within (· ∉ [';', '{']) :=
        ⟨within_text (by decide), within_text (by decide)⟩
      have hcolon : (Regex.is ':').Within (· ∉ [';', '{']) := within_chr (by decide)
      have hbases : (Regex.chr fun c => c ≠ ';' && c ≠ '{').Within (· ∉ [';', '{']) :=
        within_chr (by decide)
      have hall : ∀ r ∈ [class_or_struct, spaces1, .group (ident isalnum),
          .boundary (isword isalnum),
          .opt (.seqs [spaces, .is ':', .star (.chr fun c => c ≠ ';' && c ≠ '{')]), spaces],
          r.Within (· ∉ [';', '{']) := by
        simp only [List.forall_mem_cons]
        exact ⟨hclass, ⟨hspaces, hspaces⟩, hident, trivial,
          ⟨⟨hspaces, hcolon, hbases⟩, trivial⟩, hspaces, nofun⟩
      exact Regex.exec_closed hall h

-- So no text is both.
theorem not_forward_decl {r : Regex} (hr : ScopeRegex isalnum r) (h : m ∈ r.exec none t) :
    (_FORWARD_DECL_RE isalnum).exec none t = [] := by
  refine List.eq_nil_iff_forall_not_mem.mpr fun m' hm' => ?_
  obtain ⟨k, _, hk, hscope⟩ := scope_ends isalnum hr h
  obtain ⟨k', _, hk', hforward⟩ := forward_decl_ends isalnum hm'
  rcases Nat.lt_trichotomy k k' with hlt | rfl | hlt
  · have hmem : '{' ∈ t.take k' := List.mem_of_getElem? ((List.getElem?_take_of_lt hlt).trans hk)
    exact hforward '{' hmem (by decide)
  · rw [hk] at hk'
    exact nomatch hk'
  · have hmem : ';' ∈ t.take k := List.mem_of_getElem? ((List.getElem?_take_of_lt hlt).trans hk')
    exact hscope ';' hmem (by decide)

end Ends

end Diagrams

end CortexFlow
