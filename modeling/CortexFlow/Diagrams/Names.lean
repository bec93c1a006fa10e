import CortexFlow.Diagrams.Signature

namespace CortexFlow

namespace Diagrams

open Lib

-- Layout: whitespace, or none.
structure Spaces where
  text : Text
  blank : text.all isspace = true

def Spaces.none : Spaces := ⟨[], rfl⟩

def Spaces.one : Spaces := ⟨[' '], rfl⟩

theorem Spaces.isspace (s : Spaces) : ∀ c ∈ s.text, isspace c = true :=
  fun c hc => List.all_eq_true.mp s.blank c hc

def ident_start (c : Char) : Bool := c.isAlpha || c = '_'

-- `[A-Za-z_]\w*`
structure Ident (isalnum : Char → Bool) where
  first : Char
  rest : Text
  first_ok : ident_start first = true
  rest_ok : rest.all (isword isalnum) = true

-- `([A-Za-z_]\w*::)*[A-Za-z_]\w*`
structure QualName (isalnum : Char → Bool) where
  scopes : List (Ident isalnum)
  last : Ident isalnum

variable {isalnum : Char → Bool}

def Ident.text (i : Ident isalnum) : Text := i.first :: i.rest

def QualName.text (n : QualName isalnum) : Text :=
  n.scopes.flatMap (fun i => i.text ++ "::".toList) ++ n.last.text

theorem isword_of_start {c : Char} (h : ident_start c = true) : isword isalnum c = true := by
  rw [ident_start, Bool.or_eq_true, decide_eq_true_eq] at h
  rcases h with h | rfl
  · rw [isword, Char.isAlphanum, h]
    rfl
  · rfl

theorem isword_ascii (isalnum : Char → Bool) {k : Text}
    (h : (k.all fun c => c.isAlphanum || c = '_') = true) :
    ∀ c ∈ k, isword isalnum c = true := by
  intro c hc
  have hword := List.all_eq_true.mp h c hc
  rw [isword, hword, Bool.true_or]

theorem Ident.isword (i : Ident isalnum) : ∀ c ∈ i.text, isword isalnum c = true := by
  intro c hc
  rcases List.mem_cons.mp hc with rfl | hc
  · exact isword_of_start i.first_ok
  · exact List.all_eq_true.mp i.rest_ok c hc

theorem Ident.ne_nil (i : Ident isalnum) : i.text ≠ [] := List.cons_ne_nil _ _

theorem not_isspace_of_isword {c : Char} (h : Diagrams.isword isalnum c = true) :
    Diagrams.isspace c = false := by
  by_contra hspace
  rw [not_isword_of_isspace isalnum (by simpa using hspace)] at h
  cases h

theorem QualName.ne_nil (n : QualName isalnum) : n.text ≠ [] := by
  intro h
  exact n.last.ne_nil (List.append_eq_nil_iff.mp h).2

theorem QualName.name_char (n : QualName isalnum) : ∀ c ∈ n.text, name_char isalnum c := by
  intro c hc
  rcases List.mem_append.mp hc with hc | hc
  · obtain ⟨i, _, hc⟩ := List.mem_flatMap.mp hc
    rcases List.mem_append.mp hc with hc | hc
    · exact Or.inl (i.isword c hc)
    · have hcolon : c = ':' := by simpa using hc
      exact Or.inr hcolon
  · exact Or.inl (n.last.isword c hc)

theorem not_isspace_of_name_char {c : Char} (h : Diagrams.name_char isalnum c) :
    Diagrams.isspace c = false := by
  rcases h with h | rfl
  · exact not_isspace_of_isword h
  · decide

section Strip

theorem lstrip_spaces {u : Text} (hu : ∀ c ∈ u, isspace c = true) (t : Text) :
    lstrip (u ++ t) = lstrip t := by
  rw [lstrip_append, if_pos]
  exact List.dropWhile_eq_nil_iff.mpr hu

theorem lstrip_cons {c : Char} (hc : isspace c = false) (t : Text) : lstrip (c :: t) = c :: t := by
  rw [lstrip, List.dropWhile_cons, hc]
  rfl

theorem strip_spaces {u : Text} (hu : ∀ c ∈ u, isspace c = true) (t : Text) :
    strip (u ++ t) = strip t := by
  rw [strip, strip, lstrip_spaces hu]

-- Nothing is stripped off a text without blanks.
theorem rstrip_solid {t : Text} (ht : ∀ c ∈ t, isspace c = false) : rstrip t = t := by
  have hrev : t.reverse.dropWhile isspace = t.reverse := by
    cases hr : t.reverse with
    | nil => rfl
    | cons c rest =>
        have hmem : c ∈ t := List.mem_reverse.mp (by rw [hr]; exact List.mem_cons_self)
        rw [List.dropWhile_cons, ht c hmem]
        rfl
  rw [rstrip, hrev, List.reverse_reverse]

theorem strip_solid {t : Text} (ht : ∀ c ∈ t, isspace c = false) : strip t = t := by
  have hl : lstrip t = t := by
    cases t with
    | nil => rfl
    | cons c t => exact lstrip_cons (ht c List.mem_cons_self) t
  rw [strip, hl, rstrip_solid ht]

theorem strip_around {u v : Text} (hu : ∀ c ∈ u, isspace c = true)
    (hv : ∀ c ∈ v, isspace c = true) {t : Text} (ht : ∀ c ∈ t, isspace c = false) :
    strip (u ++ (t ++ v)) = t := by
  rw [strip_spaces hu, strip_append_spaces _ hv, strip_solid ht]

end Strip

section LastPart

theorem lastPartFrom_word {t : Text} (ht : ∀ c ∈ t, c ≠ ':') (part rest : Text) :
    lastPartFrom part (t ++ rest) = lastPartFrom (part ++ t) rest := by
  induction t generalizing part with
  | nil => rw [List.nil_append, List.append_nil]
  | cons c t ih =>
      have hc := ht c List.mem_cons_self
      rw [List.cons_append, lastPartFrom, ih fun c hc => ht c (List.mem_cons_of_mem _ hc),
        List.append_assoc]
      · rfl
      · intro s hcolon _
        exact hc hcolon

theorem Ident.ne_colon (i : Ident isalnum) : ∀ c ∈ i.text, c ≠ ':' := by
  rintro c hc rfl
  have hword := i.isword ':' hc
  rw [show Diagrams.isword isalnum ':' = false from rfl] at hword
  cases hword

theorem QualName.lastPart (n : QualName isalnum) : lastPart n.text = n.last.text := by
  have hscopes (scopes : List (Ident isalnum)) (part : Text) :
      lastPartFrom part (scopes.flatMap (fun i => i.text ++ "::".toList) ++ n.last.text) =
        if scopes = [] then part ++ n.last.text else n.last.text := by
    induction scopes generalizing part with
    | nil =>
        have hlast := lastPartFrom_word n.last.ne_colon part []
        rw [List.append_nil] at hlast
        exact hlast
    | cons i scopes ih =>
        have hcolons (t : Text) : lastPartFrom (part ++ i.text) ("::".toList ++ t) =
            lastPartFrom [] t := rfl
        rw [List.flatMap_cons, List.append_assoc, List.append_assoc,
          lastPartFrom_word i.ne_colon, hcolons, ih, List.nil_append, ite_self,
          if_neg (List.cons_ne_nil _ _)]
  have h := hscopes n.scopes []
  rw [List.nil_append, ite_self] at h
  exact h

end LastPart

end Diagrams

end CortexFlow
