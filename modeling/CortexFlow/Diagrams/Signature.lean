import CortexFlow.Diagrams.Walk

namespace CortexFlow

namespace Diagrams

open Lib

section Strip

theorem rstrip_append (x y : Text) :
    rstrip (x ++ y) = if rstrip y = [] then rstrip x else x ++ rstrip y := by
  simp only [rstrip, List.reverse_append, List.dropWhile_append, List.isEmpty_iff,
    List.reverse_eq_nil_iff]
  split_ifs
  · rfl
  · simp

theorem rstrip_spaces {y : Text} (hy : ∀ c ∈ y, isspace c = true) : rstrip y = [] := by
  rw [rstrip, List.reverse_eq_nil_iff, List.dropWhile_eq_nil_iff]
  exact fun c hc => hy c (List.mem_reverse.mp hc)

theorem rstrip_append_spaces (x : Text) {y : Text} (hy : ∀ c ∈ y, isspace c = true) :
    rstrip (x ++ y) = rstrip x := by
  rw [rstrip_append, if_pos (rstrip_spaces hy)]

theorem rstrip_split (t : Text) : ∃ y, t = rstrip t ++ y ∧ ∀ c ∈ y, isspace c = true := by
  refine ⟨(t.reverse.takeWhile isspace).reverse, ?_, ?_⟩
  · rw [rstrip, ← List.reverse_append, List.takeWhile_append_dropWhile, List.reverse_reverse]
  · exact fun c hc => List.mem_takeWhile_imp (List.mem_reverse.mp hc)

theorem lstrip_append (x y : Text) :
    lstrip (x ++ y) = if lstrip x = [] then lstrip y else lstrip x ++ y := by
  unfold lstrip
  rw [List.dropWhile_append]
  by_cases hx : List.dropWhile isspace x = []
  · rw [if_pos hx, if_pos (List.isEmpty_iff.mpr hx)]
  · rw [if_neg hx, if_neg (mt List.isEmpty_iff.mp hx)]

theorem strip_append_spaces (x : Text) {y : Text} (hy : ∀ c ∈ y, isspace c = true) :
    strip (x ++ y) = strip x := by
  have hspaces : lstrip y = [] := List.dropWhile_eq_nil_iff.mpr hy
  rw [strip, lstrip_append, strip]
  split_ifs with hx
  · rw [hx, hspaces]
  · exact rstrip_append_spaces _ hy

end Strip

-- Where the group that `find_group` finds is.
section Group

theorem find_group_spaces {y : Text} (hy : ∀ c ∈ y, isspace c = true) (s : Text) (depth : Int)
    (open_paren : Option Nat) (idx : Nat) :
    find_group depth open_paren idx (s ++ y) = find_group depth open_paren idx s := by
  induction s generalizing depth open_paren idx with
  | nil =>
      induction y generalizing depth open_paren idx with
      | nil => rfl
      | cons c y ih =>
          have hc := hy c List.mem_cons_self
          have hopen : c ≠ '(' := ne_of_isspace hc (by decide)
          have hclose : c ≠ ')' := ne_of_isspace hc (by decide)
          have hrest := ih (fun c hc => hy c (List.mem_cons_of_mem _ hc)) depth open_paren (idx + 1)
          rw [List.nil_append] at hrest ⊢
          simp only [find_group, if_neg hopen, if_neg hclose]
          exact hrest
  | cons c s ih => simp only [List.cons_append, find_group, ih]

-- What is known of a group found from `idx` on.
structure Grouped (open_paren : Option Nat) (idx : Nat) (t : Text) (o c : Nat) : Prop where
  opens : open_paren = some o ∨ open_paren = none ∧ idx ≤ o ∧ o < c ∧ t[o - idx]? = some '('
  le : idx ≤ c
  closes : t[c - idx]? = some ')'

theorem Grouped.cons {open_paren : Option Nat} {idx : Nat} {t : Text} {o c : Nat}
    (h : Grouped open_paren (idx + 1) t o c) (d : Char) : Grouped open_paren idx (d :: t) o c := by
  have hshift {i : Nat} (hi : idx + 1 ≤ i) : (d :: t)[i - idx]? = t[i - (idx + 1)]? := by
    obtain ⟨k, rfl⟩ := Nat.exists_eq_add_of_le hi
    have hleft : idx + 1 + k - idx = k + 1 := by omega
    have hright : idx + 1 + k - (idx + 1) = k := by omega
    rw [hleft, hright, List.getElem?_cons_succ]
  refine ⟨?_, Nat.le_of_succ_le h.le, (hshift h.le).trans h.closes⟩
  rcases h.opens with hsome | ⟨hnone, hle, hlt, hat⟩
  · exact Or.inl hsome
  · exact Or.inr ⟨hnone, Nat.le_of_succ_le hle, hlt, (hshift hle).trans hat⟩

theorem grouped {depth : Int} {open_paren : Option Nat} {idx : Nat} {t : Text} {o c : Nat}
    (h : find_group depth open_paren idx t = some (o, c)) : Grouped open_paren idx t o c := by
  induction t generalizing depth open_paren idx with
  | nil => cases h
  | cons d t ih =>
      simp only [find_group] at h
      split_ifs at h with hopen hfirst hclose hlast
      · have hrest := ih h
        have ho : idx = o := by
          cases hrest.opens with
          | inl hsome => exact Option.some.inj hsome
          | inr hnone => cases hnone.1
        obtain ⟨_, hle, hcloses⟩ := hrest.cons d
        subst ho
        refine ⟨Or.inr ⟨hfirst.2, Nat.le_refl _, hrest.le, ?_⟩, hle, hcloses⟩
        rw [Nat.sub_self, hopen, List.getElem?_cons_zero]
      · exact (ih h).cons d
      · cases open_paren with
        | none => exact (ih h).cons d
        | some start =>
            cases h
            refine ⟨Or.inl rfl, Nat.le_refl _, ?_⟩
            rw [Nat.sub_self, hclose, List.getElem?_cons_zero]
      · cases open_paren with
        | none => exact (ih h).cons d
        | some start => exact (ih h).cons d
      · exact (ih h).cons d

end Group

variable (isalnum : Char → Bool)

def tail_accepted (tail : Text) : Bool := startsWith ":" tail || _FUNC_TAIL_RE.fullmatch tail

theorem extract_eq (sig : Text) :
    _extract_function_name isalnum sig =
      match find_group 0 none 0 sig with
      | none => none
      | some (open_paren, close_paren) =>
          if tail_accepted (strip (sig.drop (close_paren + 1))) then
            named isalnum (sig.take open_paren)
          else none := by
  obtain ⟨y, hy, hspaces⟩ := rstrip_split sig
  have hgroup : find_group 0 none 0 sig = find_group 0 none 0 (rstrip sig) := by
    conv_lhs => rw [hy]
    exact find_group_spaces hspaces ..
  rw [_extract_function_name, hgroup]
  cases h : find_group 0 none 0 (rstrip sig) with
  | none => rfl
  | some found =>
      obtain ⟨o, c⟩ := found
      have hin := grouped h
      have hc : c < (rstrip sig).length := lt_of_getElem? hin.closes
      have ho : o < c := by
        cases hin.opens with
        | inl hsome => exact nomatch hsome
        | inr hnone => exact hnone.2.2.1
      have hdrop : strip (sig.drop (c + 1)) = strip ((rstrip sig).drop (c + 1)) := by
        conv_lhs => rw [hy, List.drop_append_of_le_length hc]
        exact strip_append_spaces _ hspaces
      have htake : sig.take o = (rstrip sig).take o := by
        conv_lhs => rw [hy, List.take_append_of_le_length (by omega)]
      simp only [hdrop, htake]
      rfl

section Names

theorem not_isword_of_isspace {c : Char} (h : isspace c = true) : isword isalnum c = false := by
  have hascii : c.isAlphanum = false := by
    simp only [isspace, Bool.or_eq_true, Bool.and_eq_true, decide_eq_true_eq] at h
    simp only [Char.isAlphanum, Char.isAlpha, Char.isUpper, Char.isLower, Char.isDigit,
      Bool.or_eq_false_iff, Bool.and_eq_false_imp, decide_eq_true_eq, decide_eq_false_iff_not,
      UInt32.le_iff_toNat_le, Char.reduceVal, UInt32.reduceToNat]
    have hval : c.toNat = c.val.toNat := rfl
    omega
  have hunderscore : c ≠ '_' := ne_of_isspace h (by decide)
  rw [isword, hascii, h]
  simp [hunderscore]

def name_char (c : Char) : Prop := isword isalnum c = true ∨ c = ':'

theorem qual_name_text {prev : Option Char} {t : Text} {m : Regex.Match}
    (h : m ∈ (_QUAL_NAME_RE isalnum).exec prev t) :
    ∃ name rest, t = name ++ rest ∧ name ≠ [] ∧ (∀ c ∈ name, name_char isalnum c) ∧
      (∀ c ∈ rest, isspace c = true) ∧ m.groups.head? = some name := by
  have hident : (ident isalnum).Within (name_char isalnum) := by
    refine ⟨fun c hc => Or.inl ?_, fun c hc => Or.inl hc⟩
    rw [Bool.or_eq_true, decide_eq_true_eq] at hc
    rcases hc with hc | rfl
    · rw [isword, Char.isAlphanum, hc]
      rfl
    · rfl
  have hcolon : (Regex.lit "::").Within (name_char isalnum) :=
    Regex.within_lit (by simp [name_char])
  have hname : Regex.Within (name_char isalnum)
      (.group (.seq (.star (.seq (ident isalnum) (.lit "::"))) (ident isalnum))) :=
    ⟨⟨hident, hcolon⟩, hident⟩
  have hspaces : spaces.Within fun c => isspace c = true := fun _ hc => hc
  obtain ⟨a, ha, b, hb, rfl⟩ := Regex.mem_seq.mp h
  obtain ⟨s, hs, f, hf, rfl⟩ := Regex.mem_seq.mp hb
  have hpos : 0 < a.len ∧ a.len ≤ t.length := by
    refine ⟨?_, Regex.exec_len _ ha⟩
    obtain ⟨inner, hinner, rfl⟩ := List.mem_map.mp ha
    obtain ⟨x, _, y, hy, rfl⟩ := Regex.mem_seq.mp hinner
    obtain ⟨first, hfirst, rest, _, rfl⟩ := Regex.mem_seq.mp hy
    have hone := Regex.chr_len hfirst
    change 0 < x.len + (first.len + rest.len)
    omega
  refine ⟨t.take a.len, t.drop a.len, (List.take_append_drop _ _).symm, ?_,
    Regex.exec_all hname ha, ?_, ?_⟩
  · intro hnil
    have hlen := congrArg List.length hnil
    rw [List.length_take, List.length_nil] at hlen
    omega
  · intro c hc
    rw [← List.take_append_drop s.len (t.drop a.len), List.mem_append] at hc
    cases hc with
    | inl hc => exact Regex.exec_all hspaces hs c hc
    | inr hc =>
        have hfinal : f ∈ Regex.final.exec _ ((t.drop a.len).drop s.len) := hf
        simp only [Regex.exec] at hfinal
        split_ifs at hfinal with hend
        · rcases hend with hend | hend
          · rw [hend] at hc
            cases hc
          · rw [hend, List.mem_singleton] at hc
            rw [hc]
            rfl
        · cases hfinal
  · obtain ⟨inner, _, rfl⟩ := List.mem_map.mp ha
    rfl

-- Nothing that ends with another character, or has one in it before the last, is a name.
theorem qual_name_none {t : Text} (hlast : ∀ c, t.getLast? = some c → isspace c = false)
    (hother : t = [] ∨ ∃ c ∈ t, ¬name_char isalnum c) (prev : Option Char) :
    (_QUAL_NAME_RE isalnum).exec prev t = [] := by
  refine List.eq_nil_iff_forall_not_mem.mpr fun m hm => ?_
  obtain ⟨name, rest, rfl, hname, hchars, hspaces, _⟩ := qual_name_text isalnum hm
  cases hrest : rest.getLast? with
  | none =>
      rw [List.getLast?_eq_none_iff.mp hrest, List.append_nil] at hother
      obtain ⟨c, hc, hnot⟩ := hother.resolve_left hname
      exact hnot (hchars c hc)
  | some c =>
      have hspace := hspaces c (List.mem_of_getLast? hrest)
      have hnone := hlast c (by rw [List.getLast?_append, hrest]; rfl)
      rw [hspace] at hnone
      exact nomatch hnone

variable {d b : Text}

end Names

-- Whether what is read out of a signature does not depend on the comment `d` in it, in
-- whose place `b` is, between `u` and `y`: not if it comes between the name and the
-- arguments, nor behind the arguments if the delimiters are in the way there.
def apart_from_name (u d b y : Text) : Bool :=
  match find_group 0 none 0 (u ++ (b ++ y)) with
  | none => true
  | some (open_paren, close_paren) =>
      let gap := u.length + b.length
      if gap ≤ open_paren then
        _extract_function_name isalnum (u ++ (b ++ y)) = none ||
          (y.take (open_paren - gap)).any fun c => !isspace c
      else if close_paren < u.length then
        named isalnum (u.take open_paren) = none ||
          tail_accepted (strip (u.drop (close_paren + 1) ++ (d ++ y))) =
            tail_accepted (strip (u.drop (close_paren + 1) ++ (b ++ y)))
      else true

section Extract

variable {d b : Text}

end Extract

end Diagrams

end CortexFlow
