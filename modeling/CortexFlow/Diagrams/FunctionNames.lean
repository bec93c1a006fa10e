import CortexFlow.Diagrams.Heads

namespace CortexFlow

namespace Diagrams

open Lib

variable {isalnum : Char → Bool}

-- The first balanced group of a signature is the one of its arguments.
section Group

theorem find_group_skip {u : Text} (hu : ∀ c ∈ u, c ≠ '(' ∧ c ≠ ')') (idx : Nat) (t : Text) :
    find_group 0 none idx (u ++ t) = find_group 0 none (idx + u.length) t := by
  induction u generalizing idx with
  | nil => rfl
  | cons c u ih =>
      obtain ⟨hopen, hclose⟩ := hu c List.mem_cons_self
      rw [List.cons_append, find_group, if_neg hopen, if_neg hclose,
        ih fun c hc => hu c (List.mem_cons_of_mem _ hc), List.length_cons, Nat.add_assoc,
        Nat.add_comm 1]

theorem find_group_closed {u : Text} {depth : Nat}
    (hu : Brackets.closed '(' ')' depth u = true) (start idx : Nat) (t : Text) :
    find_group (depth + 1) (some start) idx (u ++ ')' :: t) = some (start, idx + u.length) := by
  induction u generalizing depth idx with
  | nil =>
      have hzero : depth = 0 := by simpa [Brackets.closed] using hu
      rw [hzero]
      rfl
  | cons c u ih =>
      have hlength : idx + (c :: u).length = idx + 1 + u.length := by
        rw [List.length_cons]
        omega
      rw [List.cons_append, find_group, hlength]
      simp only [Brackets.closed] at hu
      split_ifs at hu ⊢ with hopen hfirst hclose hlast
      · cases hfirst.2
      · exact ih hu (idx + 1)
      · rw [Bool.and_eq_true, decide_eq_true_eq] at hu
        omega
      · rw [Bool.and_eq_true, decide_eq_true_eq] at hu
        have hdepth : (depth : Int) + 1 - 1 = ((depth - 1 : Nat) : Int) + 1 := by omega
        rw [hdepth]
        exact ih hu.2 (idx + 1)
      · exact ih hu (idx + 1)

theorem find_group_args {u args : Text} (hu : ∀ c ∈ u, c ≠ '(' ∧ c ≠ ')')
    (hargs : parens args = true) (t : Text) :
    find_group 0 none 0 (u ++ '(' :: (args ++ ')' :: t)) =
      some (u.length, u.length + 1 + args.length) := by
  rw [find_group_skip hu, Nat.zero_add, find_group, if_pos rfl, if_pos ⟨rfl, rfl⟩]
  exact find_group_closed hargs u.length (u.length + 1) t

end Group

-- What may come behind the arguments.
section Tail

theorem rstrip_concat {c : Char} (hc : isspace c = false) (u : Text) :
    rstrip (u ++ [c]) = u ++ [c] := by
  have hone : rstrip [c] = [c] := rstrip_solid (by simpa using hc)
  rw [rstrip_append, hone, if_neg (List.cons_ne_nil c [])]

theorem strip_closed {t : Text} (hfirst : ∀ c, t.head? = some c → isspace c = false)
    (hlast : ∀ c, t.getLast? = some c → isspace c = false) : strip t = t := by
  have hleft : lstrip t = t := by
    cases t with
    | nil => rfl
    | cons c t => exact lstrip_cons (hfirst c rfl) t
  rw [strip, hleft]
  rcases List.eq_nil_or_concat t with rfl | ⟨u, c, rfl⟩
  · rfl
  · rw [List.concat_eq_append] at hlast ⊢
    exact rstrip_concat (hlast c (by simp)) u

theorem Qualifier.solid (q : Qualifier) : q.text ≠ [] ∧ ∀ c ∈ q.text, isspace c = false := by
  have hsolid : (q.text ≠ [] && q.text.all fun c => !isspace c) = true := by
    cases q with
    | const => decide
    | override => decide
    | final => decide
    | noexcept => decide
    | ref => decide
    | rref => decide
  rw [Bool.and_eq_true, decide_eq_true_eq] at hsolid
  exact ⟨hsolid.1, fun c hc => by simpa using List.all_eq_true.mp hsolid.2 c hc⟩

def noexcept_part : Regex :=
  .seq (.lit "noexcept") (.opt (.seqs [spaces, .is '(', .star (.chr fun c => c ≠ ')'), .is ')']))

def tail_part : Regex :=
  .alt noexcept_part (.alt (.lit "const") (.alt (.lit "override") (.alt (.lit "final")
    (.alt (.seq (.is '&') (.opt (.is '&'))) (.chr isspace)))))

theorem matches_qualifier (q : Qualifier) (prev : Option Char) (t : Text) :
    Regex.Matches tail_part prev q.text t := by
  have hlit (text : String) : Regex.Matches (.lit text) prev text.toList t := Regex.matches_lit
  rw [tail_part]
  cases q with
  | noexcept =>
      have hword : Regex.Matches noexcept_part prev ("noexcept".toList ++ []) t :=
        Regex.matches_seq Regex.matches_lit Regex.matches_opt_nil
      rw [List.append_nil] at hword
      exact Regex.matches_left hword
  | const => exact Regex.matches_right (Regex.matches_left (hlit "const"))
  | override => exact Regex.matches_right (Regex.matches_right (Regex.matches_left
      (hlit "override")))
  | final => exact Regex.matches_right (Regex.matches_right (Regex.matches_right
      (Regex.matches_left (hlit "final"))))
  | ref =>
      have hone : Regex.Matches (.seq (.is '&') (.opt (.is '&'))) prev (['&'] ++ []) t :=
        Regex.matches_seq Regex.matches_is Regex.matches_opt_nil
      exact Regex.matches_right (Regex.matches_right (Regex.matches_right (Regex.matches_right
        (Regex.matches_left hone))))
  | rref =>
      have htwo : Regex.Matches (.seq (.is '&') (.opt (.is '&'))) prev (['&'] ++ ['&']) t :=
        Regex.matches_seq Regex.matches_is (Regex.matches_opt Regex.matches_is)
      exact Regex.matches_right (Regex.matches_right (Regex.matches_right (Regex.matches_right
        (Regex.matches_left htwo))))

theorem pieces_spaces {u : Text} (hu : ∀ c ∈ u, isspace c = true) :
    Regex.Pieces tail_part u := by
  induction u with
  | nil => exact .nil
  | cons c u ih =>
      refine .cons (u := [c]) (List.cons_ne_nil c []) (fun prev t => ?_)
        (ih fun c hc => hu c (List.mem_cons_of_mem _ hc))
      exact Regex.matches_right (Regex.matches_right (Regex.matches_right (Regex.matches_right
        (Regex.matches_right (Regex.matches_chr (hu c List.mem_cons_self))))))

theorem pieces_qualifiers (qualifiers : List (Spaces × Qualifier)) :
    Regex.Pieces tail_part (qualifiers.flatMap fun q => q.1.text ++ q.2.text) := by
  induction qualifiers with
  | nil => exact .nil
  | cons q qualifiers ih =>
      rw [List.flatMap_cons, List.append_assoc]
      exact Regex.pieces_append (pieces_spaces q.1.isspace)
        (.cons q.2.solid.1 (matches_qualifier q.2) ih)

theorem getLast?_qualifiers (qualifiers : List (Spaces × Qualifier)) : ∀ c,
    (qualifiers.flatMap fun q => q.1.text ++ q.2.text).getLast? = some c → isspace c = false := by
  intro c hc
  rcases List.eq_nil_or_concat qualifiers with rfl | ⟨rest, q, rfl⟩
  · cases hc
  · rw [List.concat_eq_append, List.flatMap_append, List.flatMap_singleton, ← List.append_assoc,
      List.getLast?_append_of_ne_nil _ q.2.solid.1] at hc
    exact q.2.solid.2 c (List.mem_of_getLast? hc)

theorem Function.tail_accepted (f : Function isalnum) :
    tail_accepted (strip f.tail_text) = true := by
  have hstrip : ∃ u, strip f.tail_text = u ∧ Regex.Pieces tail_part u := by
    rw [Function.tail_text, strip_append_spaces _ f.trail.isspace]
    cases hq : f.qualifiers with
    | nil => exact ⟨[], rfl, .nil⟩
    | cons q qualifiers =>
        refine ⟨q.2.text ++ qualifiers.flatMap fun q => q.1.text ++ q.2.text, ?_,
          .cons q.2.solid.1 (matches_qualifier q.2) (pieces_qualifiers qualifiers)⟩
        rw [List.flatMap_cons, List.append_assoc, strip_spaces q.1.isspace]
        refine strip_closed (fun c hc => ?_) (fun c hc => ?_)
        · rw [head?_append_of_ne_nil q.2.solid.1] at hc
          exact q.2.solid.2 c (List.mem_of_head? hc)
        · have hall := getLast?_qualifiers ((Spaces.none, q.2) :: qualifiers) c
          rw [List.flatMap_cons] at hall
          exact hall hc
  obtain ⟨u, hu, hpieces⟩ := hstrip
  have hmatch : Regex.Matches _FUNC_TAIL_RE none (u ++ []) [] :=
    Regex.matches_seq (Regex.matches_pieces hpieces _ _) Regex.matches_final
  rw [List.append_nil] at hmatch
  rw [hu, Diagrams.tail_accepted, Regex.fullmatch_of_matches hmatch, Bool.or_true]

end Tail

-- The name that is found before the arguments.
section Named

theorem ident_text {prev : Option Char} {t : Text} {m : Regex.Match}
    (h : m ∈ (ident isalnum).exec prev t) : ∃ i : Ident isalnum, t.take m.len = i.text := by
  obtain ⟨a, ha, b, hb, rfl⟩ := Regex.mem_seq.mp h
  obtain ⟨c, s, rfl, hc, rfl⟩ := Regex.mem_chr.mp ha
  obtain ⟨_, hlen⟩ := Regex.mem_star_chr.mp hb
  simp only [List.drop_succ_cons, List.drop_zero] at hlen
  have hrest : (s.take b.len).all (isword isalnum) = true :=
    List.all_eq_true.mpr (Regex.of_mem_take_run hlen)
  refine ⟨⟨c, s.take b.len, hc, hrest⟩, ?_⟩
  have hadd : ((⟨1, []⟩ : Regex.Match).append b).len = b.len + 1 := Nat.add_comm 1 b.len
  rw [hadd, List.take_succ_cons]
  rfl

theorem scopes_text {prev : Option Char} {t : Text} {m : Regex.Match}
    (h : m ∈ (Regex.star (.seq (ident isalnum) (.lit "::"))).exec prev t) :
    ∃ scopes : List (Ident isalnum),
      t.take m.len = scopes.flatMap fun i => i.text ++ "::".toList := by
  rw [Regex.exec] at h
  generalize t.length = fuel at h
  induction fuel generalizing prev t m with
  | zero =>
      rw [List.mem_singleton.mp h]
      exact ⟨[], rfl⟩
  | succ fuel ih =>
      rcases Regex.mem_iterate.mp h with rfl | ⟨a, ha, _, b, hb, rfl⟩
      · exact ⟨[], rfl⟩
      · obtain ⟨x, hx, y, hy, rfl⟩ := Regex.mem_seq.mp ha
        obtain ⟨i, hi⟩ := ident_text hx
        obtain ⟨⟨rest, hrest⟩, rfl⟩ := Regex.mem_lit.mp hy
        obtain ⟨scopes, hscopes⟩ := ih hb
        refine ⟨i :: scopes, ?_⟩
        rw [Regex.len_append, List.take_add, hscopes, List.flatMap_cons, Regex.len_append,
          List.take_add, hi, ← hrest, List.take_left]

theorem qual_name_is {prev : Option Char} {t : Text} {m : Regex.Match}
    (h : m ∈ (Regex.seq (.star (.seq (ident isalnum) (.lit "::"))) (ident isalnum)).exec prev t) :
    ∃ n : QualName isalnum, t.take m.len = n.text := by
  obtain ⟨a, ha, b, hb, rfl⟩ := Regex.mem_seq.mp h
  obtain ⟨scopes, hscopes⟩ := scopes_text ha
  obtain ⟨i, hi⟩ := ident_text hb
  refine ⟨⟨scopes, i⟩, ?_⟩
  rw [Regex.len_append, List.take_add, hscopes, hi]
  rfl

-- In a name no colon stands alone.
theorem QualName.colons (n : QualName isalnum) {x y : Text} (h : n.text = x ++ ':' :: y) :
    x.getLast? = some ':' ∨ y.head? = some ':' := by
  obtain ⟨scopes, last⟩ := n
  induction scopes generalizing x with
  | nil =>
      have hmem : ':' ∈ last.text := by
        rw [show last.text = x ++ ':' :: y from h]
        simp
      exact absurd rfl (last.ne_colon ':' hmem)
  | cons i scopes ih =>
      have htext : i.text ++ ':' :: ':' :: (⟨scopes, last⟩ : QualName isalnum).text =
          x ++ ':' :: y := by
        rw [← h]
        simp [QualName.text]
      rcases List.append_eq_append_iff.mp htext with ⟨z, rfl, hz⟩ | ⟨z, hi, hz⟩
      · cases z with
        | nil =>
            right
            rw [List.nil_append] at hz
            rw [← (List.cons.inj hz).2]
            rfl
        | cons c z =>
            obtain ⟨rfl, hrest⟩ := List.cons.inj hz
            clear hz
            cases z with
            | nil =>
                left
                simp
            | cons d z =>
                obtain ⟨rfl, hname⟩ := List.cons.inj hrest
                rcases ih hname with hlast | hhead
                · left
                  have hne : z ≠ [] := by
                    rintro rfl
                    cases hlast
                  have hassoc : i.text ++ ':' :: ':' :: z = i.text ++ [':', ':'] ++ z := by simp
                  rw [hassoc, List.getLast?_append_of_ne_nil _ hne, hlast]
                · exact Or.inr hhead
      · cases z with
        | nil =>
            right
            rw [List.nil_append] at hz
            rw [(List.cons.inj hz).2]
            rfl
        | cons c z =>
            obtain ⟨rfl, _⟩ := List.cons.inj hz
            have hmem : ':' ∈ i.text := by
              rw [hi]
              simp
            exact absurd rfl (i.ne_colon ':' hmem)

-- Text in front of a name of which nothing is taken for a part of the name.
def Clear (isalnum : Char → Bool) (before : Text) : Prop :=
  ∀ s, s ≠ [] → s <:+ before → ∀ (n : QualName isalnum) prev,
    (_QUAL_NAME_RE isalnum).exec prev (s ++ n.text) = []

theorem QualName.last_not_space (n : QualName isalnum) (u : Text) :
    ∀ c, (u ++ n.text).getLast? = some c → isspace c = false := by
  intro c hc
  rw [List.getLast?_append_of_ne_nil _ n.ne_nil] at hc
  exact not_isspace_of_name_char (n.name_char c (List.mem_of_getLast? hc))

theorem clear_nil : Clear isalnum [] := fun _ hs hsuffix => absurd (List.suffix_nil.mp hsuffix) hs

theorem clear_concat {u : Text} {c : Char} (hc : ¬name_char isalnum c) :
    Clear isalnum (u ++ [c]) := by
  intro s hs hsuffix n prev
  obtain ⟨p, hp⟩ := hsuffix
  have hlast : s.getLast? = some c := by
    rw [← List.getLast?_append_of_ne_nil p hs, hp, List.getLast?_concat]
  refine qual_name_none isalnum (n.last_not_space s) (Or.inr ⟨c, ?_, hc⟩) prev
  exact List.mem_append_left _ (List.mem_of_getLast? hlast)

theorem QualName.first_not_colon (n : QualName isalnum) : n.text.head? ≠ some ':' := by
  have hident (i : Ident isalnum) (t : Text) : (i.text ++ t).head? ≠ some ':' := by
    intro h
    exact i.ne_colon i.first List.mem_cons_self (Option.some.inj h)
  obtain ⟨scopes, last⟩ := n
  cases scopes with
  | nil =>
      have hlast := hident last []
      rwa [List.append_nil] at hlast
  | cons i scopes =>
      rw [QualName.text, List.flatMap_cons, List.append_assoc, List.append_assoc]
      exact hident i _

-- What ends with one colon is not a part of the name either.
theorem clear_colon {u : Text} (hu : u.getLast? ≠ some ':') : Clear isalnum (u ++ [':']) := by
  intro s hs hsuffix n prev
  refine List.eq_nil_iff_forall_not_mem.mpr fun m hm => ?_
  obtain ⟨p, hp⟩ := hsuffix
  obtain ⟨v, d, rfl⟩ : ∃ v d, s = v ++ [d] := by
    rcases List.eq_nil_or_concat s with rfl | ⟨v, d, rfl⟩
    · exact absurd rfl hs
    · exact ⟨v, d, List.concat_eq_append⟩
  rw [← List.append_assoc] at hp
  obtain ⟨rfl, hd⟩ := List.append_inj' hp rfl
  cases List.cons.inj hd with
  | intro hd _ =>
  subst hd
  obtain ⟨name, rest, htext, _, _, hspaces, hgroups⟩ := qual_name_text isalnum hm
  have hnil : rest = [] := by
    rcases List.eq_nil_or_concat rest with hnil | ⟨r, c, rfl⟩
    · exact hnil
    · have hlast := n.last_not_space (v ++ [':']) c (by
        rw [htext, List.concat_eq_append, ← List.append_assoc, List.getLast?_concat])
      rw [hspaces c (by simp)] at hlast
      cases hlast
  rw [hnil, List.append_nil] at htext
  obtain ⟨a, ha, b, _, rfl⟩ := Regex.mem_seq.mp hm
  obtain ⟨inner, hinner, rfl⟩ := Regex.mem_group.mp ha
  obtain ⟨found, hfound⟩ := qual_name_is hinner
  have hname : found.text = v ++ ':' :: n.text := by
    have hhead : (v ++ [':'] ++ n.text).take inner.len = name := Option.some.inj hgroups
    rw [← hfound, hhead, ← htext]
    simp
  rcases found.colons hname with hlast | hhead
  · have hne : v ≠ [] := by
      rintro rfl
      cases hlast
    exact hu (by rw [List.getLast?_append_of_ne_nil p hne, hlast])
  · exact n.first_not_colon hhead

theorem matches_ident (i : Ident isalnum) (prev : Option Char) (t : Text) :
    Regex.Matches (ident isalnum) prev i.text t := by
  have hrest : ∀ c ∈ i.rest, isword isalnum c = true := List.all_eq_true.mp i.rest_ok
  have hfirst : Regex.Matches (.chr fun c => c.isAlpha || c = '_') prev [i.first] (i.rest ++ t) :=
    Regex.matches_chr i.first_ok
  exact Regex.matches_seq hfirst (Regex.matches_star_chr hrest)

theorem matches_qual_name (n : QualName isalnum) (prev : Option Char) :
    Regex.Matches (_QUAL_NAME_RE isalnum) prev n.text [] := by
  have hpieces : Regex.Pieces (.seq (ident isalnum) (.lit "::"))
      (n.scopes.flatMap fun i => i.text ++ "::".toList) := by
    induction n.scopes with
    | nil => exact .nil
    | cons i scopes ih =>
        rw [List.flatMap_cons]
        refine .cons (fun hnil => i.ne_nil (List.append_eq_nil_iff.mp hnil).1) (fun prev t => ?_) ih
        exact Regex.matches_seq (matches_ident i prev _) Regex.matches_lit
  have hname (t : Text) := Regex.matches_group (Regex.matches_seq
    (Regex.matches_pieces hpieces (n.last.text ++ t) prev) (matches_ident n.last _ t))
  have hspaces (prev : Option Char) : Regex.Matches (.seq spaces .final) prev ([] ++ []) [] :=
    Regex.matches_seq (Regex.matches_star_chr fun c hc => absurd hc List.not_mem_nil)
      Regex.matches_final
  have hall := Regex.matches_seq (hname _) (hspaces _)
  rw [List.append_nil, List.append_nil] at hall
  exact hall

theorem named_name {before : Text} (hbefore : Clear isalnum before) (n : QualName isalnum)
    (hn : n.last.text ∉ _NOT_FUNCTION_NAMES) (gap : Spaces) :
    named isalnum (before ++ (n.text ++ gap.text)) = some n.text := by
  have hsolid : ∀ c ∈ n.text, isspace c = false :=
    fun c hc => not_isspace_of_name_char (n.name_char c hc)
  have hstrip : rstrip (before ++ (n.text ++ gap.text)) = before ++ n.text := by
    rw [← List.append_assoc, rstrip_append_spaces _ gap.isspace, rstrip_append,
      rstrip_solid hsolid, if_neg n.ne_nil]
  have hsearch : ∃ m, (_QUAL_NAME_RE isalnum).search (before ++ n.text) = some (m, n.text) ∧
      m.groups.head? = some n.text := by
    rw [Regex.search, Regex.searchFrom_skip fun s hs hsuffix prev => hbefore s hs hsuffix n prev]
    obtain ⟨m, hm, _⟩ := matches_qual_name n (Regex.behind none before)
    rw [List.append_nil] at hm
    cases hhead : ((_QUAL_NAME_RE isalnum).exec (Regex.behind none before) n.text).head? with
    | none =>
        rw [List.head?_eq_none_iff] at hhead
        rw [hhead] at hm
        cases hm
    | some m' =>
        refine ⟨m', Regex.searchFrom_head hhead, ?_⟩
        obtain ⟨name, rest, htext, _, _, hspaces, hgroups⟩ :=
          qual_name_text isalnum (List.mem_of_head? hhead)
        have hnil : rest = [] := by
          refine List.eq_nil_iff_forall_not_mem.mpr fun c hc => ?_
          have hspace := hsolid c (by rw [htext]; exact List.mem_append_right _ hc)
          rw [hspaces c hc] at hspace
          cases hspace
        rw [hnil, List.append_nil] at htext
        rw [hgroups, htext]
  obtain ⟨m, hm, hgroups⟩ := hsearch
  have hname : m.groups.headD [] = n.text := by rw [List.headD_eq_head?_getD, hgroups]; rfl
  rw [named, hstrip, hm]
  simp only [hname, n.lastPart, if_neg hn]

-- What is read out of the signature of a function.
theorem Function.extract (f : Function isalnum) {before : Text} (hbefore : Clear isalnum before)
    (hparens : ∀ c ∈ before, c ≠ '(' ∧ c ≠ ')') :
    _extract_function_name isalnum (before ++ (f.name.text ++ (f.gap.text ++
      '(' :: (neutralize f.args ++ ')' :: f.tail_text)))) = some f.name.text := by
  have hfront : ∀ c ∈ before ++ (f.name.text ++ f.gap.text), c ≠ '(' ∧ c ≠ ')' := by
    intro c hc
    rcases List.mem_append.mp hc with hc | hc
    · exact hparens c hc
    · exact (ne_of_quiet ((bare_append (bare_name f.name) (bare_spaces f.gap)).quiet c hc)).2
  have htext : before ++ (f.name.text ++ (f.gap.text ++
      '(' :: (neutralize f.args ++ ')' :: f.tail_text))) =
      before ++ (f.name.text ++ f.gap.text) ++
        '(' :: (neutralize f.args ++ ')' :: f.tail_text) := by
    simp
  rw [htext, extract_eq, find_group_args hfront f.args_parens]
  have hdrop (u v w : Text) : (u ++ '(' :: (v ++ ')' :: w)).drop (u.length + 1 + v.length + 1) =
      w := by
    have hsplit : u ++ '(' :: (v ++ ')' :: w) = (u ++ '(' :: (v ++ [')'])) ++ w := by simp
    have hlength : u.length + 1 + v.length + 1 = (u ++ '(' :: (v ++ [')'])).length := by
      simp only [List.length_append, List.length_cons, List.length_nil]
      omega
    rw [hsplit, hlength, List.drop_left]
  simp only [hdrop, f.tail_accepted, if_true, List.take_left]
  exact named_name hbefore f.name f.name_ok f.gap

end Named

end Diagrams

end CortexFlow
