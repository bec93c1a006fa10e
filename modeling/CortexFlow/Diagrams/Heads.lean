import CortexFlow.Diagrams.Rendered
import CortexFlow.Lib.RegexMatch

namespace CortexFlow

namespace Diagrams

open Lib

variable {isalnum : Char → Bool}

-- What is between the first word of a text and what comes next.
def next_char (isalnum : Char → Bool) (t : Text) : Option Char :=
  (lstrip (t.dropWhile (isword isalnum))).head?

-- How a text begins where a scope is opened.
structure Begins (isalnum : Char → Bool) (t : Text) : Prop where
  word : t.takeWhile (isword isalnum) ∈ scope_words
  next : ∃ c, next_char isalnum t = some c ∧ (ident_start c = true ∨ c = '{')

section Begins

-- Behind whitespace, or before what no word goes on with, a word is at its end.
theorem head?_spaces {u : Text} (hu : ∀ d ∈ u, isspace d = true) {c : Char}
    (hc : u ≠ [] ∨ isword isalnum c = false) (s : Text) :
    ∀ d, (u ++ c :: s).head? = some d → isword isalnum d = false := by
  intro d hd
  cases u with
  | nil =>
      cases hd
      exact hc.resolve_left fun hne => hne rfl
  | cons e u =>
      rw [← Option.some.inj hd]
      exact not_isword_of_isspace isalnum (hu _ List.mem_cons_self)

-- The first word of a text, and what comes next.
theorem next_char_eq {w u s : Text} {c : Char} (hw : ∀ d ∈ w, isword isalnum d = true)
    (hu : ∀ d ∈ u, isspace d = true) (hc : isspace c = false)
    (hnext : u ≠ [] ∨ isword isalnum c = false) :
    (w ++ (u ++ c :: s)).takeWhile (isword isalnum) = w ∧
      next_char isalnum (w ++ (u ++ c :: s)) = some c := by
  have htake := Regex.takeWhile_run hw (head?_spaces hu hnext s)
  have hdrop : (w ++ (u ++ c :: s)).dropWhile (isword isalnum) = u ++ c :: s := by
    have hsplit := List.takeWhile_append_dropWhile (p := isword isalnum) (l := w ++ (u ++ c :: s))
    rw [htake] at hsplit
    exact List.append_cancel_left hsplit
  refine ⟨htake, ?_⟩
  rw [next_char, hdrop, lstrip_spaces hu, lstrip_cons hc]
  rfl

theorem begins_of_split {w u s : Text} {c : Char} (hw : w ∈ scope_words)
    (hu : ∀ d ∈ u, isspace d = true) (hc : isspace c = false)
    (hnext : u ≠ [] ∧ ident_start c = true ∨ c = '{') :
    Begins isalnum (w ++ (u ++ c :: s)) := by
  have hword : ∀ d ∈ w, isword isalnum d = true := by
    have hall : (scope_words.all fun w => w.all fun c => c.isAlphanum || c = '_') = true := by
      decide
    exact isword_ascii isalnum (List.all_eq_true.mp hall w hw)
  have hstop : u ≠ [] ∨ isword isalnum c = false := by
    rcases hnext with ⟨hne, _⟩ | rfl
    · exact Or.inl hne
    · exact Or.inr rfl
  obtain ⟨htake, hchar⟩ := next_char_eq (s := s) hword hu hc hstop
  exact ⟨by rwa [htake], c, hchar, hnext.imp_left And.right⟩

theorem class_or_struct_word {prev : Option Char} {t : Text} {m : Regex.Match}
    (h : m ∈ class_or_struct.exec prev t) : ∃ w ∈ scope_words, w <+: t ∧ m = ⟨w.length, []⟩ := by
  rcases List.mem_append.mp h with h | h
  · obtain ⟨hbegin, hm⟩ := Regex.mem_lit.mp h
    exact ⟨"class".toList, by decide, hbegin, hm⟩
  · obtain ⟨hbegin, hm⟩ := Regex.mem_lit.mp h
    exact ⟨"struct".toList, by decide, hbegin, hm⟩

theorem namespace_text {prev : Option Char} {t : Text} {m : Regex.Match}
    (h : m ∈ (Regex.lit "namespace").exec prev t) :
    ∃ w ∈ scope_words, w <+: t ∧ m = ⟨w.length, []⟩ := by
  obtain ⟨hbegin, hm⟩ := Regex.mem_lit.mp h
  exact ⟨namespace_word, by decide, hbegin, hm⟩

theorem not_isspace_of_start {c : Char} (h : ident_start c = true) : isspace c = false := by
  have hword : isword (fun _ => false) c = true := isword_of_start h
  exact not_isspace_of_isword hword

-- A keyword, whitespace and a name.
theorem begins_named {keyword rest : Regex} {t : Text} {m : Regex.Match}
    (hkeyword : ∀ {m : Regex.Match}, m ∈ keyword.exec none t →
      ∃ w ∈ scope_words, w <+: t ∧ m = ⟨w.length, []⟩)
    (h : m ∈ (Regex.seq keyword (.seq spaces1 (.seq (.group (ident isalnum)) rest))).exec none t) :
    Begins isalnum t := by
  obtain ⟨a, ha, b, hb, rfl⟩ := Regex.mem_seq.mp h
  obtain ⟨w, hw, ⟨t, rfl⟩, rfl⟩ := hkeyword ha
  obtain ⟨s, hs, n, hn, rfl⟩ := Regex.mem_seq.mp hb
  rw [List.drop_left] at hs hn
  obtain ⟨_, hpos, hlen⟩ := Regex.plus_run hs
  obtain ⟨i, hi, _, _, rfl⟩ := Regex.mem_seq.mp hn
  obtain ⟨inner, hinner, rfl⟩ := Regex.mem_group.mp hi
  obtain ⟨first, hfirst, _, _, rfl⟩ := Regex.mem_seq.mp hinner
  obtain ⟨c, rest, hdrop, hc, _⟩ := Regex.mem_chr.mp hfirst
  have hspaces := Regex.of_mem_take_run hlen
  have hne : t.take s.len ≠ [] := by
    intro hnil
    have hlength := congrArg List.length hnil
    have hle := (List.takeWhile_sublist (p := isspace) (l := t)).length_le
    rw [List.length_take, List.length_nil] at hlength
    omega
  have ht : t = t.take s.len ++ c :: rest := by rw [← hdrop, List.take_append_drop]
  rw [ht]
  exact begins_of_split hw hspaces (not_isspace_of_start hc) (Or.inl ⟨hne, hc⟩)

theorem begins_anonymous {t : Text} {m : Regex.Match} (h : m ∈ _ANON_NS_RE.exec none t) :
    Begins isalnum t := by
  obtain ⟨a, ha, b, hb, rfl⟩ := Regex.mem_seq.mp h
  obtain ⟨w, hw, ⟨t, rfl⟩, rfl⟩ := namespace_text ha
  obtain ⟨s, hs, n, hn, rfl⟩ := Regex.mem_seq.mp hb
  rw [List.drop_left] at hs hn
  obtain ⟨_, hlen⟩ := Regex.mem_star_chr.mp hs
  obtain ⟨c, rest, hdrop, hc, _⟩ := Regex.mem_chr.mp hn
  have hspaces := Regex.of_mem_take_run hlen
  have hbrace : c = '{' := of_decide_eq_true hc
  have ht : t = t.take s.len ++ c :: rest := by rw [← hdrop, List.take_append_drop]
  rw [ht, hbrace]
  exact begins_of_split hw hspaces (by decide) (Or.inr rfl)

theorem opened_none {t : Text} (h : ¬Begins isalnum t) : opened isalnum t = none := by
  have hnone {r : Regex} (hr : ∀ m ∈ r.exec none t, Begins isalnum t) : r.matchAt t = none := by
    rw [Regex.matchAt, List.head?_eq_none_iff]
    exact List.eq_nil_iff_forall_not_mem.mpr fun m hm => h (hr m hm)
  have hns : (_NAMESPACE_RE isalnum).matchAt t = none := hnone fun _ hm =>
    begins_named namespace_text hm
  have hanon : _ANON_NS_RE.matchAt t = none := hnone fun _ hm => begins_anonymous hm
  have hclass : (_CLASS_RE isalnum).matchAt t = none := hnone fun _ hm =>
    begins_named class_or_struct_word hm
  rw [opened, hns, hanon, hclass]
  rfl

end Begins

-- What the expressions for scopes match.
section Heads

theorem mem_spaces_is {x : Char} (hx : isspace x = false) {u v : Text}
    (hu : ∀ c ∈ u, isspace c = true) (hv : ∀ c, v.head? = some c → isspace c = false)
    {prev : Option Char} {m : Regex.Match} :
    m ∈ (Regex.seq spaces (.is x)).exec prev (u ++ v) ↔
      v.head? = some x ∧ m = ⟨u.length + 1, []⟩ := by
  have hstop (prev : Option Char) (c : Char) (s : Text) (hc : isspace c = true) :
      (Regex.is x).exec prev (c :: s) = [] := exec_is_ne (ne_of_isspace hc hx) prev s
  have hrun : m ∈ (Regex.seq spaces (.is x)).exec prev (u ++ v) ↔
      ∃ b ∈ (Regex.is x).exec (Regex.behind prev u) v,
        m = (⟨u.length, []⟩ : Regex.Match).append b := Regex.mem_star_seq hu hv hstop
  rw [hrun]
  constructor
  · rintro ⟨b, hb, rfl⟩
    obtain ⟨c, s, rfl, hc, rfl⟩ := Regex.mem_chr.mp hb
    rw [of_decide_eq_true hc]
    exact ⟨rfl, rfl⟩
  · rintro ⟨hhead, rfl⟩
    obtain ⟨s, rfl⟩ := List.head?_eq_some_iff.mp hhead
    exact ⟨⟨1, []⟩, Regex.mem_chr.mpr ⟨x, s, rfl, decide_eq_true rfl, rfl⟩, rfl⟩

-- A keyword, whitespace and a name, before something that a name does not go on with.
theorem mem_named {keyword rest : Regex} {w v : Text} (gap : Spaces1) (name : Ident isalnum)
    (hkeyword : ∀ {t m}, m ∈ keyword.exec none (w ++ t) ↔ m = (⟨w.length, []⟩ : Regex.Match))
    (hv : ∀ c, v.head? = some c → isword isalnum c = false)
    (hstop : ∀ e c s, isword isalnum e = true → isword isalnum c = true →
      rest.exec (some e) (c :: s) = []) {m : Regex.Match} :
    m ∈ (Regex.seq keyword (.seq spaces1 (.seq (.group (ident isalnum)) rest))).exec none
        (w ++ (gap.text ++ (name.text ++ v))) ↔
      ∃ b ∈ rest.exec name.text.getLast? v,
        m = (⟨w.length + (gap.text.length + name.text.length), [name.text]⟩ :
          Regex.Match).append b := by
  have hspaces (prev : Option Char) (c : Char) (s : Text) (hc : isspace c = true) :
      (Regex.seq (.group (ident isalnum)) rest).exec prev (c :: s) = [] := by
    refine List.eq_nil_iff_forall_not_mem.mpr fun m hm => ?_
    obtain ⟨i, hi, _⟩ := Regex.mem_seq.mp hm
    obtain ⟨inner, hinner, rfl⟩ := Regex.mem_group.mp hi
    obtain ⟨first, hfirst, _⟩ := Regex.mem_seq.mp hinner
    obtain ⟨d, rest, hcons, hd, _⟩ := Regex.mem_chr.mp hfirst
    obtain ⟨rfl, _⟩ := List.cons.inj hcons
    rw [not_isspace_of_start hd] at hc
    cases hc
  have hname : ∀ c, (name.text ++ v).head? = some c → isspace c = false := by
    intro c hc
    rw [← Option.some.inj hc]
    exact not_isspace_of_start name.first_ok
  have hrun (prev : Option Char) (m : Regex.Match) :
      m ∈ (Regex.seq spaces1 (.seq (.group (ident isalnum)) rest)).exec prev
          (gap.text ++ (name.text ++ v)) ↔
        ∃ b ∈ (Regex.seq (.group (ident isalnum)) rest).exec (Regex.behind prev gap.text)
          (name.text ++ v), m = (⟨gap.text.length, []⟩ : Regex.Match).append b :=
    Regex.mem_plus_seq gap.ne_nil gap.isspace hname hspaces
  have hword : ∀ c ∈ name.rest, isword isalnum c = true := List.all_eq_true.mp name.rest_ok
  have hgroup (prev : Option Char) (m : Regex.Match) :
      m ∈ (Regex.seq (.group (ident isalnum)) rest).exec prev (name.text ++ v) ↔
        ∃ b ∈ rest.exec (Regex.behind prev name.text) v,
          m = (⟨name.text.length, [name.text]⟩ : Regex.Match).append b := by
    refine Regex.mem_group_seq name.first_ok hword hv ?_
    rintro prev d s ⟨e, rfl, he⟩ hd
    refine hstop e d s ?_ hd
    rcases he with rfl | he
    · exact isword_of_start name.first_ok
    · exact hword e he
  rw [Regex.mem_seq]
  constructor
  · rintro ⟨a, ha, b, hb, rfl⟩
    cases hkeyword.mp ha
    rw [List.drop_left] at hb
    obtain ⟨c, hc, rfl⟩ := (hrun _ _).mp hb
    obtain ⟨d, hd, rfl⟩ := (hgroup _ _).mp hc
    rw [Regex.behind_eq name.ne_nil] at hd
    refine ⟨d, hd, ?_⟩
    simp [Regex.Match.append, Nat.add_assoc]
  · rintro ⟨d, hd, rfl⟩
    refine ⟨⟨w.length, []⟩, hkeyword.mpr rfl, (⟨gap.text.length, []⟩ : Regex.Match).append
      ((⟨name.text.length, [name.text]⟩ : Regex.Match).append d), ?_, ?_⟩
    · rw [List.drop_left]
      refine (hrun _ _).mpr ⟨_, (hgroup _ _).mpr ⟨d, ?_, rfl⟩, rfl⟩
      rwa [Regex.behind_eq name.ne_nil]
    · simp [Regex.Match.append, Nat.add_assoc]

theorem mem_namespace {t : Text} {m : Regex.Match} :
    m ∈ (Regex.lit "namespace").exec none (namespace_word ++ t) ↔
      m = ⟨namespace_word.length, []⟩ := by
  rw [Regex.mem_lit]
  exact ⟨fun h => h.2, fun h => ⟨List.prefix_append _ t, h⟩⟩

theorem mem_class_or_struct {key : ClassKey} {t : Text} {m : Regex.Match} :
    m ∈ class_or_struct.exec none (key.text ++ t) ↔ m = ⟨key.text.length, []⟩ := by
  have hsplit : m ∈ class_or_struct.exec none (key.text ++ t) ↔
      m ∈ (Regex.lit "class").exec none (key.text ++ t) ∨
        m ∈ (Regex.lit "struct").exec none (key.text ++ t) := List.mem_append
  rw [hsplit, Regex.mem_lit, Regex.mem_lit]
  cases key with
  | class_ =>
      have hother : ¬"struct".toList <+: ClassKey.class_.text ++ t := by
        intro h
        exact absurd ( List.cons_prefix_cons.mp h).1 (by decide)
      exact ⟨fun h => h.elim And.right fun h => absurd h.1 hother,
        fun h => Or.inl ⟨List.prefix_append _ t, h⟩⟩
  | struct_ =>
      have hother : ¬"class".toList <+: ClassKey.struct_.text ++ t := by
        intro h
        exact absurd ( List.cons_prefix_cons.mp h).1 (by decide)
      exact ⟨fun h => h.elim (fun h => absurd h.1 hother) And.right,
        fun h => Or.inr ⟨List.prefix_append _ t, h⟩⟩

-- A scope's expression matches up to the first brace.
theorem scope_len {r : Regex} (hr : ScopeRegex isalnum r) {u t : Text}
    (hu : ∀ c ∈ u, c ≠ ';' ∧ c ≠ '{' ∧ c ≠ '}') {m : Regex.Match}
    (h : m ∈ r.exec none (u ++ '{' :: t)) : m.len = u.length + 1 := by
  obtain ⟨k, hlen, hk, hplain⟩ := scope_ends isalnum hr h
  have hge : u.length ≤ k := by
    by_contra hlt
    rw [List.getElem?_append_left (by omega)] at hk
    exact (hu _ (List.mem_of_getElem? hk)).2.1 rfl
  have hle : k ≤ u.length := by
    by_contra hlt
    have hmem : '{' ∈ (u ++ '{' :: t).take k := by
      refine List.mem_of_getElem? (i := u.length) ?_
      rw [List.getElem?_take_of_lt (by omega), List.getElem?_append_right (Nat.le_refl _),
        Nat.sub_self]
      rfl
    exact hplain '{' hmem (by decide)
  omega

theorem matchAt_scope {r : Regex} (hr : ScopeRegex isalnum r) {u : Text}
    (hu : ∀ c ∈ u, c ≠ ';' ∧ c ≠ '{' ∧ c ≠ '}') (t : Text) (name : Option Text)
    (hex : ∃ m, m ∈ r.exec none (u ++ '{' :: t))
    (hname : ∀ m ∈ r.exec none (u ++ '{' :: t), m.groups.head? = name) :
    ∃ m, r.matchAt (u ++ '{' :: t) = some m ∧ m.len = u.length + 1 ∧ m.groups.head? = name := by
  obtain ⟨m, hm⟩ := hex
  cases hmatch : r.matchAt (u ++ '{' :: t) with
  | none =>
      rw [Regex.matchAt, List.head?_eq_none_iff] at hmatch
      rw [hmatch] at hm
      cases hm
  | some m' =>
      have hmem := matchAt_mem hmatch
      exact ⟨m', rfl, scope_len hr hu hmem, hname m' hmem⟩

theorem mem_trail {trail : Spaces} {t : Text} {prev : Option Char} {m : Regex.Match} :
    m ∈ (Regex.seq spaces (.is '{')).exec prev (trail.text ++ '{' :: t) ↔
      m = ⟨trail.text.length + 1, []⟩ := by
  rw [mem_spaces_is (by decide) trail.isspace fun d hd => by rw [← Option.some.inj hd]; decide]
  exact ⟨fun h => h.2, fun h => ⟨rfl, h⟩⟩

theorem exec_namespace {gap : Spaces1} {name : Ident isalnum} {trail : Spaces} {t : Text}
    {m : Regex.Match} :
    m ∈ (_NAMESPACE_RE isalnum).exec none
        (namespace_word ++ (gap.text ++ (name.text ++ (trail.text ++ '{' :: t)))) ↔
      m = ⟨namespace_word.length + (gap.text.length + name.text.length) +
        (trail.text.length + 1), [name.text]⟩ := by
  have hstop (e c : Char) (s : Text) (_ : isword isalnum e = true)
      (hc : isword isalnum c = true) :
      (Regex.seq spaces (.is '{')).exec (some e) (c :: s) = [] := by
    refine List.eq_nil_iff_forall_not_mem.mpr fun m hm => ?_
    have hspace := not_isspace_of_isword hc
    have hfound := (mem_spaces_is (u := []) (by decide) (by simp)
      (fun d hd => by rw [← Option.some.inj hd]; exact hspace)).mp hm
    cases Option.some.inj hfound.1
    cases hc
  have hbrace : trail.text ≠ [] ∨ isword isalnum '{' = false := Or.inr rfl
  have hnamed := mem_named (m := m) gap name mem_namespace
    (head?_spaces trail.isspace hbrace t) hstop
  refine hnamed.trans ⟨?_, fun h => ⟨_, mem_trail.mpr rfl, h⟩⟩
  rintro ⟨b, hb, rfl⟩
  cases mem_trail.mp hb
  rfl

theorem exec_anonymous {trail : Spaces} {t : Text} {m : Regex.Match} :
    m ∈ _ANON_NS_RE.exec none (namespace_word ++ (trail.text ++ '{' :: t)) ↔
      m = ⟨namespace_word.length + (trail.text.length + 1), []⟩ := by
  refine Regex.mem_seq.trans ⟨?_, ?_⟩
  · rintro ⟨a, ha, b, hb, rfl⟩
    cases mem_namespace.mp ha
    rw [List.drop_left] at hb
    cases mem_trail.mp hb
    rfl
  · rintro rfl
    refine ⟨_, mem_namespace.mpr rfl, ⟨trail.text.length + 1, []⟩, ?_, rfl⟩
    rw [List.drop_left]
    exact mem_trail.mpr rfl

-- Without a name the expression for one with a name does not match.
theorem namespace_anonymous (trail : Spaces) (t : Text) :
    (_NAMESPACE_RE isalnum).exec none (namespace_word ++ (trail.text ++ '{' :: t)) = [] := by
  refine List.eq_nil_iff_forall_not_mem.mpr fun m hm => ?_
  obtain ⟨a, ha, b, hb, rfl⟩ := Regex.mem_seq.mp hm
  cases mem_namespace.mp ha
  rw [List.drop_left] at hb
  obtain ⟨s, hs, n, hn, rfl⟩ := Regex.mem_seq.mp hb
  obtain ⟨_, _, hlen⟩ := Regex.plus_run hs
  rw [Regex.takeWhile_run trail.isspace fun d hd => by rw [← Option.some.inj hd]; decide] at hlen
  obtain ⟨i, hi, _⟩ := Regex.mem_seq.mp hn
  obtain ⟨inner, hinner, rfl⟩ := Regex.mem_group.mp hi
  obtain ⟨first, hfirst, _⟩ := Regex.mem_seq.mp hinner
  obtain ⟨d, rest, hcons, hd, _⟩ := Regex.mem_chr.mp hfirst
  rw [List.drop_append_of_le_length hlen] at hcons
  cases hrun : trail.text.drop s.len with
  | nil =>
      rw [hrun] at hcons
      rw [← (List.cons.inj hcons).1] at hd
      cases hd
  | cons e u =>
      rw [hrun] at hcons
      have hmem : e ∈ trail.text := List.mem_of_mem_drop (hrun ▸ List.mem_cons_self)
      have hspace := trail.isspace e hmem
      rw [(List.cons.inj hcons).1, not_isspace_of_start hd] at hspace
      cases hspace

-- What comes behind the name of a class, for the expression and without what is blanked.
def class_rest (isalnum : Char → Bool) : Regex :=
  .seq (.boundary (isword isalnum))
    (.seq (.opt (.seqs [spaces, .is ':', .star (.chr fun c => c ≠ ';' && c ≠ '{')]))
      (.seq spaces (.is '{')))

theorem class_rest_word (e c : Char) (s : Text) (he : isword isalnum e = true)
    (hc : isword isalnum c = true) : (class_rest isalnum).exec (some e) (c :: s) = [] := by
  rw [class_rest, Regex.exec_boundary_seq, if_neg]
  simp [Regex.isWord, he, hc]

theorem head?_tail (tail : ClassTail) (t : Text) :
    ∀ c, (neutralize tail.text ++ '{' :: t).head? = some c → isword isalnum c = false := by
  cases tail with
  | spaces s =>
      rw [ClassTail.text, neutralize_plain_self (bare_spaces s).plain]
      exact head?_spaces s.isspace (Or.inr rfl) t
  | bases b =>
      rw [ClassTail.text, neutralize_plain (bare_spaces b.gap).plain, neutralize_cons rfl,
        List.append_assoc]
      exact head?_spaces b.gap.isspace (Or.inr rfl) _

theorem class_rest_matches (name : Ident isalnum) (tail : ClassTail) (t : Text) :
    ∃ m, m ∈ (class_rest isalnum).exec name.text.getLast? (neutralize tail.text ++ '{' :: t) := by
  obtain ⟨e, he⟩ := Option.isSome_iff_exists.mp (List.getLast?_isSome.mpr name.ne_nil)
  have hlast : Regex.isWord (isword isalnum) name.text.getLast? = true := by
    rw [he]
    exact name.isword e (List.mem_of_getLast? he)
  have hnext : Regex.isWord (isword isalnum) (neutralize tail.text ++ '{' :: t).head? = false := by
    cases hhead : (neutralize tail.text ++ '{' :: t).head? with
    | none => rfl
    | some c => exact head?_tail tail t c hhead
  rw [class_rest, Regex.exec_boundary_seq, if_pos (by rw [hlast, hnext]; rfl)]
  have htrail (prev : Option Char) (s : Spaces) :
      Regex.Matches (.seq spaces (.is '{')) prev (s.text ++ ['{']) t :=
    Regex.matches_seq (Regex.matches_star_chr s.isspace) Regex.matches_is
  cases tail with
  | spaces s =>
      rw [ClassTail.text, neutralize_plain_self (bare_spaces s).plain]
      obtain ⟨m, hm, _⟩ := Regex.matches_seq Regex.matches_opt_nil (htrail _ s)
      rw [List.nil_append, List.append_assoc] at hm
      exact ⟨m, hm⟩
  | bases b =>
      have hbases : ∀ c ∈ neutralize b.text, (c ≠ ';' && c ≠ '{') = true := by
        intro c hc
        have hplain := List.all_eq_true.mp b.plain c hc
        rw [Bool.and_eq_true] at hplain
        exact hplain.1
      have hclause (prev : Option Char) (v : Text) : Regex.Matches
          (.opt (.seqs [spaces, .is ':', .star (.chr fun c => c ≠ ';' && c ≠ '{')])) prev
          (b.gap.text ++ ([':'] ++ neutralize b.text)) v :=
        Regex.matches_opt (Regex.matches_seq (Regex.matches_star_chr b.gap.isspace)
          (Regex.matches_seq Regex.matches_is (Regex.matches_star_chr hbases)))
      obtain ⟨m, hm, _⟩ := Regex.matches_seq (hclause _ _) (htrail _ Spaces.none)
      have htext : neutralize (ClassTail.bases b).text ++ '{' :: t =
          b.gap.text ++ ([':'] ++ neutralize b.text) ++ (Spaces.none.text ++ ['{']) ++ t := by
        rw [ClassTail.text, neutralize_plain (bare_spaces b.gap).plain, neutralize_cons rfl]
        simp [Spaces.none]
      rw [htext]
      exact ⟨m, hm⟩

theorem exec_class (key : ClassKey) (gap : Spaces1) (name : Ident isalnum) (tail : ClassTail)
    (t : Text) :
    (∃ m, m ∈ (_CLASS_RE isalnum).exec none
      (key.text ++ (gap.text ++ (name.text ++ (neutralize tail.text ++ '{' :: t))))) ∧
    ∀ m ∈ (_CLASS_RE isalnum).exec none
      (key.text ++ (gap.text ++ (name.text ++ (neutralize tail.text ++ '{' :: t)))),
      m.groups.head? = some name.text := by
  have hkey {t : Text} {m : Regex.Match} :
      m ∈ class_or_struct.exec none (key.text ++ t) ↔ m = ⟨key.text.length, []⟩ :=
    mem_class_or_struct
  have hnamed {m : Regex.Match} :=
    mem_named (m := m) gap name hkey (head?_tail tail t) class_rest_word
  constructor
  · obtain ⟨b, hb⟩ := class_rest_matches name tail t
    exact ⟨_, hnamed.mpr ⟨b, hb, rfl⟩⟩
  · intro m hm
    obtain ⟨b, _, rfl⟩ := hnamed.mp hm
    rfl

theorem not_namespace (key : ClassKey) {first : Regex} (t : Text)
    (hfirst : ∃ rest, first = .seq (.lit "namespace") rest) :
    first.matchAt (key.text ++ t) = none := by
  obtain ⟨rest, rfl⟩ := hfirst
  rw [Regex.matchAt, List.head?_eq_none_iff]
  refine List.eq_nil_iff_forall_not_mem.mpr fun m hm => ?_
  obtain ⟨a, ha, _⟩ := Regex.mem_seq.mp hm
  have hbegin := (Regex.mem_lit.mp ha).1
  cases key with
  | class_ => exact absurd ( List.cons_prefix_cons.mp hbegin).1 (by decide)
  | struct_ => exact absurd ( List.cons_prefix_cons.mp hbegin).1 (by decide)

-- At the text of the head its scope is opened, and nothing else.
def Head.Opens (h : Head isalnum) (t : Text) : Prop :=
  ∃ next : Nat → Nat, opened isalnum (neutralize h.text ++ '{' :: t) =
    some (braced (neutralize h.text ++ '{' :: t) ((neutralize h.text).length + 1) fun len =>
      .scope h.name ((neutralize h.text).length + 1) len (next len))

theorem opened_namespace (gap : Spaces1) (name : Ident isalnum) (trail : Spaces) (t : Text) :
    (Head.namespace_ gap name trail).Opens t := by
  have hquiet := (Head.namespace_ gap name trail).quiet
  have hbare : Bare (Head.namespace_ gap name trail).text :=
    bare_append bare_namespace (bare_append (bare_spaces _)
      (bare_append (bare_ident name) (bare_spaces trail)))
  rw [neutralize_plain_self hbare.plain] at hquiet
  have htext : (Head.namespace_ gap name trail).text ++ '{' :: t =
      namespace_word ++ (gap.text ++ (name.text ++ (trail.text ++ '{' :: t))) := by
    simp [Head.text]
  have hscope : ScopeRegex isalnum (_NAMESPACE_RE isalnum) := .of_namespace
  obtain ⟨m, hmatch, hlen, hgroups⟩ := matchAt_scope hscope hquiet t (some name.text)
    (by rw [htext]; exact ⟨_, exec_namespace.mpr rfl⟩)
    (by
      rw [htext]
      intro m hm
      rw [exec_namespace.mp hm]
      rfl)
  refine ⟨fun len => (Head.namespace_ gap name trail).text.length + 1 + len + 1, ?_⟩
  rw [neutralize_plain_self hbare.plain, opened, hmatch]
  simp only [hlen, hgroups]
  rfl

theorem opened_anonymous (trail : Spaces) (t : Text) :
    (Head.anonymous trail : Head isalnum).Opens t := by
  have hquiet := (Head.anonymous trail : Head isalnum).quiet
  have hbare : Bare (Head.anonymous trail : Head isalnum).text :=
    bare_append bare_namespace (bare_spaces trail)
  rw [neutralize_plain_self hbare.plain] at hquiet
  have htext : (Head.anonymous trail : Head isalnum).text ++ '{' :: t =
      namespace_word ++ (trail.text ++ '{' :: t) := by
    simp [Head.text]
  have hscope : ScopeRegex isalnum _ANON_NS_RE := .of_anon_ns
  obtain ⟨m, hmatch, hlen, _⟩ := matchAt_scope hscope hquiet t none
    (by rw [htext]; exact ⟨_, exec_anonymous.mpr rfl⟩)
    (by
      rw [htext]
      intro m hm
      rw [exec_anonymous.mp hm]
      rfl)
  have hnone : (_NAMESPACE_RE isalnum).matchAt ((Head.anonymous trail : Head isalnum).text ++
      '{' :: t) = none := by
    rw [htext, Regex.matchAt, namespace_anonymous]
    rfl
  refine ⟨fun len => (Head.anonymous trail : Head isalnum).text.length + 1 + len + 1, ?_⟩
  rw [neutralize_plain_self hbare.plain, opened, hnone, hmatch]
  simp only [hlen]
  rfl

theorem opened_class (key : ClassKey) (gap : Spaces1) (name : Ident isalnum) (tail : ClassTail)
    (closing : Spaces) (t : Text) : (Head.class_ key gap name tail closing).Opens t := by
  have hquiet := (Head.class_ key gap name tail closing).quiet
  have hfront : Bare (key.text ++ (gap.text ++ name.text)) :=
    bare_append key.bare (bare_append (bare_spaces _) (bare_ident name))
  have hneutral : neutralize (Head.class_ key gap name tail closing).text =
      key.text ++ (gap.text ++ (name.text ++ neutralize tail.text)) := by
    have hsplit : (Head.class_ key gap name tail closing).text =
        key.text ++ (gap.text ++ name.text) ++ tail.text := by simp [Head.text]
    rw [hsplit, hfront.complete, neutralize_plain_self hfront.plain]
    simp
  have htext : neutralize (Head.class_ key gap name tail closing).text ++ '{' :: t =
      key.text ++ (gap.text ++ (name.text ++ (neutralize tail.text ++ '{' :: t))) := by
    rw [hneutral]
    simp
  obtain ⟨hex, hgroup⟩ := exec_class key gap name tail t
  have hscope : ScopeRegex isalnum (_CLASS_RE isalnum) := .of_class
  obtain ⟨m, hmatch, hlen, hgroups⟩ := matchAt_scope hscope hquiet t (some name.text)
    (by rwa [htext]) (by rwa [htext])
  have hns : (_NAMESPACE_RE isalnum).matchAt
      (neutralize (Head.class_ key gap name tail closing).text ++ '{' :: t) = none := by
    rw [htext]
    exact not_namespace key _ ⟨_, rfl⟩
  have hanon : _ANON_NS_RE.matchAt
      (neutralize (Head.class_ key gap name tail closing).text ++ '{' :: t) = none := by
    rw [htext]
    exact not_namespace key _ ⟨_, rfl⟩
  refine ⟨fun len =>
    let close := (neutralize (Head.class_ key gap name tail closing).text).length + 1 + len
    close + 1 + skip_semicolon
      ((neutralize (Head.class_ key gap name tail closing).text ++ '{' :: t).drop (close + 1)),
    ?_⟩
  rw [opened, hns, hanon, hmatch]
  simp only [Option.map_some, hlen, hgroups]
  rfl

theorem opened_head (h : Head isalnum) (t : Text) : h.Opens t := by
  cases h with
  | namespace_ gap name trail => exact opened_namespace gap name trail t
  | anonymous trail => exact opened_anonymous trail t
  | class_ key gap name tail closing => exact opened_class key gap name tail closing t

end Heads

end Diagrams

end CortexFlow
