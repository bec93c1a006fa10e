import CortexFlow.Diagrams.Patterns
import Mathlib

namespace CortexFlow

namespace Diagrams

open Lib

-- Where the search ends.

theorem find_closing_some {opening closing : Char} {depth : Nat} {t : Text} {n : Nat}
    (h : find_closing opening closing depth t = some n) : t[n]? = some closing := by
  induction t generalizing depth n with
  | nil => exact nomatch h
  | cons c t ih =>
      simp only [find_closing] at h
      split_ifs at h with hopening hclosing hdepth
      · obtain ⟨k, hk, rfl⟩ := Option.map_eq_some_iff.mp h
        exact ih hk
      · cases h
        rw [hclosing]
        rfl
      · obtain ⟨k, hk, rfl⟩ := Option.map_eq_some_iff.mp h
        exact ih hk
      · obtain ⟨k, hk, rfl⟩ := Option.map_eq_some_iff.mp h
        exact ih hk


theorem lt_of_getElem? {t : Text} {n : Nat} {c : Char} (h : t[n]? = some c) : n < t.length :=
  (List.getElem?_eq_some_iff.mp h).1

-- The scope that opens at a position, if one does.
def opened (isalnum : Char → Bool) (t : Text) : Option Step :=
  match (_NAMESPACE_RE isalnum).matchAt t with
  | some m => some (braced t m.len fun len => .scope m.groups.head? m.len len (m.len + len + 1))
  | none =>
  match _ANON_NS_RE.matchAt t with
  | some m => some (braced t m.len fun len => .scope none m.len len (m.len + len + 1))
  | none =>
  ((_CLASS_RE isalnum).matchAt t).map fun m =>
    braced t m.len fun len =>
      let close := m.len + len
      .scope m.groups.head? m.len len (close + 1 + skip_semicolon (t.drop (close + 1)))

-- What a step of the walk of `_scan` goes over: something, and braces that are closed.
def Step.Sound (t : Text) : Step → Prop
  | .done => True
  | .next n => 0 < n
  | .scope _ start len n | .body _ start len n =>
      (∃ k, start = k + 1 ∧ t[k]? = some '{') ∧ t[start + len]? = some '}' ∧
        (n = start + len + 1 ∨ n = start + len + 1 + skip_semicolon (t.drop (start + len + 1)))

variable (isalnum : Char → Bool)

section Steps

theorem matchAt_mem {r : Regex} {t : Text} {m : Regex.Match} (h : r.matchAt t = some m) :
    m ∈ r.exec none t := List.mem_of_head? h

theorem find_next_top_plain {t : Text} {k : Nat} {c : Char} (hk : t[k]? = some c)
    (hc : c = ';' ∨ c = '{' ∨ c = '}') (hplain : ∀ d ∈ t.take k, d ∉ statement_ends) :
    find_next_top 0 t = some k := by
  induction t generalizing k with
  | nil => exact nomatch hk
  | cons d t ih =>
      cases k with
      | zero =>
          cases hk
          rcases hc with rfl | rfl | rfl <;> rfl
      | succ k =>
          have hd := hplain d List.mem_cons_self
          have hrest := ih hk fun d hd => hplain d (List.mem_cons_of_mem _ hd)
          simp only [statement_ends, List.mem_cons, List.not_mem_nil, or_false, not_or] at hd
          simp only [find_next_top, hd, if_false, or_false, and_false, hrest, Option.map_some]

-- A forward declaration is a statement like any other.
theorem statement_forward_decl {t : Text} {m : Regex.Match}
    (h : (_FORWARD_DECL_RE isalnum).matchAt t = some m) : statement isalnum t = .next m.len := by
  obtain ⟨k, hlen, hk, hplain⟩ := forward_decl_ends isalnum (matchAt_mem h)
  simp only [statement, find_next_top_plain hk (Or.inl rfl) hplain, hk, hlen]

theorem item_eq (t : Text) :
    item isalnum t = (opened isalnum t).getD (statement isalnum t) := by
  have hnone {r : Regex} (hr : ScopeRegex isalnum r) {m : Regex.Match}
      (h : (_FORWARD_DECL_RE isalnum).matchAt t = some m) : r.matchAt t = none := by
    cases hmatch : r.matchAt t with
    | none => rfl
    | some m' =>
        rw [Regex.matchAt, not_forward_decl isalnum hr (matchAt_mem hmatch)] at h
        exact nomatch h
  unfold item opened
  cases h : (_FORWARD_DECL_RE isalnum).matchAt t with
  | some m =>
      rw [hnone .of_namespace h, hnone .of_anon_ns h, hnone .of_class h]
      exact (statement_forward_decl isalnum h).symm
  | none =>
      cases (_NAMESPACE_RE isalnum).matchAt t with
      | some m => rfl
      | none =>
          cases _ANON_NS_RE.matchAt t with
          | some m => rfl
          | none =>
              cases (_CLASS_RE isalnum).matchAt t with
              | some m => rfl
              | none => rfl

theorem sound_braced {t : Text} {start : Nat} {item : Nat → Step}
    (hitem : ∀ len, t[start + len]? = some '}' → (item len).Sound t) :
    (braced t start item).Sound t := by
  unfold braced
  cases h : find_matching_brace 1 (t.drop start) with
  | none => trivial
  | some len =>
      have hclose := find_closing_some h
      rw [List.getElem?_drop] at hclose
      exact hitem len hclose

theorem scope_brace {r : Regex} (hr : ScopeRegex isalnum r) {t : Text} {m : Regex.Match}
    (h : r.matchAt t = some m) : ∃ k, m.len = k + 1 ∧ t[k]? = some '{' := by
  obtain ⟨k, hlen, hk, _⟩ := scope_ends isalnum hr (matchAt_mem h)
  exact ⟨k, hlen, hk⟩

theorem sound_opened {t : Text} {s : Step} (h : opened isalnum t = some s) : s.Sound t := by
  unfold opened at h
  split at h
  · rename_i m hm
    cases h
    exact sound_braced fun len hlen => ⟨scope_brace isalnum .of_namespace hm, hlen, Or.inl rfl⟩
  · split at h
    · rename_i m hm
      cases h
      exact sound_braced fun len hlen => ⟨scope_brace isalnum .of_anon_ns hm, hlen, Or.inl rfl⟩
    · obtain ⟨m, hm, rfl⟩ := Option.map_eq_some_iff.mp h
      exact sound_braced fun len hlen => ⟨scope_brace isalnum .of_class hm, hlen, Or.inr rfl⟩

theorem sound_statement (t : Text) : (statement isalnum t).Sound t := by
  unfold statement
  split
  · trivial
  · rename_i marker _
    split
    · exact Nat.succ_pos marker
    · rename_i hopen
      exact sound_braced fun len hlen => ⟨⟨marker, rfl, hopen⟩, hlen, Or.inr rfl⟩
    · trivial

theorem sound_step (t : Text) : (step isalnum t).Sound t := by
  cases t with
  | nil => trivial
  | cons c t =>
      have hline (hc : c ≠ '\n') : 0 < lineLength (c :: t) := by
        rw [lineLength, List.takeWhile_cons, if_pos (by simpa using hc)]
        exact Nat.succ_pos _
      simp only [step]
      split_ifs with hspace hclose hdirective hline' hblock
      · exact Nat.one_pos
      · trivial
      · exact hline (by rw [hdirective]; decide)
      · exact hline (by rw [hline'.1]; decide)
      · exact Nat.add_pos_left Nat.two_pos _
      · rw [item_eq]
        cases h : opened isalnum (c :: t) with
        | none => exact sound_statement isalnum _
        | some s => exact sound_opened isalnum h

end Steps

-- `_scan` with as many turns as it may need.
section Scanning

def scanAll (t prefix_ : Text) (bodies : Bodies) : Bodies :=
  _scan isalnum t.length t prefix_ bodies

theorem functions_eq (source : Text) :
    functions isalnum source = scanAll isalnum (neutralize source) [] [] := rfl

-- What the walk does from a step on.
def resume (t prefix_ : Text) (bodies : Bodies) : Step → Bodies
  | .done => bodies
  | .next n => scanAll isalnum (t.drop n) prefix_ bodies
  | .scope name start len n =>
      let inner := match name with
        | none => prefix_
        | some name => _join_qname prefix_ name
      scanAll isalnum (t.drop n) prefix_
        (scanAll isalnum ((t.drop start).take len) inner bodies)
  | .body none _ _ n => scanAll isalnum (t.drop n) prefix_ bodies
  | .body (some name) start len n =>
      scanAll isalnum (t.drop n) prefix_
        (bodies.insert (_join_qname prefix_ name) ((t.drop start).take len))

theorem scan_nil (fuel : Nat) (prefix_ : Text) (bodies : Bodies) :
    _scan isalnum fuel [] prefix_ bodies = bodies := by
  cases fuel with
  | zero => rfl
  | succ fuel => rfl

-- Each turn leaves less to go through.
theorem scan_fuel {fuel fuel' : Nat} {t : Text} (h : t.length ≤ fuel) (h' : t.length ≤ fuel')
    (prefix_ : Text) (bodies : Bodies) :
    _scan isalnum fuel t prefix_ bodies = _scan isalnum fuel' t prefix_ bodies := by
  induction fuel generalizing fuel' t prefix_ bodies with
  | zero =>
      rw [List.length_eq_zero_iff.mp (Nat.le_zero.mp h), scan_nil, scan_nil]
  | succ fuel ih =>
      cases fuel' with
      | zero => rw [List.length_eq_zero_iff.mp (Nat.le_zero.mp h'), scan_nil, scan_nil]
      | succ fuel' =>
          have hdrop {n : Nat} (hn : 0 < n) (prefix_ : Text) (bodies : Bodies) :
              _scan isalnum fuel (t.drop n) prefix_ bodies =
                _scan isalnum fuel' (t.drop n) prefix_ bodies := by
            apply ih
            · rw [List.length_drop]
              omega
            · rw [List.length_drop]
              omega
          have hsound := sound_step isalnum t
          simp only [_scan]
          cases hstep : step isalnum t with
          | done => rfl
          | next n =>
              rw [hstep] at hsound
              exact hdrop hsound _ _
          | scope name start len n =>
              rw [hstep] at hsound
              obtain ⟨⟨k, hstart, _⟩, _, hn⟩ := hsound
              have hinner (prefix_ : Text) : _scan isalnum fuel ((t.drop start).take len) prefix_
                  bodies = _scan isalnum fuel' ((t.drop start).take len) prefix_ bodies := by
                apply ih
                · rw [List.length_take, List.length_drop]
                  omega
                · rw [List.length_take, List.length_drop]
                  omega
              simp only [hinner]
              exact hdrop (by omega) _ _
          | body name start len n =>
              rw [hstep] at hsound
              obtain ⟨⟨k, hstart, _⟩, _, hn⟩ := hsound
              cases name with
              | none => exact hdrop (by omega) _ _
              | some name => exact hdrop (by omega) _ _

theorem scan_eq_scanAll {fuel : Nat} {t : Text} (h : t.length ≤ fuel) (prefix_ : Text)
    (bodies : Bodies) : _scan isalnum fuel t prefix_ bodies = scanAll isalnum t prefix_ bodies :=
  scan_fuel isalnum h (Nat.le_refl _) prefix_ bodies

theorem scanAll_eq (t prefix_ : Text) (bodies : Bodies) :
    scanAll isalnum t prefix_ bodies = resume isalnum t prefix_ bodies (step isalnum t) := by
  have hmore : scanAll isalnum t prefix_ bodies =
      _scan isalnum (t.length + 1) t prefix_ bodies :=
    (scan_eq_scanAll isalnum (Nat.le_succ _) prefix_ bodies).symm
  have hdrop (n : Nat) (prefix_ : Text) (bodies : Bodies) :
      _scan isalnum t.length (t.drop n) prefix_ bodies =
        scanAll isalnum (t.drop n) prefix_ bodies := by
    refine scan_eq_scanAll isalnum ?_ prefix_ bodies
    rw [List.length_drop]
    omega
  rw [hmore, _scan]
  cases hstep : step isalnum t with
  | done => rfl
  | next n => exact hdrop n prefix_ bodies
  | scope name start len n =>
      have hinner (prefix_ : Text) : _scan isalnum t.length ((t.drop start).take len) prefix_
          bodies = scanAll isalnum ((t.drop start).take len) prefix_ bodies := by
        refine scan_eq_scanAll isalnum ?_ prefix_ bodies
        rw [List.length_take, List.length_drop]
        omega
      exact (hdrop n prefix_ _).trans (congrArg _ (hinner _))
  | body name start len n =>
      cases name with
      | none => exact hdrop n prefix_ bodies
      | some name => exact hdrop n prefix_ _

theorem scanAll_space {c : Char} (hc : isspace c = true) (t prefix_ : Text) (bodies : Bodies) :
    scanAll isalnum (c :: t) prefix_ bodies = scanAll isalnum t prefix_ bodies := by
  rw [scanAll_eq, step, if_pos hc]
  rfl

theorem scanAll_spaces {u : Text} (hu : ∀ c ∈ u, isspace c = true) (t prefix_ : Text)
    (bodies : Bodies) :
    scanAll isalnum (u ++ t) prefix_ bodies = scanAll isalnum t prefix_ bodies := by
  induction u with
  | nil => rfl
  | cons c u ih =>
      rw [List.cons_append, scanAll_space isalnum (hu c List.mem_cons_self),
        ih fun c hc => hu c (List.mem_cons_of_mem _ hc)]

theorem opened_nil {c : Char} (hn : c ≠ 'n') (hc : c ≠ 'c') (hs : c ≠ 's') (t : Text) :
    opened isalnum (c :: t) = none := by
  have hname : (Regex.lit "namespace").exec none (c :: t) = [] :=
    exec_seq_nil (exec_is_ne hn none t) (.lit "amespace")
  have hclass : (Regex.lit "class").exec none (c :: t) = [] :=
    exec_seq_nil (exec_is_ne hc none t) (.lit "lass")
  have hstruct : (Regex.lit "struct").exec none (c :: t) = [] :=
    exec_seq_nil (exec_is_ne hs none t) (.lit "truct")
  have hboth : class_or_struct.exec none (c :: t) = [] := by
    rw [class_or_struct, Regex.exec, hclass, hstruct]
    rfl
  have hnone {first : Regex} (h : first.exec none (c :: t) = []) (rest : Regex) :
      (Regex.seq first rest).matchAt (c :: t) = none :=
    congrArg List.head? (exec_seq_nil h rest)
  have hns : (_NAMESPACE_RE isalnum).matchAt (c :: t) = none := hnone hname _
  have hanon : _ANON_NS_RE.matchAt (c :: t) = none := hnone hname _
  have hclass' : (_CLASS_RE isalnum).matchAt (c :: t) = none := hnone hboth _
  rw [opened, hns, hanon, hclass']
  rfl

theorem scanAll_semicolon (t prefix_ : Text) (bodies : Bodies) :
    scanAll isalnum (';' :: t) prefix_ bodies = scanAll isalnum t prefix_ bodies := by
  have hitem : item isalnum (';' :: t) = .next 1 := by
    rw [item_eq, opened_nil isalnum (by decide) (by decide) (by decide)]
    rfl
  have hstep : step isalnum (';' :: t) = item isalnum (';' :: t) := rfl
  rw [scanAll_eq, hstep, hitem]
  rfl

-- Whether the walk goes over the `;` behind the braces at once or in a turn of its own.
theorem scanAll_skip (t prefix_ : Text) (bodies : Bodies) :
    scanAll isalnum (t.drop (skip_semicolon t)) prefix_ bodies =
      scanAll isalnum t prefix_ bodies := by
  have hspaces : scanAll isalnum t prefix_ bodies =
      scanAll isalnum (t.drop (t.takeWhile isspace).length) prefix_ bodies := by
    have hsplit {u v : Text} (hu : ∀ c ∈ u, isspace c = true) (ht : t = u ++ v) :
        scanAll isalnum t prefix_ bodies = scanAll isalnum (t.drop u.length) prefix_ bodies := by
      rw [ht, List.drop_left, scanAll_spaces isalnum hu]
    exact hsplit (fun c hc => List.mem_takeWhile_imp hc) List.takeWhile_append_dropWhile.symm
  rw [hspaces, skip_semicolon]
  split_ifs with hsemicolon
  · obtain ⟨rest, hrest⟩ := List.head?_eq_some_iff.mp hsemicolon
    rw [← List.drop_drop, hrest, scanAll_semicolon]
    rfl
  · rfl

-- So what counts of a step is up to the closing brace.
def Step.close : Step → Step
  | .scope name start len _ => .scope name start len (start + len + 1)
  | .body name start len _ => .body name start len (start + len + 1)
  | s => s

theorem scanAll_close (t prefix_ : Text) (bodies : Bodies) :
    scanAll isalnum t prefix_ bodies =
      resume isalnum t prefix_ bodies (step isalnum t).close := by
  have hskip {start len n : Nat} (hn : n = start + len + 1 ∨
      n = start + len + 1 + skip_semicolon (t.drop (start + len + 1))) (bodies : Bodies) :
      scanAll isalnum (t.drop n) prefix_ bodies =
        scanAll isalnum (t.drop (start + len + 1)) prefix_ bodies := by
    rcases hn with rfl | rfl
    · rfl
    · rw [← List.drop_drop, scanAll_skip]
  have hsound := sound_step isalnum t
  rw [scanAll_eq]
  cases hstep : step isalnum t with
  | done => rfl
  | next n => rfl
  | scope name start len n =>
      rw [hstep] at hsound
      exact hskip hsound.2.2 _
  | body name start len n =>
      rw [hstep] at hsound
      cases name with
      | none => exact hskip hsound.2.2 _
      | some name => exact hskip hsound.2.2 _

end Scanning

-- Between two items a comment is skipped.
section Between

theorem lineLength_append {u v : Text} (hu : '\n' ∉ u) (hv : v = [] ∨ v.head? = some '\n') :
    lineLength (u ++ v) = u.length := by
  unfold lineLength
  induction u with
  | nil =>
      rcases hv with rfl | hv
      · rfl
      · obtain ⟨rest, rfl⟩ := List.head?_eq_some_iff.mp hv
        rfl
  | cons c u ih =>
      have hc : c ≠ '\n' := (List.ne_of_not_mem_cons hu).symm
      rw [List.cons_append, List.takeWhile_cons, if_pos (by simpa using hc), List.length_cons,
        ih (List.not_mem_of_not_mem_cons hu), List.length_cons]

theorem skip_block_cons {c : Char} (hc : c ≠ '*') (d : Char) (t : Text) :
    skip_block (c :: d :: t) = skip_block (d :: t) + 1 := by
  rw [skip_block]
  intro hstar _
  exact absurd hstar hc

theorem blank_ne_star (c : Char) : blank c ≠ '*' := by
  rcases blank_cases c with h | h
  · rw [h]
    decide
  · rw [h]
    decide

theorem skip_block_blanks (content rest : Text) :
    skip_block (blanks content ++ '*' :: '/' :: rest) = content.length + 2 := by
  induction content with
  | nil => rfl
  | cons c content ih =>
      have hcons : ∃ d t, blanks content ++ '*' :: '/' :: rest = d :: t := by
        cases content with
        | nil => exact ⟨_, _, rfl⟩
        | cons => exact ⟨_, _, rfl⟩
      obtain ⟨d, t, ht⟩ := hcons
      rw [blanks, List.map_cons, List.cons_append, ← blanks, ht, skip_block_cons (blank_ne_star c),
        ← ht, ih, List.length_cons]

theorem skip_block_unclosed (content : Text) :
    skip_block (blanks content) = content.length - 1 := by
  induction content with
  | nil => rfl
  | cons c content ih =>
      cases content with
      | nil => simp [blanks, skip_block]
      | cons d content =>
          have hcons := skip_block_cons (blank_ne_star c) (blank d) (blanks content)
          exact hcons.trans (congrArg (· + 1) ih)

theorem not_newline_blanks {content : Text} (h : '\n' ∉ content) : '\n' ∉ blanks content := by
  intro hmem
  obtain ⟨c, hc, hblank⟩ := List.mem_map.mp hmem
  have hne : c ≠ '\n' := fun h' => h (h' ▸ hc)
  rw [blank, if_neg hne] at hblank
  exact absurd hblank (by decide)

theorem take_neutralize {post : Text} (hpost : post = [] ∨ post.head? = some '\n') (k : Nat) :
    (neutralize post).take k = [] ∨ ((neutralize post).take k).head? = some '\n' := by
  rcases hpost with rfl | hpost
  · exact Or.inl List.take_nil
  · obtain ⟨rest, rfl⟩ := List.head?_eq_some_iff.mp hpost
    cases k with
    | zero => exact Or.inl rfl
    | succ k => exact Or.inr rfl

theorem scanAll_comment {post comment : Text} (h : Comment post comment) (k : Nat)
    (prefix_ : Text) (bodies : Bodies) :
    scanAll isalnum (neutralize comment ++ (neutralize post).take k) prefix_ bodies =
      scanAll isalnum ((neutralize post).take k) prefix_ bodies := by
  generalize hv : (neutralize post).take k = v
  cases h with
  | @line content hcontent hpost =>
      have hself := neutralize_line hcontent (Or.inl rfl)
      rw [List.append_nil, neutralize_nil, List.append_nil] at hself
      have hcomment : '\n' ∉ '/' :: '/' :: blanks content := by
        simpa using not_newline_blanks hcontent
      have hlength : lineLength ('/' :: '/' :: blanks content ++ v) =
          ('/' :: '/' :: blanks content).length :=
        lineLength_append hcomment (hv ▸ take_neutralize hpost k)
      have hstep : step isalnum ('/' :: '/' :: blanks content ++ v) =
          .next (lineLength ('/' :: '/' :: blanks content ++ v)) := rfl
      rw [hself, scanAll_eq, hstep, hlength, resume, List.drop_left]
  | @block content hcontent =>
      have hself := neutralize_block hcontent []
      have hstep : step isalnum ('/' :: '*' :: (blanks content ++ '*' :: '/' :: v)) =
          .next (2 + skip_block (blanks content ++ '*' :: '/' :: v)) := rfl
      have hdrop : ('/' :: '*' :: (blanks content ++ '*' :: '/' :: v)).drop
          (2 + (content.length + 2)) = v := by
        have hlength : 2 + (content.length + 2) =
            ('/' :: '*' :: (blanks content ++ ['*', '/'])).length := by
          simp [blanks]
          omega
        have happend : '/' :: '*' :: (blanks content ++ '*' :: '/' :: v) =
            '/' :: '*' :: (blanks content ++ ['*', '/']) ++ v := by
          simp
        rw [hlength, happend, List.drop_left]
      have happend : neutralize ('/' :: '*' :: (content ++ ['*', '/'])) ++ v =
          '/' :: '*' :: (blanks content ++ '*' :: '/' :: v) := by
        rw [hself]
        simp
      rw [happend, scanAll_eq, hstep, skip_block_blanks, resume, hdrop]
  | @unclosed content hcontent hpost =>
      have hnil : v = [] := by
        rw [← hv, hpost]
        exact List.take_nil
      have hstep : step isalnum ('/' :: '*' :: blanks content) =
          .next (2 + skip_block (blanks content)) := rfl
      have hrest : ∀ c ∈ (blanks content).drop (content.length - 1), isspace c = true :=
        fun c hc => isspace_blanks c (List.mem_of_mem_drop hc)
      have hspaces := scanAll_spaces isalnum hrest [] prefix_ bodies
      rw [List.append_nil] at hspaces
      rw [hnil, List.append_nil, neutralize_unclosed hcontent, scanAll_eq, hstep,
        skip_block_unclosed, resume, Nat.add_comm]
      exact hspaces

end Between

end Diagrams

end CortexFlow
