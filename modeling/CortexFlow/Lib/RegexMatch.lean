import CortexFlow.Lib.RegexSpans
import Mathlib

namespace CortexFlow.Lib

namespace Regex

theorem mem_chr {p : Char → Bool} {prev : Option Char} {t : List Char} {m : Match} :
    m ∈ (chr p).exec prev t ↔ ∃ c s, t = c :: s ∧ p c = true ∧ m = ⟨1, []⟩ := by
  cases t with
  | nil => simp [exec]
  | cons c t =>
      simp only [exec]
      by_cases hp : p c = true
      · rw [if_pos hp, List.mem_singleton]
        constructor
        · intro h
          exact ⟨c, t, rfl, hp, h⟩
        · rintro ⟨_, _, _, _, h⟩
          exact h
      · rw [if_neg hp]
        constructor
        · intro h
          cases h
        · rintro ⟨d, s, hcons, hd, _⟩
          obtain ⟨rfl, _⟩ := List.cons.inj hcons
          exact absurd hd hp

theorem exec_chr_ne {p : Char → Bool} {c : Char} (hc : p c = false) (prev : Option Char)
    (t : List Char) : (chr p).exec prev (c :: t) = [] := if_neg (by rw [hc]; decide)

theorem mem_group {r : Regex} {prev : Option Char} {t : List Char} {m : Match} :
    m ∈ (group r).exec prev t ↔
      ∃ a ∈ r.exec prev t, m = ⟨a.len, t.take a.len :: a.groups⟩ := by
  rw [exec, List.mem_map]
  exact exists_congr fun a => and_congr_right fun _ => eq_comm

theorem mem_opt {r : Regex} {prev : Option Char} {t : List Char} {m : Match} :
    m ∈ (opt r).exec prev t ↔ m ∈ r.exec prev t ∨ m = ⟨0, []⟩ := by
  rw [opt, exec, List.mem_append, exec, List.mem_singleton]

-- As many characters of a class as there are, or fewer.
theorem mem_star_chr {p : Char → Bool} {prev : Option Char} {t : List Char} {m : Match} :
    m ∈ (star (chr p)).exec prev t ↔ m.groups = [] ∧ m.len ≤ (t.takeWhile p).length := by
  have hzero {m : Match} : m = ⟨0, []⟩ ↔ m.groups = [] ∧ m.len = 0 := by
    obtain ⟨len, groups⟩ := m
    rw [Match.mk.injEq, and_comm]
  rw [exec]
  induction t generalizing prev m with
  | nil =>
      rw [List.length_nil, iterate, List.mem_singleton, hzero, List.takeWhile_nil,
        List.length_nil, Nat.le_zero]
  | cons c t ih =>
      rw [List.length_cons, mem_iterate, hzero, List.takeWhile_cons]
      by_cases hp : p c = true
      · rw [if_pos hp, List.length_cons]
        constructor
        · rintro (⟨hgroups, hlen⟩ | ⟨a, ha, _, b, hb, rfl⟩)
          · exact ⟨hgroups, by omega⟩
          · obtain ⟨_, _, _, _, rfl⟩ := mem_chr.mp ha
            obtain ⟨hgroups, hlen⟩ := ih.mp hb
            have hadd : ((⟨1, []⟩ : Match).append b).len = 1 + b.len := rfl
            exact ⟨hgroups, by omega⟩
        · rintro ⟨hgroups, hlen⟩
          by_cases hnone : m.len = 0
          · exact Or.inl ⟨hgroups, hnone⟩
          · refine Or.inr ⟨⟨1, []⟩, mem_chr.mpr ⟨c, t, rfl, hp, rfl⟩, Nat.one_pos,
              ⟨m.len - 1, []⟩, ih.mpr ⟨rfl, by simp only; omega⟩, ?_⟩
            obtain ⟨len, groups⟩ := m
            simp only [Match.append, Match.mk.injEq, List.nil_append] at hgroups hnone ⊢
            exact ⟨by omega, hgroups⟩
      · rw [if_neg hp, List.length_nil, Nat.le_zero]
        constructor
        · rintro (h | ⟨a, ha, _⟩)
          · exact h
          · rw [exec_chr_ne (Bool.eq_false_iff.mpr hp)] at ha
            cases ha
        · exact Or.inl

theorem behind_drop {u : List Char} (prev : Option Char) (v : List Char) :
    lookback prev (u ++ v) u.length = behind prev u := by
  by_cases hu : u = []
  · rw [hu]
    rfl
  · have hlen := List.length_pos_of_ne_nil hu
    rw [behind, lookback, lookback, if_neg (by omega), if_neg (by omega),
      List.getElem?_append_left (by omega)]

theorem behind_cons (c : Char) (u : List Char) (prev : Option Char) :
    behind (some c) u = behind prev (c :: u) := by
  by_cases hu : u = []
  · rw [hu]
    rfl
  · rw [behind_eq hu, behind_eq (List.cons_ne_nil c u), List.getLast?_cons_of_ne_nil hu]

theorem takeWhile_run {p : Char → Bool} {u v : List Char} (hu : ∀ c ∈ u, p c = true)
    (hv : ∀ c, v.head? = some c → p c = false) : (u ++ v).takeWhile p = u := by
  have hnil : v.takeWhile p = [] := by
    cases v with
    | nil => rfl
    | cons c v => rw [List.takeWhile_cons, if_neg (by rw [hv c rfl]; decide)]
  rw [List.takeWhile_append_of_pos hu, hnil, List.append_nil]

theorem of_mem_take_run {p : Char → Bool} {t : List Char} {n : Nat}
    (hn : n ≤ (t.takeWhile p).length) : ∀ c ∈ t.take n, p c = true := by
  intro c hc
  have hsplit := List.takeWhile_append_dropWhile (p := p) (l := t)
  rw [← hsplit, List.take_append_of_le_length hn] at hc
  exact List.mem_takeWhile_imp (List.mem_of_mem_take hc)

-- A run of a class, before something that does not go on with it.
theorem mem_star_seq {p : Char → Bool} {rest : Regex} {u v : List Char}
    (hu : ∀ c ∈ u, p c = true) (hv : ∀ c, v.head? = some c → p c = false)
    (hstop : ∀ prev c s, p c = true → rest.exec prev (c :: s) = []) {prev : Option Char}
    {m : Match} :
    m ∈ (seq (star (chr p)) rest).exec prev (u ++ v) ↔
      ∃ b ∈ rest.exec (behind prev u) v, m = (⟨u.length, []⟩ : Match).append b := by
  have htake : ((u ++ v).takeWhile p).length = u.length := by rw [takeWhile_run hu hv]
  rw [mem_seq]
  constructor
  · rintro ⟨a, ha, b, hb, rfl⟩
    obtain ⟨hgroups, hlen⟩ := mem_star_chr.mp ha
    rw [htake] at hlen
    obtain ⟨len, groups⟩ := a
    simp only at hgroups hlen hb
    subst hgroups
    by_cases hall : len = u.length
    · subst hall
      rw [List.drop_left, behind_drop] at hb
      exact ⟨b, hb, rfl⟩
    · -- Where the run is cut short the rest does not match.
      have hlt : len < u.length := by omega
      have hdrop : (u ++ v).drop len = u[len] :: (u.drop (len + 1) ++ v) := by
        rw [List.drop_append_of_le_length hlen, List.drop_eq_getElem_cons hlt, List.cons_append]
      rw [hdrop, hstop _ _ _ (hu _ (List.getElem_mem hlt))] at hb
      cases hb
  · rintro ⟨b, hb, rfl⟩
    refine ⟨⟨u.length, []⟩, mem_star_chr.mpr ⟨rfl, by rw [htake]⟩, b, ?_, rfl⟩
    rw [List.drop_left, behind_drop]
    exact hb

theorem append_assoc (a b c : Match) : (a.append b).append c = a.append (b.append c) := by
  simp only [Match.append, List.append_assoc, Nat.add_assoc]

theorem lookback_add (prev : Option Char) (t : List Char) (i j : Nat) :
    lookback (lookback prev t i) (t.drop i) j = lookback prev t (i + j) := by
  unfold lookback
  by_cases hj : j = 0
  · rw [if_pos hj, hj, Nat.add_zero]
  · rw [if_neg hj, if_neg (by omega), List.getElem?_drop]
    congr 1
    omega

theorem mem_seq_assoc {a b c : Regex} {prev : Option Char} {t : List Char} {m : Match} :
    m ∈ (seq (seq a b) c).exec prev t ↔ m ∈ (seq a (seq b c)).exec prev t := by
  simp only [mem_seq]
  constructor
  · rintro ⟨x, ⟨y, hy, z, hz, rfl⟩, w, hw, rfl⟩
    refine ⟨y, hy, z.append w, ⟨z, hz, w, ?_, rfl⟩, append_assoc y z w⟩
    rw [lookback_add, List.drop_drop]
    exact hw
  · rintro ⟨y, hy, x, ⟨z, hz, w, hw, rfl⟩, rfl⟩
    refine ⟨y.append z, ⟨y, hy, z, hz, rfl⟩, w, ?_, (append_assoc y z w).symm⟩
    rw [lookback_add, List.drop_drop] at hw
    exact hw

-- The same for a run that may not be empty.
theorem mem_plus_seq {p : Char → Bool} {rest : Regex} {u v : List Char} (hne : u ≠ [])
    (hu : ∀ c ∈ u, p c = true) (hv : ∀ c, v.head? = some c → p c = false)
    (hstop : ∀ prev c s, p c = true → rest.exec prev (c :: s) = []) {prev : Option Char}
    {m : Match} :
    m ∈ (seq (plus (chr p)) rest).exec prev (u ++ v) ↔
      ∃ b ∈ rest.exec (behind prev u) v, m = (⟨u.length, []⟩ : Match).append b := by
  obtain ⟨c, u, rfl⟩ := List.exists_cons_of_ne_nil hne
  have hrun : ∀ d ∈ u, p d = true := fun d hd => hu d (List.mem_cons_of_mem _ hd)
  have hbehind := behind_cons c u prev
  have hadd (b : Match) : (⟨1, []⟩ : Match).append ((⟨u.length, []⟩ : Match).append b) =
      (⟨(c :: u).length, []⟩ : Match).append b := by
    simp only [Match.append, List.nil_append, List.length_cons, Match.mk.injEq, and_true]
    omega
  rw [plus, mem_seq_assoc, mem_seq, List.cons_append]
  constructor
  · rintro ⟨a, ha, b, hb, rfl⟩
    obtain ⟨_, _, _, _, rfl⟩ := mem_chr.mp ha
    have hrest : b ∈ (seq (star (chr p)) rest).exec (some c) (u ++ v) := hb
    obtain ⟨d, hd, rfl⟩ := (mem_star_seq hrun hv hstop).mp hrest
    exact ⟨d, hbehind ▸ hd, hadd d⟩
  · rintro ⟨b, hb, rfl⟩
    refine ⟨⟨1, []⟩, mem_chr.mpr ⟨c, u ++ v, rfl, hu c List.mem_cons_self, rfl⟩,
      (⟨u.length, []⟩ : Match).append b, ?_, (hadd b).symm⟩
    exact (mem_star_seq hrun hv hstop).mpr ⟨b, hbehind ▸ hb, rfl⟩

-- What `plus` takes of any text.
theorem plus_run {p : Char → Bool} {prev : Option Char} {t : List Char} {m : Match}
    (h : m ∈ (plus (chr p)).exec prev t) :
    m.groups = [] ∧ 0 < m.len ∧ m.len ≤ (t.takeWhile p).length := by
  obtain ⟨a, ha, b, hb, rfl⟩ := mem_seq.mp h
  obtain ⟨c, s, rfl, hc, rfl⟩ := mem_chr.mp ha
  obtain ⟨hgroups, hlen⟩ := mem_star_chr.mp hb
  rw [List.takeWhile_cons, if_pos hc, List.length_cons]
  simp only [List.drop_succ_cons, List.drop_zero] at hlen
  have hadd : ((⟨1, []⟩ : Match).append b).len = 1 + b.len := rfl
  exact ⟨hgroups, by omega, by omega⟩

-- A group that captures a run with a first character of its own.
theorem mem_group_seq {q p : Char → Bool} {rest : Regex} {c : Char} {u v : List Char}
    (hc : q c = true) (hu : ∀ d ∈ u, p d = true) (hv : ∀ d, v.head? = some d → p d = false)
    (hstop : ∀ prev d s, (∃ e, prev = some e ∧ (e = c ∨ e ∈ u)) → p d = true →
      rest.exec prev (d :: s) = []) {prev : Option Char} {m : Match} :
    m ∈ (seq (group (seq (chr q) (star (chr p)))) rest).exec prev (c :: u ++ v) ↔
      ∃ b ∈ rest.exec (behind prev (c :: u)) v,
        m = (⟨(c :: u).length, [c :: u]⟩ : Match).append b := by
  have htake : ((u ++ v).takeWhile p).length = u.length := by rw [takeWhile_run hu hv]
  rw [mem_seq]
  constructor
  · rintro ⟨a, ha, b, hb, rfl⟩
    obtain ⟨inner, hinner, rfl⟩ := mem_group.mp ha
    obtain ⟨first, hfirst, run, hrun, rfl⟩ := mem_seq.mp hinner
    obtain ⟨_, _, _, _, rfl⟩ := mem_chr.mp hfirst
    obtain ⟨hgroups, hlen⟩ := mem_star_chr.mp hrun
    obtain ⟨len, groups⟩ := run
    simp only [List.drop_succ_cons, List.drop_zero, List.cons_append] at hgroups hlen hb
    rw [htake] at hlen
    subst hgroups
    simp only [Match.append, List.append_nil] at hb ⊢
    by_cases hall : len = u.length
    · subst hall
      have hlength : 1 + u.length = (c :: u).length := by rw [List.length_cons, Nat.add_comm]
      rw [hlength, ← List.cons_append, List.drop_left, behind_drop] at hb
      rw [hlength, List.take_left]
      exact ⟨b, hb, rfl⟩
    · have hlt : len < u.length := by omega
      have hdrop : (c :: (u ++ v)).drop (1 + len) = u[len] :: (u.drop (len + 1) ++ v) := by
        rw [Nat.add_comm, List.drop_succ_cons, List.drop_append_of_le_length hlen,
          List.drop_eq_getElem_cons hlt, List.cons_append]
      have hback : ∃ e, lookback prev (c :: (u ++ v)) (1 + len) = some e ∧ (e = c ∨ e ∈ u) := by
        rw [lookback, if_neg (by omega)]
        cases len with
        | zero => exact ⟨c, rfl, Or.inl rfl⟩
        | succ len =>
            refine ⟨u[len], ?_, Or.inr (List.getElem_mem _)⟩
            have hindex : 1 + (len + 1) - 1 = len + 1 := by omega
            rw [hindex, List.getElem?_cons_succ, List.getElem?_append_left (by omega),
              List.getElem?_eq_getElem (by omega)]
      rw [hdrop, hstop _ _ _ hback (hu _ (List.getElem_mem hlt))] at hb
      cases hb
  · rintro ⟨b, hb, rfl⟩
    have hlength : 1 + u.length = (c :: u).length := by rw [List.length_cons, Nat.add_comm]
    refine ⟨⟨(c :: u).length, [c :: u]⟩, mem_group.mpr ⟨⟨(c :: u).length, []⟩, ?_, ?_⟩, b, ?_, rfl⟩
    · refine mem_seq.mpr ⟨⟨1, []⟩, mem_chr.mpr ⟨c, u ++ v, rfl, hc, rfl⟩, ⟨u.length, []⟩,
        mem_star_chr.mpr ⟨rfl, ?_⟩, ?_⟩
      · simp only [List.cons_append, List.drop_succ_cons, List.drop_zero]
        rw [htake]
      · simp only [Match.append, hlength, List.append_nil]
    · rw [List.take_left]
    · rw [List.drop_left, behind_drop]
      exact hb

theorem mem_lit {text : String} {prev : Option Char} {t : List Char} {m : Match} :
    m ∈ (lit text).exec prev t ↔ text.toList <+: t ∧ m = ⟨text.toList.length, []⟩ := by
  rw [exec_lit]
  by_cases h : text.toList <+: t
  · rw [if_pos ( List.isPrefixOf_iff_prefix.mpr h), List.mem_singleton]
    exact ⟨fun hm => ⟨h, hm⟩, fun hm => hm.2⟩
  · rw [if_neg (mt List.isPrefixOf_iff_prefix.mp h)]
    exact ⟨fun hm => absurd hm List.not_mem_nil, fun hm => absurd hm.1 h⟩

-- The expression can take the text `u` where `v` comes behind it.
def Matches (r : Regex) (prev : Option Char) (u v : List Char) : Prop :=
  ∃ m ∈ r.exec prev (u ++ v), m.len = u.length

section Matches

variable {a b : Regex} {prev : Option Char} {u v w : List Char}

theorem matches_seq (ha : Matches a prev u (v ++ w)) (hb : Matches b (behind prev u) v w) :
    Matches (seq a b) prev (u ++ v) w := by
  obtain ⟨m, hm, hlen⟩ := ha
  obtain ⟨m', hm', hlen'⟩ := hb
  refine ⟨m.append m', ?_, by rw [len_append, hlen, hlen', List.length_append]⟩
  rw [List.append_assoc]
  refine mem_seq.mpr ⟨m, hm, m', ?_, rfl⟩
  rw [hlen, List.drop_left, behind_drop]
  exact hm'

theorem matches_chr {p : Char → Bool} {c : Char} (hc : p c = true) : Matches (chr p) prev [c] v :=
  ⟨⟨1, []⟩, mem_chr.mpr ⟨c, v, rfl, hc, rfl⟩, rfl⟩

theorem matches_is {c : Char} : Matches (is c) prev [c] v := matches_chr (decide_eq_true rfl)

theorem matches_star_chr {p : Char → Bool} (hu : ∀ c ∈ u, p c = true) :
    Matches (star (chr p)) prev u v := by
  refine ⟨⟨u.length, []⟩, mem_star_chr.mpr ⟨rfl, ?_⟩, rfl⟩
  rw [List.takeWhile_append_of_pos hu, List.length_append]
  exact Nat.le_add_right _ _

theorem matches_opt (h : Matches a prev u v) : Matches (opt a) prev u v := by
  obtain ⟨m, hm, hlen⟩ := h
  exact ⟨m, mem_opt.mpr (Or.inl hm), hlen⟩

theorem matches_opt_nil : Matches (opt a) prev [] v := ⟨_, mem_opt.mpr (Or.inr rfl), rfl⟩

theorem matches_lit {text : String} : Matches (lit text) prev text.toList v :=
  ⟨_, mem_lit.mpr ⟨List.prefix_append _ v, rfl⟩, rfl⟩

theorem matches_left (h : Matches a prev u v) : Matches (alt a b) prev u v := by
  obtain ⟨m, hm, hlen⟩ := h
  exact ⟨m, List.mem_append_left _ hm, hlen⟩

theorem matches_right (h : Matches b prev u v) : Matches (alt a b) prev u v := by
  obtain ⟨m, hm, hlen⟩ := h
  exact ⟨m, List.mem_append_right _ hm, hlen⟩

theorem matches_group (h : Matches a prev u v) : Matches (group a) prev u v := by
  obtain ⟨m, hm, hlen⟩ := h
  exact ⟨_, mem_group.mpr ⟨m, hm, rfl⟩, hlen⟩

theorem matches_final : Matches final prev [] [] := ⟨⟨0, []⟩, List.mem_singleton.mpr rfl, rfl⟩

theorem fullmatch_of_matches (h : Matches a none u []) : a.fullmatch u = true := by
  obtain ⟨m, hm, hlen⟩ := h
  rw [List.append_nil] at hm
  exact List.any_eq_true.mpr ⟨m, hm, decide_eq_true hlen⟩

end Matches

-- A repetition can take a text piece by piece.
inductive Pieces (r : Regex) : List Char → Prop
  | nil : Pieces r []
  | cons {u v : List Char} (hu : u ≠ [])
      (hr : ∀ prev t, Matches r prev u t) (hv : Pieces r v) :
      Pieces r (u ++ v)

theorem pieces_append {r : Regex} {u v : List Char} (hu : Pieces r u) (hv : Pieces r v) :
    Pieces r (u ++ v) := by
  induction hu with
  | nil => exact hv
  | cons hne hr _ ih =>
      rw [List.append_assoc]
      exact .cons hne hr ih

theorem matches_pieces {r : Regex} {u : List Char} (h : Pieces r u) (t : List Char)
    (prev : Option Char) : Matches (star r) prev u t := by
  have hfuel (fuel : Nat) (hlen : u.length ≤ fuel) (prev : Option Char) :
      ∃ m ∈ iterate true r.exec fuel prev (u ++ t), m.len = u.length := by
    induction h generalizing fuel prev with
    | nil =>
        refine ⟨⟨0, []⟩, ?_, rfl⟩
        cases fuel with
        | zero => exact List.mem_singleton.mpr rfl
        | succ fuel => exact mem_iterate.mpr (Or.inl rfl)
    | @cons u v hu hr hv ih =>
        have hpos := List.length_pos_of_ne_nil hu
        rw [List.length_append] at hlen
        cases fuel with
        | zero => omega
        | succ fuel =>
            obtain ⟨m, hm, hmlen⟩ := hr prev (v ++ t)
            obtain ⟨m', hm', hmlen'⟩ := ih fuel (by omega) (lookback prev (u ++ (v ++ t)) m.len)
            rw [List.append_assoc]
            refine ⟨m.append m', mem_iterate.mpr (Or.inr ⟨m, hm, by omega, m', ?_, rfl⟩), ?_⟩
            · rw [hmlen, List.drop_left]
              rw [hmlen] at hm'
              exact hm'
            · rw [len_append, hmlen, hmlen', List.length_append]
  exact hfuel (u ++ t).length (by rw [List.length_append]; omega) prev

-- The search goes on to where something can match.
theorem searchFrom_skip {r : Regex} {u t : List Char}
    (h : ∀ s, s ≠ [] → s <:+ u → ∀ prev, r.exec prev (s ++ t) = []) (prev : Option Char) :
    r.searchFrom prev (u ++ t) = r.searchFrom (behind prev u) t := by
  induction u generalizing prev with
  | nil => rfl
  | cons c u ih =>
      have hnone := h (c :: u) (List.cons_ne_nil c u) List.suffix_rfl prev
      have hrest := ih (fun s hs hsuffix => h s hs (hsuffix.trans (List.suffix_cons c u))) (some c)
      rw [List.cons_append] at hnone ⊢
      rw [searchFrom, hnone, List.head?_nil, ← behind_cons c u prev]
      exact hrest

theorem searchFrom_head {r : Regex} {prev : Option Char} {t : List Char} {m : Match}
    (h : (r.exec prev t).head? = some m) : r.searchFrom prev t = some (m, t) := by
  cases t with
  | nil => rw [searchFrom, h, Option.map_some]
  | cons c t => rw [searchFrom, h]

end Regex

end CortexFlow.Lib
