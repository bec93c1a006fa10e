import CortexFlow.Lib.RegexSearch
import Mathlib

namespace CortexFlow.Lib

namespace Regex

-- A match that `finditer` finds: where it starts, and the text behind it.
structure Span where
  start : Nat
  found : Match
  rest : List Char
deriving DecidableEq

-- `finditer` with the positions, for an expression that does not match the empty text.
def spansFrom (r : Regex) : Nat → Nat → Option Char → List Char → List Span
  | 0, _, _, _ => []
  | _ + 1, _, _, [] => []
  | fuel + 1, pos, prev, c :: t =>
      match (r.exec prev (c :: t)).head? with
      | some m =>
          ⟨pos, m, (c :: t).drop m.len⟩ ::
            r.spansFrom fuel (pos + m.len) (lookback prev (c :: t) m.len) ((c :: t).drop m.len)
      | none => r.spansFrom fuel (pos + 1) (some c) t

def spansAt (r : Regex) (pos : Nat) (prev : Option Char) (t : List Char) : List Span :=
  r.spansFrom t.length pos prev t

def spans (r : Regex) (t : List Char) : List Span := r.spansAt 0 none t

def Span.extend (rest : List Char) (s : Span) : Span := ⟨s.start, s.found, s.rest ++ rest⟩

def Span.shift (n : Nat) (s : Span) : Span := ⟨s.start + n, s.found, s.rest⟩

-- The character before what follows `u`.
def behind (prev : Option Char) (u : List Char) : Option Char := lookback prev u u.length

theorem behind_append {u v : List Char} (hv : v ≠ []) (prev : Option Char) :
    behind prev (u ++ v) = v.getLast? := by
  have hlen := List.length_pos_of_ne_nil hv
  rw [behind, lookback, List.length_append, if_neg (by omega),
    List.getElem?_append_right (by omega), List.getLast?_eq_getElem?]
  congr 1
  omega

theorem behind_eq {u : List Char} (hu : u ≠ []) (prev : Option Char) :
    behind prev u = u.getLast? := behind_append (u := []) hu prev

section Spans

variable {r : Regex}

theorem spansFrom_fuel (hpos : ∀ prev t, ∀ m ∈ r.exec prev t, 0 < m.len) {fuel fuel' : Nat}
    {t : List Char} (h : t.length ≤ fuel) (h' : t.length ≤ fuel') (pos : Nat)
    (prev : Option Char) : r.spansFrom fuel pos prev t = r.spansFrom fuel' pos prev t := by
  induction fuel generalizing fuel' t pos prev with
  | zero =>
      rw [List.length_eq_zero_iff.mp (Nat.le_zero.mp h)]
      cases fuel' with
      | zero => rfl
      | succ fuel' => rfl
  | succ fuel ih =>
      cases t with
      | nil =>
          cases fuel' with
          | zero => rfl
          | succ fuel' => rfl
      | cons c t =>
          cases fuel' with
          | zero =>
              rw [List.length_cons] at h'
              omega
          | succ fuel' =>
              rw [List.length_cons] at h h'
              simp only [spansFrom]
              cases hm : (r.exec prev (c :: t)).head? with
              | none => exact ih (by omega) (by omega) _ _
              | some m =>
                  have hlen := hpos _ _ m (List.mem_of_head? hm)
                  have hdrop : ((c :: t).drop m.len).length ≤ t.length := by
                    rw [List.length_drop, List.length_cons]
                    omega
                  exact congrArg _ (ih (by omega) (by omega) _ _)

theorem spansAt_found (hpos : ∀ prev t, ∀ m ∈ r.exec prev t, 0 < m.len) {prev : Option Char}
    {t : List Char} {m : Match} (hm : (r.exec prev t).head? = some m) (ht : t ≠ []) (pos : Nat) :
    r.spansAt pos prev t = ⟨pos, m, t.drop m.len⟩ ::
      r.spansAt (pos + m.len) (lookback prev t m.len) (t.drop m.len) := by
  obtain ⟨c, t, rfl⟩ := List.exists_cons_of_ne_nil ht
  have hlen := hpos _ _ m (List.mem_of_head? hm)
  simp only [spansAt, List.length_cons, spansFrom, hm]
  refine congrArg _ (spansFrom_fuel hpos ?_ (Nat.le_refl _) _ _)
  rw [List.length_drop, List.length_cons]
  omega

theorem spansAt_skip {prev : Option Char} {c : Char} {t : List Char}
    (hnone : (r.exec prev (c :: t)).head? = none) (pos : Nat) :
    r.spansAt pos prev (c :: t) = r.spansAt (pos + 1) (some c) t := by
  simp only [spansAt, List.length_cons, spansFrom, hnone]

-- Where what follows is not looked at, the text before it has its own matches.
theorem spansAt_append (hpos : ∀ prev t, ∀ m ∈ r.exec prev t, 0 < m.len) {u rest : List Char}
    (hlocal : ∀ s, s ≠ [] → s <:+ u → ∀ prev, r.exec prev (s ++ rest) = r.exec prev s)
    (pos : Nat) (prev : Option Char) :
    r.spansAt pos prev (u ++ rest) = (r.spansAt pos prev u).map (Span.extend rest) ++
      r.spansAt (pos + u.length) (behind prev u) rest := by
  induction hn : u.length using Nat.strongRecOn generalizing u pos prev with
  | _ n ih =>
      cases u with
      | nil =>
          subst hn
          rfl
      | cons c u =>
          have hexec := hlocal (c :: u) (List.cons_ne_nil c u) List.suffix_rfl prev
          subst hn
          cases hm : (r.exec prev (c :: u)).head? with
          | none =>
              have hskip : (r.exec prev (c :: (u ++ rest))).head? = none := by
                rw [← List.cons_append, hexec, hm]
              have hrest := ih u.length (by simp)
                (fun s hs hsuffix => hlocal s hs (hsuffix.trans (List.suffix_cons c u)))
                (pos + 1) (some c) rfl
              have hbehind : behind prev (c :: u) = behind (some c) u := by
                cases u with
                | nil => rfl
                | cons d u => simp [behind, lookback]
              rw [List.cons_append, spansAt_skip hskip, spansAt_skip hm, hrest, hbehind,
                List.length_cons]
              congr 2
              omega
          | some m =>
              have hlen := exec_len r (List.mem_of_head? hm)
              have hpositive := hpos _ _ m (List.mem_of_head? hm)
              have hfound : (r.exec prev (c :: u ++ rest)).head? = some m := by rw [hexec, hm]
              have hdrop : (c :: u ++ rest).drop m.len = (c :: u).drop m.len ++ rest :=
                List.drop_append_of_le_length hlen
              have hback : lookback prev (c :: u ++ rest) m.len = lookback prev (c :: u) m.len := by
                rw [lookback, lookback, if_neg (by omega), if_neg (by omega),
                  List.getElem?_append_left (by omega)]
              have hlast : behind (lookback prev (c :: u) m.len) ((c :: u).drop m.len) =
                  behind prev (c :: u) := by
                rw [behind, behind, lookback, List.length_drop]
                split_ifs with hend
                · rw [show m.len = (c :: u).length by omega]
                · rw [lookback, if_neg (by simp), List.getElem?_drop]
                  congr 1
                  omega
              have hrest := ih ((c :: u).drop m.len).length
                (by rw [List.length_drop]; omega)
                (fun s hs hsuffix => hlocal s hs (hsuffix.trans (List.drop_suffix m.len (c :: u))))
                (pos + m.len) (lookback prev (c :: u) m.len) rfl
              rw [spansAt_found hpos hfound (by simp), spansAt_found hpos hm (by simp), hdrop,
                hback, hrest, hlast, List.length_drop, List.map_cons, List.cons_append]
              congr 3
              omega

theorem spansAt_shift (pos n : Nat) (prev : Option Char) (t : List Char) :
    r.spansAt (pos + n) prev t = (r.spansAt pos prev t).map (Span.shift n) := by
  unfold spansAt
  generalize t.length = fuel
  induction fuel generalizing pos prev t with
  | zero => rfl
  | succ fuel ih =>
      cases t with
      | nil => rfl
      | cons c t =>
          simp only [spansFrom]
          cases (r.exec prev (c :: t)).head? with
          | none =>
              have hrest := ih (pos + 1) (some c) t
              rw [Nat.add_right_comm] at hrest
              exact hrest
          | some m =>
              have hrest := ih (pos + m.len) (lookback prev (c :: t) m.len) ((c :: t).drop m.len)
              rw [Nat.add_right_comm] at hrest
              simp only [hrest, List.map_cons, Span.shift]

end Spans

-- `\b(a|b|...)\b`, for words.
section WholeWord

def wholeWord (word : Char → Bool) (inner : Regex) : Regex :=
  .seqs [.boundary word, inner, .boundary word]

-- What the inner expression matches: one of the names, with the groups of that name.
structure Names (word : Char → Bool) (inner : Regex) (names : List (List Char))
    (groups : List Char → List (List Char)) : Prop where
  exec_eq : ∀ prev t, inner.exec prev t =
    (names.filter fun k => k.isPrefixOf t).map fun k => ⟨k.length, groups k⟩
  words : ∀ k ∈ names, k ≠ [] ∧ ∀ c ∈ k, word c = true

theorem exec_text (text : List Char) (prev : Option Char) (t : List Char) :
    (seqs (text.map is)).exec prev t =
      if text.isPrefixOf t then [⟨text.length, []⟩] else [] := by
  induction text generalizing prev t with
  | nil => rfl
  | cons c text ih =>
      have hseq (prev : Option Char) (t : List Char) : (seqs ((c :: text).map is)).exec prev t =
          (seq (is c) (seqs (text.map is))).exec prev t := by
        cases text with
        | nil =>
            cases t with
            | nil => rfl
            | cons d t =>
                by_cases hd : d = c
                · simp [seqs, is, exec, hd, Match.append]
                · simp [seqs, is, exec, hd]
        | cons d text => rfl
      rw [hseq]
      cases t with
      | nil => rfl
      | cons d t =>
          by_cases hd : d = c
          · subst hd
            by_cases htext : text <+: t
            · simp [is, exec, ih, htext, Match.append, Nat.add_comm]
            · simp [is, exec, ih, htext]
          · have hc : ¬c = d := fun h => hd h.symm
            simp [is, exec, hd, hc]

theorem exec_lit (text : String) (prev : Option Char) (t : List Char) :
    (lit text).exec prev t =
      if text.toList.isPrefixOf t then [⟨text.toList.length, []⟩] else [] :=
  exec_text text.toList prev t

theorem exec_alts_lit {texts : List String} (hne : texts ≠ []) (prev : Option Char)
    (t : List Char) : (alts (texts.map lit)).exec prev t =
      ((texts.map String.toList).filter fun k => k.isPrefixOf t).map
        fun k => ⟨k.length, []⟩ := by
  induction texts with
  | nil => exact absurd rfl hne
  | cons text texts ih =>
      have hfirst : (lit text).exec prev t =
          ([text.toList].filter fun k => k.isPrefixOf t).map fun k => ⟨k.length, []⟩ := by
        rw [exec_lit]
        by_cases h : text.toList.isPrefixOf t = true
        · simp [h]
        · simp [h]
      cases texts with
      | nil => exact hfirst
      | cons other texts =>
          have halt : (alts ((text :: other :: texts).map lit)).exec prev t =
              (lit text).exec prev t ++ (alts ((other :: texts).map lit)).exec prev t := rfl
          rw [halt, ih (List.cons_ne_nil _ _), hfirst, ← List.map_append, ← List.filter_append]
          rfl

variable {word : Char → Bool} {inner : Regex} {names : List (List Char)}
  {groups : List Char → List (List Char)}

theorem flatMap_filter {α β : Type} {l : List α} {p q : α → Bool} {f : α → β}
    {g : α → List β} (hg : ∀ k ∈ l, p k = true → g k = if q k then [f k] else []) :
    (l.filter p).flatMap g = (l.filter fun k => p k && q k).map f := by
  induction l with
  | nil => rfl
  | cons k l ih =>
      have hrest := ih fun k hk => hg k (List.mem_cons_of_mem _ hk)
      by_cases hp : p k = true
      · have hk := hg k List.mem_cons_self hp
        by_cases hq : q k = true
        · simp [hp, hq, hk, hrest]
        · simp [hp, hq, hk, hrest]
      · simp [hp, hrest]

theorem exec_boundary_seq (word : Char → Bool) (r : Regex) (prev : Option Char) (t : List Char) :
    (seq (boundary word) r).exec prev t =
      if isWord word prev != isWord word t.head? then r.exec prev t else [] := by
  have hboundary : (boundary word).exec prev t =
      if isWord word prev != isWord word t.head? then [⟨0, []⟩] else [] := rfl
  have hempty : (⟨0, []⟩ : Match).append = id := by
    funext m
    simp [Match.append]
  rw [exec, hboundary]
  split_ifs
  · simp [lookback, hempty]
  · rfl

theorem wholeWord_exec (h : Names word inner names groups) (prev : Option Char) (t : List Char) :
    (wholeWord word inner).exec prev t =
      if isWord word prev then []
      else (names.filter fun k => k.isPrefixOf t && !isWord word t[k.length]?).map
        fun k => ⟨k.length, groups k⟩ := by
  have hword {k : List Char} (hk : k ∈ names) (hbegin : k.isPrefixOf t = true) :
      isWord word (lookback prev t k.length) = true ∧ isWord word t.head? = true := by
    obtain ⟨hne, hall⟩ := h.words k hk
    obtain ⟨rest, rfl⟩ := List.isPrefixOf_iff_prefix.mp hbegin
    have hlen := List.length_pos_of_ne_nil hne
    constructor
    · rw [lookback, if_neg (by omega), List.getElem?_append_left (by omega),
        List.getElem?_eq_getElem (by omega)]
      exact hall _ (List.getElem_mem _)
    · obtain ⟨c, k, rfl⟩ := List.exists_cons_of_ne_nil hne
      exact hall c List.mem_cons_self
  have hinner : (seq inner (boundary word)).exec prev t =
      (names.filter fun k => k.isPrefixOf t && !isWord word t[k.length]?).map
        fun k => ⟨k.length, groups k⟩ := by
    rw [exec, h.exec_eq, List.flatMap_map]
    refine flatMap_filter fun k hk hbegin => ?_
    have hlast := (hword hk hbegin).1
    have hnext : (t.drop k.length).head? = t[k.length]? := List.head?_drop
    simp only [exec, hlast, hnext]
    by_cases hq : isWord word t[k.length]? = true
    · simp [hq]
    · simp [hq, Match.append]
  have hseq : (wholeWord word inner).exec prev t =
      if isWord word prev != isWord word t.head? then (seq inner (boundary word)).exec prev t
      else [] := exec_boundary_seq word _ prev t
  rw [hseq, hinner]
  by_cases hprev : isWord word prev = true
  · rw [if_pos hprev]
    split_ifs with hne
    · -- Behind a word character no name begins.
      rw [List.map_eq_nil_iff, List.filter_eq_nil_iff]
      intro k hk hmatch
      rw [Bool.and_eq_true] at hmatch
      rw [hprev, (hword hk hmatch.1).2] at hne
      exact absurd hne (by decide)
    · rfl
  · rw [if_neg hprev]
    split_ifs with hne
    · rfl
    · symm
      rw [List.map_eq_nil_iff, List.filter_eq_nil_iff]
      intro k hk hmatch
      rw [Bool.and_eq_true] at hmatch
      rw [(hword hk hmatch.1).2, Bool.eq_false_iff.mpr hprev] at hne
      exact hne rfl

-- The name that stands at a position as a word of its own.
def nameAt (word : Char → Bool) (names : List (List Char)) (prev : Option Char)
    (t : List Char) : Option (List Char) :=
  if isWord word prev then none
  else names.find? fun k => k.isPrefixOf t && !isWord word t[k.length]?

theorem wholeWord_head? (h : Names word inner names groups) (prev : Option Char)
    (t : List Char) : ((wholeWord word inner).exec prev t).head? =
      (nameAt word names prev t).map fun k => ⟨k.length, groups k⟩ := by
  rw [wholeWord_exec h, nameAt]
  split_ifs
  · rfl
  · rw [List.head?_map, List.head?_filter]

theorem wholeWord_pos (h : Names word inner names groups) (prev : Option Char) (t : List Char) :
    ∀ m ∈ (wholeWord word inner).exec prev t, 0 < m.len := by
  intro m hm
  rw [wholeWord_exec h] at hm
  split_ifs at hm
  · cases hm
  · obtain ⟨k, hk, rfl⟩ := List.mem_map.mp hm
    exact List.length_pos_of_ne_nil (h.words k (List.mem_filter.mp hk).1).1

-- Text that ends with a character that no name has in it.
def Closed (word : Char → Bool) (u : List Char) : Prop :=
  ∀ c, u.getLast? = some c → word c = false

theorem closed_suffix {s u : List Char} (hs : s ≠ []) (hsuffix : s <:+ u)
    (hu : Closed word u) : Closed word s := by
  obtain ⟨v, rfl⟩ := hsuffix
  intro c hc
  refine hu c ?_
  rw [List.getLast?_append_of_ne_nil _ hs, hc]

theorem closed_append {u v : List Char} (hu : Closed word u) (hv : Closed word v) :
    Closed word (u ++ v) := by
  by_cases hne : v = []
  · rw [hne, List.append_nil]
    exact hu
  · intro c hc
    rw [List.getLast?_append_of_ne_nil _ hne] at hc
    exact hv c hc

theorem isWord_behind {u : List Char} (hu : Closed word u) {prev : Option Char}
    (hprev : isWord word prev = false) : isWord word (behind prev u) = false := by
  by_cases hne : u = []
  · rw [hne]
    exact hprev
  · rw [behind_eq hne]
    cases hlast : u.getLast? with
    | none => rfl
    | some c => exact hu c hlast

-- A name that begins in such a text ends in it.
theorem prefix_extend {k s : List Char} (hk : ∀ c ∈ k, word c = true) (hs : s ≠ [])
    (hclosed : Closed word s) (rest : List Char) :
    (k.isPrefixOf (s ++ rest) && !isWord word (s ++ rest)[k.length]?) =
      (k.isPrefixOf s && !isWord word s[k.length]?) := by
  have hlt {t : List Char} (hbegin : k <+: s ++ t) : k.length < s.length := by
    by_contra hle
    have hsk : s <+: k :=
      List.prefix_of_prefix_length_le (List.prefix_append s t) hbegin (by omega)
    obtain ⟨c, hc⟩ := Option.isSome_iff_exists.mp (List.getLast?_isSome.mpr hs)
    have hmem : c ∈ k := hsk.subset (List.mem_of_getLast? hc)
    have hnot := hclosed c hc
    rw [hk c hmem] at hnot
    cases hnot
  by_cases hbegin : k <+: s
  · have hlen := hlt (hbegin.trans (List.prefix_append s []))
    have hlong : k <+: s ++ rest := hbegin.trans (List.prefix_append s rest)
    rw [List.isPrefixOf_iff_prefix.mpr hbegin, List.isPrefixOf_iff_prefix.mpr hlong,
      List.getElem?_append_left hlen]
  · have hlong : ¬k <+: s ++ rest := by
      intro h
      exact hbegin (List.prefix_of_prefix_length_le h (List.prefix_append s rest)
        (Nat.le_of_lt (hlt h)))
    rw [Bool.eq_false_iff.mpr (mt List.isPrefixOf_iff_prefix.mp hbegin),
      Bool.eq_false_iff.mpr (mt List.isPrefixOf_iff_prefix.mp hlong)]
    rfl

theorem wholeWord_local (h : Names word inner names groups) {u : List Char}
    (hclosed : Closed word u) (rest : List Char) :
    ∀ s, s ≠ [] → s <:+ u → ∀ prev,
      (wholeWord word inner).exec prev (s ++ rest) = (wholeWord word inner).exec prev s := by
  intro s hs hsuffix prev
  rw [wholeWord_exec h, wholeWord_exec h]
  split_ifs
  · rfl
  · congr 1
    refine List.filter_congr fun k hk => ?_
    exact prefix_extend (h.words k hk).2 hs (closed_suffix hs hsuffix hclosed) rest

-- So the matches in a text are those in its parts.
theorem wholeWord_append (h : Names word inner names groups) {u : List Char}
    (hclosed : Closed word u) (rest : List Char) (pos : Nat) (prev : Option Char) :
    (wholeWord word inner).spansAt pos prev (u ++ rest) =
      ((wholeWord word inner).spansAt pos prev u).map (Span.extend rest) ++
        (wholeWord word inner).spansAt (pos + u.length) (behind prev u) rest :=
  spansAt_append (wholeWord_pos h) (wholeWord_local h hclosed rest) pos prev

theorem wholeWord_none (h : Names word inner names groups) {c : Char} (hc : word c = false)
    (prev : Option Char) (t : List Char) :
    ((wholeWord word inner).exec prev (c :: t)).head? = none := by
  rw [wholeWord_head? h, nameAt]
  split_ifs
  · rfl
  · rw [Option.map_eq_none_iff, List.find?_eq_none]
    intro k hk hmatch
    rw [Bool.and_eq_true] at hmatch
    obtain ⟨hne, hall⟩ := h.words k hk
    obtain ⟨d, k, rfl⟩ := List.exists_cons_of_ne_nil hne
    obtain ⟨rest, hrest⟩ := List.isPrefixOf_iff_prefix.mp hmatch.1
    have hsame : d = c := (List.cons.inj hrest).1
    have hword := hall d List.mem_cons_self
    rw [hsame, hc] at hword
    cases hword

-- What comes before a text does not matter if it is no word character, nor if the text
-- does not begin with one.
theorem wholeWord_start (h : Names word inner names groups) {prev : Option Char}
    {t : List Char} (hstart : isWord word prev = false ∨ isWord word t.head? = false)
    (pos : Nat) :
    (wholeWord word inner).spansAt pos prev t = (wholeWord word inner).spansAt pos none t := by
  cases t with
  | nil => rfl
  | cons c t =>
      rcases hstart with hprev | hhead
      · have hexec : (wholeWord word inner).exec prev (c :: t) =
            (wholeWord word inner).exec none (c :: t) := by
          rw [wholeWord_exec h, wholeWord_exec h, if_neg (Bool.eq_false_iff.mp hprev),
            if_neg (by simp [isWord])]
        cases hm : ((wholeWord word inner).exec none (c :: t)).head? with
        | none => rw [spansAt_skip hm, spansAt_skip (by rw [hexec, hm])]
        | some m =>
            have hpos := wholeWord_pos h none (c :: t) m (List.mem_of_head? hm)
            rw [spansAt_found (wholeWord_pos h) hm (List.cons_ne_nil c t),
              spansAt_found (wholeWord_pos h) (by rw [hexec, hm]) (List.cons_ne_nil c t),
              lookback, lookback, if_neg (by omega), if_neg (by omega)]
      · rw [spansAt_skip (wholeWord_none h hhead prev t),
          spansAt_skip (wholeWord_none h hhead none t)]

theorem wholeWord_plain (h : Names word inner names groups) {c : Char} (hc : word c = false)
    (pos : Nat) (prev : Option Char) (t : List Char) :
    (wholeWord word inner).spansAt pos prev (c :: t) =
      (wholeWord word inner).spansAt (pos + 1) none t := by
  have hstart : isWord word (some c) = false := hc
  rw [spansAt_skip (wholeWord_none h hc prev t), wholeWord_start h (Or.inl hstart)]

-- Within a word no name begins.
theorem wholeWord_inside (h : Names word inner names groups) {w rest : List Char}
    (hw : ∀ c ∈ w, word c = true) (hrest : isWord word rest.head? = false) {prev : Option Char}
    (hprev : isWord word prev = true) (pos : Nat) :
    (wholeWord word inner).spansAt pos prev (w ++ rest) =
      (wholeWord word inner).spansAt (pos + w.length) none rest := by
  induction w generalizing pos prev with
  | nil => exact wholeWord_start h (Or.inr hrest) pos
  | cons c w ih =>
      have hnone : ((wholeWord word inner).exec prev (c :: (w ++ rest))).head? = none := by
        rw [wholeWord_exec h, if_pos hprev]
        rfl
      have hc : isWord word (some c) = true := hw c List.mem_cons_self
      rw [List.cons_append, spansAt_skip hnone,
        ih (fun c hc => hw c (List.mem_cons_of_mem _ hc)) hc, List.length_cons]
      congr 1
      omega

-- Of all words only the whole one begins the text and ends there.
theorem prefix_word_iff {k w rest : List Char} (hk : ∀ c ∈ k, word c = true)
    (hw : ∀ c ∈ w, word c = true) (hrest : isWord word rest.head? = false) :
    (k.isPrefixOf (w ++ rest) && !isWord word (w ++ rest)[k.length]?) = true ↔ k = w := by
  rw [Bool.and_eq_true, List.isPrefixOf_iff_prefix]
  constructor
  · rintro ⟨hbegin, hend⟩
    rcases Nat.lt_trichotomy k.length w.length with hlt | heq | hgt
    · rw [List.getElem?_append_left hlt, List.getElem?_eq_getElem hlt] at hend
      have hinside := hw w[k.length] (List.getElem_mem hlt)
      simp [isWord, hinside] at hend
    · exact (List.prefix_of_prefix_length_le hbegin (List.prefix_append w rest)
        (Nat.le_of_eq heq)).eq_of_length heq
    · obtain ⟨v, rfl⟩ := List.prefix_of_prefix_length_le (List.prefix_append w rest) hbegin
        (Nat.le_of_lt hgt)
      obtain ⟨x, hx⟩ := (List.prefix_append_right_inj w).mp hbegin
      rw [List.length_append] at hgt
      obtain ⟨c, v, rfl⟩ := List.exists_cons_of_ne_nil (l := v) (by rintro rfl; simp at hgt)
      have hinside := hk c (by simp)
      rw [← hx] at hrest
      rw [show isWord word ((c :: v) ++ x).head? = word c from rfl, hinside] at hrest
      cases hrest
  · rintro rfl
    refine ⟨List.prefix_append k rest, ?_⟩
    have hnext : (k ++ rest)[k.length]? = rest.head? := by
      rw [List.getElem?_append_right (Nat.le_refl _), Nat.sub_self, List.head?_eq_getElem?]
    rw [hnext, hrest]
    rfl

theorem nameAt_word (h : Names word inner names groups) {w rest : List Char}
    (hw : ∀ c ∈ w, word c = true) (hrest : isWord word rest.head? = false) {prev : Option Char}
    (hprev : isWord word prev = false) :
    nameAt word names prev (w ++ rest) = if w ∈ names then some w else none := by
  rw [nameAt, if_neg (Bool.eq_false_iff.mp hprev)]
  by_cases hmem : w ∈ names
  · rw [if_pos hmem]
    cases hfind : names.find? fun k =>
        k.isPrefixOf (w ++ rest) && !isWord word (w ++ rest)[k.length]? with
    | none =>
        have hnot := List.find?_eq_none.mp hfind w hmem
        exact absurd ((prefix_word_iff hw hw hrest).mpr rfl) hnot
    | some k =>
        have hk := (h.words _ (List.mem_of_find?_eq_some hfind)).2
        have hfound := List.find?_some (p := fun k : List Char =>
          k.isPrefixOf (w ++ rest) && !isWord word (w ++ rest)[k.length]?) hfind
        rw [(prefix_word_iff hk hw hrest).mp hfound]
  · rw [if_neg hmem, List.find?_eq_none]
    intro k hk hfound
    exact hmem ((prefix_word_iff (h.words _ hk).2 hw hrest).mp hfound ▸ hk)

-- A word is a match if it is one of the names.
theorem wholeWord_word (h : Names word inner names groups) {w rest : List Char} (hne : w ≠ [])
    (hw : ∀ c ∈ w, word c = true) (hrest : isWord word rest.head? = false) {prev : Option Char}
    (hprev : isWord word prev = false) (pos : Nat) :
    (wholeWord word inner).spansAt pos prev (w ++ rest) =
      (if w ∈ names then [⟨pos, ⟨w.length, groups w⟩, rest⟩] else []) ++
        (wholeWord word inner).spansAt (pos + w.length) none rest := by
  have hhead := wholeWord_head? h prev (w ++ rest)
  rw [nameAt_word h hw hrest hprev] at hhead
  obtain ⟨c, w, rfl⟩ := List.exists_cons_of_ne_nil hne
  by_cases hmem : c :: w ∈ names
  · rw [if_pos hmem] at hhead ⊢
    rw [spansAt_found (wholeWord_pos h) hhead (by simp), List.drop_left,
      wholeWord_start h (Or.inr hrest)]
    rfl
  · rw [if_neg hmem] at hhead ⊢
    have hc : isWord word (some c) = true := hw c List.mem_cons_self
    have hnone : ((wholeWord word inner).exec prev (c :: (w ++ rest))).head? = none := hhead
    rw [List.cons_append, spansAt_skip hnone,
      wholeWord_inside h (fun c hc => hw c (List.mem_cons_of_mem _ hc)) hrest hc, List.nil_append,
      List.length_cons]
    congr 1
    omega

-- All the matches of a text that stands between others.
theorem wholeWord_between (h : Names word inner names groups) {u : List Char}
    (hclosed : Closed word u) {prev : Option Char} (hprev : isWord word prev = false) (pos : Nat)
    (rest : List Char) :
    (wholeWord word inner).spansAt pos prev (u ++ rest) =
      ((wholeWord word inner).spans u).map (fun m => (m.shift pos).extend rest) ++
        (wholeWord word inner).spansAt (pos + u.length) none rest := by
  have hshift := spansAt_shift (r := wholeWord word inner) 0 pos none u
  rw [Nat.zero_add] at hshift
  rw [wholeWord_append h hclosed, wholeWord_start h (Or.inl (isWord_behind hclosed hprev)),
    wholeWord_start h (Or.inl hprev), hshift, List.map_map]
  rfl

theorem names_lit (text : String) (hwords : text.toList ≠ [] ∧ ∀ c ∈ text.toList, word c = true) :
    Names word (lit text) [text.toList] fun _ => [] := by
  refine ⟨fun prev t => ?_, fun k hk => ?_⟩
  · rw [exec_lit]
    generalize text.toList = k
    by_cases h : k <+: t
    · simp [h]
    · simp [h]
  · rw [List.mem_singleton.mp hk]
    exact hwords

theorem names_alts {texts : List String} (hne : texts ≠ [])
    (hwords : ∀ k ∈ texts.map String.toList, k ≠ [] ∧ ∀ c ∈ k, word c = true) :
    Names word (.group (alts (texts.map lit))) (texts.map String.toList) fun k => [k] := by
  refine ⟨fun prev t => ?_, hwords⟩
  rw [exec, exec_alts_lit hne, List.map_map]
  refine List.map_congr_left fun k hk => ?_
  have hbegin := List.isPrefixOf_iff_prefix.mp (List.mem_filter.mp hk).2
  have htake : t.take k.length = k := (List.prefix_iff_eq_take.mp hbegin).symm
  simp only [Function.comp_apply, htake]

end WholeWord

end Regex

end CortexFlow.Lib
