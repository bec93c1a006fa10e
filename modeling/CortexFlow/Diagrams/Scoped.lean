import CortexFlow.Diagrams.Items
import CortexFlow.Diagrams.Walk

namespace CortexFlow

namespace Diagrams

open Lib

-- What `_scan` records: a name, and where the body stands in the neutralized text.
structure Record where
  name : Text
  start : Nat
  len : Nat

def Record.slice (s : Text) (r : Record) : Text := (s.drop r.start).take r.len

def Record.insert (s : Text) (bodies : Bodies) (r : Record) : Bodies :=
  bodies.insert r.name (r.slice s)

-- The body stands between a `{` and the `}` that closes it.
structure Record.WellScoped (s : Text) (r : Record) : Prop where
  enclosed : ∃ before after, s = before ++ '{' :: (r.slice s ++ '}' :: after) ∧
    before.length + 1 = r.start
  length : (r.slice s).length = r.len
  nested : braces (r.slice s) = true
  matched : find_matching_brace 1 (s.drop r.start) = some r.len

variable (isalnum : Char → Bool)

def prefix_within (prefix_ : Text) : Option Text → Text
  | none => prefix_
  | some name => _join_qname prefix_ name

-- The runs of `_scan` on the text that stands at `pos`, however many turns they take, with
-- what is recorded in their course.
inductive Scans : Nat → Text → Text → List Record → Prop
  | done {pos : Nat} {t prefix_ : Text} (h : step isalnum t = .done) : Scans pos t prefix_ []
  | next {pos n : Nat} {t prefix_ : Text} {rs : List Record} (h : step isalnum t = .next n)
      (hrest : Scans (pos + n) (t.drop n) prefix_ rs) : Scans pos t prefix_ rs
  | scope {pos start len n : Nat} {t prefix_ : Text} {name : Option Text} {rs rs' : List Record}
      (h : step isalnum t = .scope name start len n)
      (hinner : Scans (pos + start) ((t.drop start).take len) (prefix_within prefix_ name) rs)
      (hrest : Scans (pos + n) (t.drop n) prefix_ rs') : Scans pos t prefix_ (rs ++ rs')
  | unnamed {pos start len n : Nat} {t prefix_ : Text} {rs : List Record}
      (h : step isalnum t = .body none start len n)
      (hrest : Scans (pos + n) (t.drop n) prefix_ rs) : Scans pos t prefix_ rs
  | body {pos start len n : Nat} {t prefix_ name : Text} {rs : List Record}
      (h : step isalnum t = .body (some name) start len n)
      (hrest : Scans (pos + n) (t.drop n) prefix_ rs) :
      Scans pos t prefix_ (⟨_join_qname prefix_ name, pos + start, len⟩ :: rs)

section Matched

-- The braces that a step of the walk goes over match.
def Step.Matched (t : Text) : Step → Prop
  | .done => True
  | .next _ => True
  | .scope _ start len _ | .body _ start len _ =>
      find_matching_brace 1 (t.drop start) = some len

theorem matched_braced {t : Text} {start : Nat} {item : Nat → Step}
    (hitem : ∀ len, find_matching_brace 1 (t.drop start) = some len → (item len).Matched t) :
    (braced t start item).Matched t := by
  unfold braced
  cases h : find_matching_brace 1 (t.drop start) with
  | none => trivial
  | some len => exact hitem len h

theorem matched_opened {t : Text} {s : Step} (h : opened isalnum t = some s) : s.Matched t := by
  unfold opened at h
  split at h
  · cases h
    exact matched_braced fun len hlen => hlen
  · split at h
    · cases h
      exact matched_braced fun len hlen => hlen
    · obtain ⟨m, _, rfl⟩ := Option.map_eq_some_iff.mp h
      exact matched_braced fun len hlen => hlen

theorem matched_statement (t : Text) : (statement isalnum t).Matched t := by
  unfold statement
  split
  · trivial
  · split
    · trivial
    · exact matched_braced fun len hlen => hlen
    · trivial

theorem matched_step (t : Text) : (step isalnum t).Matched t := by
  cases t with
  | nil => trivial
  | cons c t =>
      simp only [step]
      split_ifs
      · trivial
      · trivial
      · trivial
      · trivial
      · trivial
      · rw [item_eq]
        cases h : opened isalnum (c :: t) with
        | none => exact matched_statement isalnum _
        | some s => exact matched_opened isalnum h

-- Up to the matching bracket all others are closed.
theorem closed_of_find {opening closing : Char} {depth : Nat} {t : Text} {n : Nat}
    (h : find_closing opening closing (depth + 1) t = some n) :
    Brackets.closed opening closing depth (t.take n) = true := by
  induction t generalizing depth n with
  | nil => cases h
  | cons c t ih =>
      simp only [find_closing] at h
      split_ifs at h with hopening hclosing hdepth
      · obtain ⟨k, hk, rfl⟩ := Option.map_eq_some_iff.mp h
        rw [List.take_succ_cons, Brackets.closed, if_pos hopening]
        exact ih hk
      · cases h
        have hzero : depth = 0 := by omega
        rw [hzero]
        rfl
      · obtain ⟨k, hk, rfl⟩ := Option.map_eq_some_iff.mp h
        have hsub : depth + 1 - 1 = depth - 1 + 1 := by omega
        rw [hsub] at hk
        rw [List.take_succ_cons, Brackets.closed, if_neg hopening, if_pos hclosing, ih hk,
          Bool.and_true, decide_eq_true_eq]
        omega
      · obtain ⟨k, hk, rfl⟩ := Option.map_eq_some_iff.mp h
        rw [List.take_succ_cons, Brackets.closed, if_neg hopening, if_neg hclosing]
        exact ih hk

theorem find_of_closed {opening closing : Char} (hne : closing ≠ opening) {depth : Nat} {u : Text}
    (hu : Brackets.closed opening closing depth u = true) (t : Text) :
    find_closing opening closing (depth + 1) (u ++ closing :: t) = some u.length := by
  induction u generalizing depth with
  | nil =>
      have hzero : depth = 0 := by simpa [Brackets.closed] using hu
      rw [hzero, List.nil_append, find_closing, if_neg hne, if_pos rfl, if_pos (Nat.le_refl 1)]
      rfl
  | cons c u ih =>
      simp only [Brackets.closed] at hu
      rw [List.cons_append, find_closing]
      split_ifs at hu ⊢ with hopening hclosing hdepth
      · rw [ih hu]
        rfl
      · rw [Bool.and_eq_true, decide_eq_true_eq] at hu
        omega
      · rw [Bool.and_eq_true, decide_eq_true_eq] at hu
        have hsub : depth + 1 - 1 = depth - 1 + 1 := by omega
        rw [hsub, ih hu.2]
        rfl
      · rw [ih hu]
        rfl

-- What is known of the braces of a step.
theorem braces_of_step {t : Text} {start len n : Nat}
    (h : (∃ name, step isalnum t = .scope name start len n) ∨
      ∃ name, step isalnum t = .body name start len n) :
    (∃ u v, t = u ++ '{' :: ((t.drop start).take len ++ '}' :: v) ∧ u.length + 1 = start) ∧
      ((t.drop start).take len).length = len ∧ braces ((t.drop start).take len) = true ∧
      (n = start + len + 1 ∨ n = start + len + 1 + skip_semicolon (t.drop (start + len + 1))) := by
  have hsound := sound_step isalnum t
  have hmatched := matched_step isalnum t
  have hboth : (∃ k, start = k + 1 ∧ t[k]? = some '{') ∧ t[start + len]? = some '}' ∧
      (n = start + len + 1 ∨ n = start + len + 1 + skip_semicolon (t.drop (start + len + 1))) ∧
      find_matching_brace 1 (t.drop start) = some len := by
    rcases h with ⟨name, h⟩ | ⟨name, h⟩
    · rw [h] at hsound hmatched
      exact ⟨hsound.1, hsound.2.1, hsound.2.2, hmatched⟩
    · rw [h] at hsound hmatched
      exact ⟨hsound.1, hsound.2.1, hsound.2.2, hmatched⟩
  obtain ⟨⟨k, rfl, hopen⟩, hclose, hn, hfind⟩ := hboth
  obtain ⟨hk, hbrace⟩ := List.getElem?_eq_some_iff.mp hopen
  obtain ⟨hend, hbrace'⟩ := List.getElem?_eq_some_iff.mp hclose
  refine ⟨⟨t.take k, t.drop (k + 1 + len + 1), ?_, ?_⟩, ?_, closed_of_find hfind, hn⟩
  · have hbody := List.take_append_drop len (t.drop (k + 1))
    rw [List.drop_drop, List.drop_eq_getElem_cons hend, hbrace'] at hbody
    rw [hbody, ← hbrace, ← List.drop_eq_getElem_cons hk, List.take_append_drop]
  · rw [List.length_take]
    omega
  · rw [List.length_take, List.length_drop]
    omega

end Matched

section Runs

-- A run exists: with each turn there is less to go through.
theorem scans_exists (pos : Nat) (t prefix_ : Text) : ∃ rs, Scans isalnum pos t prefix_ rs := by
  induction hlength : t.length using Nat.strongRecOn generalizing pos t prefix_ with
  | _ n ih =>
      have hlater {u : Text} (hu : u.length < t.length) (pos : Nat) (prefix_ : Text) :
          ∃ rs, Scans isalnum pos u prefix_ rs := ih u.length (by omega) pos u prefix_ rfl
      have hsound := sound_step isalnum t
      by_cases ht : t = []
      · rw [ht]
        exact ⟨[], .done rfl⟩
      have hpos := List.length_pos_of_ne_nil ht
      have hdrop {n : Nat} (hn : 0 < n) : (t.drop n).length < t.length := by
        rw [List.length_drop]
        omega
      cases hstep : step isalnum t with
      | done => exact ⟨[], .done hstep⟩
      | next n =>
          rw [hstep] at hsound
          obtain ⟨rs, hrs⟩ := hlater (hdrop hsound) (pos + n) prefix_
          exact ⟨rs, .next hstep hrs⟩
      | scope name start len n =>
          rw [hstep] at hsound
          obtain ⟨⟨k, hstart, _⟩, hclose, hn⟩ := hsound
          have hend := lt_of_getElem? hclose
          have hinner : ((t.drop start).take len).length < t.length := by
            rw [List.length_take, List.length_drop]
            omega
          obtain ⟨rs, hrs⟩ := hlater hinner (pos + start) (prefix_within prefix_ name)
          obtain ⟨rs', hrs'⟩ := hlater (hdrop (n := n) (by omega)) (pos + n) prefix_
          exact ⟨rs ++ rs', .scope hstep hrs hrs'⟩
      | body name start len n =>
          rw [hstep] at hsound
          obtain ⟨⟨k, hstart, _⟩, _, hn⟩ := hsound
          obtain ⟨rs, hrs⟩ := hlater (hdrop (n := n) (by omega)) (pos + n) prefix_
          cases name with
          | none => exact ⟨rs, .unnamed hstep hrs⟩
          | some name => exact ⟨_, .body hstep hrs⟩

-- There is only one.
theorem scans_unique {pos : Nat} {t prefix_ : Text} {rs rs' : List Record}
    (h : Scans isalnum pos t prefix_ rs) (h' : Scans isalnum pos t prefix_ rs') : rs = rs' := by
  induction h generalizing rs' with
  | done h =>
      cases h' with
      | done => rfl
      | _ h2 => rw [h] at h2; cases h2
  | next h _ ih =>
      cases h' with
      | next h2 hrest =>
          rw [h] at h2
          cases h2
          exact ih hrest
      | _ h2 => rw [h] at h2; cases h2
  | scope h _ _ ihinner ihrest =>
      cases h' with
      | scope h2 hinner hrest =>
          rw [h] at h2
          cases h2
          rw [ihinner hinner, ihrest hrest]
      | _ h2 => rw [h] at h2; cases h2
  | unnamed h _ ih =>
      cases h' with
      | unnamed h2 hrest =>
          rw [h] at h2
          cases h2
          exact ih hrest
      | _ h2 => rw [h] at h2; cases h2
  | body h _ ih =>
      cases h' with
      | body h2 hrest =>
          rw [h] at h2
          cases h2
          rw [ih hrest]
      | _ h2 => rw [h] at h2; cases h2

-- The text `t` stands at `pos` in `s`.
def At (s : Text) (pos : Nat) (t : Text) : Prop :=
  ∃ before after, s = before ++ (t ++ after) ∧ before.length = pos

theorem at_drop {s t : Text} {pos n : Nat} (h : At s pos t) (hn : n ≤ t.length) :
    At s (pos + n) (t.drop n) := by
  obtain ⟨before, after, rfl, rfl⟩ := h
  refine ⟨before ++ t.take n, after, ?_, ?_⟩
  · rw [List.append_assoc, ← List.append_assoc (t.take n), List.take_append_drop]
  · rw [List.length_append, List.length_take]
    omega

theorem at_take {s t : Text} {pos : Nat} (h : At s pos t) (n : Nat) : At s pos (t.take n) := by
  obtain ⟨before, after, rfl, rfl⟩ := h
  refine ⟨before, t.drop n ++ after, ?_, rfl⟩
  rw [← List.append_assoc (t.take n), List.take_append_drop]

theorem slice_at {s t : Text} {r : Record} (h : At s r.start t) (hlen : t.length = r.len) :
    r.slice s = t := by
  obtain ⟨before, after, rfl, hpos⟩ := h
  rw [Record.slice, ← hpos, List.drop_left, ← hlen, List.take_left]

theorem skip_semicolon_le (t : Text) : skip_semicolon t ≤ t.length := by
  have hspaces := (List.takeWhile_sublist (p := isspace) (l := t)).length_le
  rw [skip_semicolon]
  split_ifs with hsemicolon
  · have hne : t.drop (t.takeWhile isspace).length ≠ [] := by
      intro hnil
      rw [hnil] at hsemicolon
      cases hsemicolon
    have hpos := List.length_pos_of_ne_nil hne
    rw [List.length_drop] at hpos
    omega
  · exact hspaces

-- Where a step that goes over braces leaves off, and what is between them.
theorem at_step {s t : Text} {pos start len n : Nat} (hat : At s pos t)
    (h : (∃ name, step isalnum t = .scope name start len n) ∨
      ∃ name, step isalnum t = .body name start len n) :
    0 < start ∧ start + len + 1 ≤ n ∧ n ≤ t.length ∧ ((t.drop start).take len).length = len ∧
      At s (pos + start) ((t.drop start).take len) ∧ At s (pos + n) (t.drop n) := by
  obtain ⟨⟨u, v, ht, hu⟩, hlen, _, hn⟩ := braces_of_step isalnum h
  have hlength := congrArg List.length ht
  simp only [List.length_append, List.length_cons, hlen] at hlength
  have hbound := skip_semicolon_le (t.drop (start + len + 1))
  rw [List.length_drop] at hbound
  have hle : n ≤ t.length := by omega
  exact ⟨by omega, by omega, hle, hlen, at_take (at_drop hat (by omega)) len, at_drop hat hle⟩

-- A body that is found in a part of the text is well scoped in the whole.
theorem scoped_body {s t name prefix_ : Text} {pos start len n : Nat} (hat : At s pos t)
    (h : step isalnum t = .body (some name) start len n) :
    Record.WellScoped s ⟨_join_qname prefix_ name, pos + start, len⟩ := by
  have hbody : (∃ name, step isalnum t = .scope name start len n) ∨
      ∃ name, step isalnum t = .body name start len n := Or.inr ⟨some name, h⟩
  obtain ⟨⟨u, v, ht, hu⟩, hlen, hnested, _⟩ := braces_of_step isalnum hbody
  obtain ⟨_, _, _, _, hatbody, _⟩ := at_step isalnum hat hbody
  have hslice : Record.slice s ⟨_join_qname prefix_ name, pos + start, len⟩ =
      (t.drop start).take len := slice_at hatbody hlen
  obtain ⟨before, after, hs, hpos⟩ := hat
  have hsplit : s = before ++ u ++ '{' :: ((t.drop start).take len ++ '}' :: (v ++ after)) := by
    rw [hs]
    conv_lhs => rw [ht]
    simp
  have hstart : (before ++ u).length + 1 = pos + start := by
    rw [List.length_append]
    omega
  refine ⟨⟨before ++ u, v ++ after, ?_, hstart⟩, ?_, ?_, ?_⟩
  · rw [hslice]
    exact hsplit
  · rw [hslice, hlen]
  · rw [hslice]
    exact hnested
  · have hdrop : s.drop (pos + start) = (t.drop start).take len ++ '}' :: (v ++ after) := by
      have hcons : s = (before ++ u ++ ['{']) ++ ((t.drop start).take len ++
          '}' :: (v ++ after)) := by
        rw [hsplit]
        simp
      have hfront : pos + start = (before ++ u ++ ['{']).length := by
        simp only [List.length_append, List.length_cons, List.length_nil] at hstart ⊢
        omega
      conv_lhs => rw [hcons, hfront]
      exact List.drop_left
    have hne : '}' ≠ '{' := by decide
    have hfind := find_of_closed hne hnested (v ++ after)
    simp only
    rw [hdrop, find_matching_brace, hfind, hlen]

theorem scans_nil {pos : Nat} {prefix_ : Text} {rs : List Record}
    (h : Scans isalnum pos [] prefix_ rs) : rs = [] := scans_unique isalnum h (.done rfl)

-- What is recorded in a run is well scoped, and lies in the text gone through.
theorem scans_scoped {s t prefix_ : Text} {pos : Nat} {rs : List Record}
    (h : Scans isalnum pos t prefix_ rs) (hat : At s pos t) :
    ∀ r ∈ rs, r.WellScoped s ∧ pos < r.start ∧ r.start + r.len < pos + t.length := by
  induction h with
  | done h => simp
  | @next pos n t prefix_ rs h hrest ih =>
      by_cases hn : n ≤ t.length
      · intro r hr
        obtain ⟨hscoped, hstart, hend⟩ := ih (at_drop hat hn) r hr
        rw [List.length_drop] at hend
        exact ⟨hscoped, by omega, by omega⟩
      · rw [List.drop_of_length_le (by omega)] at hrest
        rw [scans_nil isalnum hrest]
        simp
  | @scope pos start len n t prefix_ name rs rs' h hinner hrest ihinner ihrest =>
      obtain ⟨_, hle, hn, hlen, hatinner, hatrest⟩ := at_step isalnum hat (Or.inl ⟨name, h⟩)
      intro r hr
      rcases List.mem_append.mp hr with hr | hr
      · obtain ⟨hscoped, hstart, hend⟩ := ihinner hatinner r hr
        rw [hlen] at hend
        exact ⟨hscoped, by omega, by omega⟩
      · obtain ⟨hscoped, hstart, hend⟩ := ihrest hatrest r hr
        rw [List.length_drop] at hend
        exact ⟨hscoped, by omega, by omega⟩
  | @unnamed pos start len n t prefix_ rs h hrest ih =>
      obtain ⟨_, hle, hn, _, _, hatrest⟩ := at_step isalnum hat (Or.inr ⟨none, h⟩)
      intro r hr
      obtain ⟨hscoped, hstart, hend⟩ := ih hatrest r hr
      rw [List.length_drop] at hend
      exact ⟨hscoped, by omega, by omega⟩
  | @body pos start len n t prefix_ name rs h hrest ih =>
      obtain ⟨hpos, hle, hn, _, _, hatrest⟩ := at_step isalnum hat (Or.inr ⟨some name, h⟩)
      intro r hr
      rcases List.mem_cons.mp hr with rfl | hr
      · refine ⟨scoped_body isalnum hat h, ?_, ?_⟩
        · simp only
          omega
        · simp only
          omega
      · obtain ⟨hscoped, hstart, hend⟩ := ih hatrest r hr
        rw [List.length_drop] at hend
        exact ⟨hscoped, by omega, by omega⟩

-- One body ends before the next begins.
theorem scans_disjoint {s t prefix_ : Text} {pos : Nat} {rs : List Record}
    (h : Scans isalnum pos t prefix_ rs) (hat : At s pos t) :
    rs.Pairwise fun r r' => r.start + r.len < r'.start := by
  induction h with
  | done h => exact .nil
  | @next pos n t prefix_ rs h hrest ih =>
      by_cases hn : n ≤ t.length
      · exact ih (at_drop hat hn)
      · rw [List.drop_of_length_le (by omega)] at hrest
        rw [scans_nil isalnum hrest]
        exact .nil
  | @scope pos start len n t prefix_ name rs rs' h hinner hrest ihinner ihrest =>
      obtain ⟨_, hle, _, hlen, hatinner, hatrest⟩ := at_step isalnum hat (Or.inl ⟨name, h⟩)
      refine List.pairwise_append.mpr ⟨ihinner hatinner, ihrest hatrest, fun r hr r' hr' => ?_⟩
      have hend := (scans_scoped isalnum hinner hatinner r hr).2.2
      have hstart := (scans_scoped isalnum hrest hatrest r' hr').2.1
      rw [hlen] at hend
      omega
  | @unnamed pos start len n t prefix_ rs h hrest ih =>
      exact ih (at_step isalnum hat (Or.inr ⟨none, h⟩)).2.2.2.2.2
  | @body pos start len n t prefix_ name rs h hrest ih =>
      obtain ⟨_, hle, _, _, _, hatrest⟩ := at_step isalnum hat (Or.inr ⟨some name, h⟩)
      refine List.pairwise_cons.mpr ⟨fun r hr => ?_, ih hatrest⟩
      have hstart := (scans_scoped isalnum hrest hatrest r hr).2.1
      simp only
      omega

-- `_scan` returns what the run has recorded.
theorem scans_bodies {s t prefix_ : Text} {pos : Nat} {rs : List Record}
    (h : Scans isalnum pos t prefix_ rs) (hat : At s pos t) (bodies : Bodies) :
    scanAll isalnum t prefix_ bodies = rs.foldl (Record.insert s) bodies := by
  induction h generalizing bodies with
  | done h =>
      rw [scanAll_eq, h]
      rfl
  | @next pos n t prefix_ rs h hrest ih =>
      rw [scanAll_eq, h, resume]
      by_cases hn : n ≤ t.length
      · exact ih (at_drop hat hn) bodies
      · rw [List.drop_of_length_le (by omega)] at hrest ⊢
        rw [scans_nil isalnum hrest]
        rfl
  | @scope pos start len n t prefix_ name rs rs' h hinner hrest ihinner ihrest =>
      obtain ⟨_, _, _, _, hatinner, hatrest⟩ := at_step isalnum hat (Or.inl ⟨name, h⟩)
      have hinto : scanAll isalnum t prefix_ bodies = scanAll isalnum (t.drop n) prefix_
          (scanAll isalnum ((t.drop start).take len) (prefix_within prefix_ name) bodies) := by
        rw [scanAll_eq, h]
        cases name with
        | none => rfl
        | some name => rfl
      rw [hinto, ihinner hatinner, ihrest hatrest, List.foldl_append]
  | @unnamed pos start len n t prefix_ rs h hrest ih =>
      rw [scanAll_eq, h]
      exact ih (at_step isalnum hat (Or.inr ⟨none, h⟩)).2.2.2.2.2 bodies
  | @body pos start len n t prefix_ name rs h hrest ih =>
      obtain ⟨_, _, _, hlen, hatbody, hatrest⟩ := at_step isalnum hat (Or.inr ⟨some name, h⟩)
      rw [scanAll_eq, h, List.foldl_cons, Record.insert, slice_at hatbody hlen]
      exact ih hatrest _

end Runs

section Functions

theorem mem_insert {bodies : Bodies} {name body : Text} {entry : Text × Text}
    (h : entry ∈ bodies.insert name body) : entry ∈ bodies ∨ entry = (name, body) := by
  unfold Bodies.insert at h
  split_ifs at h with hmem
  · obtain ⟨old, hold, rfl⟩ := List.mem_map.mp h
    split_ifs
    · exact Or.inr rfl
    · exact Or.inl hold
  · rcases List.mem_append.mp h with h | h
    · exact Or.inl h
    · exact Or.inr (List.mem_singleton.mp h)

theorem mem_records {s : Text} {rs : List Record} {bodies : Bodies} {name body : Text}
    (h : (name, body) ∈ rs.foldl (Record.insert s) bodies) :
    (name, body) ∈ bodies ∨ ∃ r ∈ rs, r.name = name ∧ r.slice s = body := by
  induction rs generalizing bodies with
  | nil => exact Or.inl h
  | cons r rs ih =>
      rcases ih h with h | ⟨r', hr', hentry⟩
      · rcases mem_insert h with h | h
        · exact Or.inl h
        · obtain ⟨hname, hbody⟩ := Prod.mk.inj h
          exact Or.inr ⟨r, List.mem_cons_self, hname.symm, hbody.symm⟩
      · exact Or.inr ⟨r', List.mem_cons_of_mem _ hr', hentry⟩

-- Whatever the text, the scan comes to an end, in one way, and the bodies it returns are
-- those it has recorded: each between a brace and the one that closes it, with its own
-- braces closed, and apart from all others.
theorem functions_scoped (source : Text) : ∃ rs,
    (∀ rs', Scans isalnum 0 (neutralize source) [] rs' ↔ rs' = rs) ∧
      functions isalnum source = rs.foldl (Record.insert (neutralize source)) [] ∧
      (∀ name body, (name, body) ∈ functions isalnum source →
        ∃ r ∈ rs, r.name = name ∧ r.slice (neutralize source) = body) ∧
      (∀ r ∈ rs, r.WellScoped (neutralize source)) ∧
      rs.Pairwise fun r r' => r.start + r.len < r'.start := by
  obtain ⟨rs, hrs⟩ := scans_exists isalnum 0 (neutralize source) []
  have hat : At (neutralize source) 0 (neutralize source) := ⟨[], [], by simp, rfl⟩
  have hbodies : functions isalnum source = rs.foldl (Record.insert (neutralize source)) [] :=
    scans_bodies isalnum hrs hat []
  refine ⟨rs, fun rs' => ⟨fun h => scans_unique isalnum h hrs, fun h => h ▸ hrs⟩, hbodies, ?_,
    fun r hr => (scans_scoped isalnum hrs hat r hr).1, scans_disjoint isalnum hrs hat⟩
  intro name body h
  rw [hbodies] at h
  rcases mem_records h with h | h
  · cases h
  · exact h

end Functions

end Diagrams

end CortexFlow
