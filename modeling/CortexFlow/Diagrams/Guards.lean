import CortexFlow.Diagrams.Handlers
import Mathlib

namespace CortexFlow

namespace Diagrams

open Lib

variable {isalnum : Char → Bool}

section Pieces

theorem Part.ok (p : Part isalnum) : p.piece.Ok := by
  cases p with
  | plain text h => exact h
  | call c => trivial

theorem Condition.ok (c : Condition isalnum) : ∀ p ∈ c.pieces, p.Ok := by
  have hparts (parts : List (Part isalnum)) : ∀ p ∈ parts.map Part.piece, p.Ok := by
    intro p hp
    obtain ⟨part, _, rfl⟩ := List.mem_map.mp hp
    exact part.ok
  intro p hp
  simp only [Condition.pieces, List.mem_append] at hp
  rcases hp with hp | hp | hp | hp
  · exact hparts c.before p hp
  · obtain ⟨check, _, rfl⟩ := Option.map_eq_some_iff.mp (Option.mem_toList.mp hp)
    trivial
  · exact hparts c.after p hp
  · rw [List.mem_singleton.mp hp]
    exact c.plain

theorem plain_scope (r : Return isalnum) : Plain isalnum r.scope := by
  unfold Return.scope
  split_ifs
  · have hcolons : Plain isalnum "::".toList := plain_chars fun c hc => by
      have hcolon : c = ':' := by simpa using hc
      rw [hcolon]
      rfl
    have hw := isword_ascii isalnum (k := "cortexflow".toList) (by decide)
    exact plain_word (w := "cortexflow".toList) (by decide) hw hcolons (by decide) rfl
      (Or.inl ⟨by decide, by decide⟩)
  · exact plain_nil

theorem Return.ok (r : Return isalnum) : ∀ p ∈ r.pieces, p.Ok := by
  have hgap : Regex.isWord (isword isalnum) (r.gap.text ++ r.scope).head? = false := by
    obtain ⟨c, t, hgap⟩ := List.exists_cons_of_ne_nil r.gap_ne_nil
    have hc : c ∈ r.gap.text := by
      rw [hgap]
      exact List.mem_cons_self
    rw [hgap]
    exact not_isword_of_isspace isalnum (r.gap.isspace c hc)
  have hreturn : Plain isalnum ("return".toList ++ (r.gap.text ++ r.scope)) := by
    have hw := isword_ascii isalnum (k := "return".toList) (by decide)
    refine plain_word (w := "return".toList) (by decide) hw
      (plain_append (plain_spaces r.gap) (plain_scope r)) ?_ hgap
      (Or.inl ⟨by decide, by decide⟩)
    exact fun hnil => r.gap_ne_nil (List.append_eq_nil_iff.mp hnil).1
  have hend : Plain isalnum (r.inner.text ++ ')' :: (r.tail.text ++ [';'])) :=
    plain_append (plain_spaces r.inner) (plain_append (u := [')']) (plain_char rfl)
      (plain_append (plain_spaces r.tail) (plain_char rfl)))
  intro p hp
  simp only [Return.pieces, List.mem_cons, List.not_mem_nil, or_false] at hp
  rcases hp with rfl | rfl | rfl
  · exact plain_append (plain_spaces r.lead) hreturn
  · trivial
  · exact hend

theorem Body.ok (b : Body isalnum) : ∀ p ∈ b.pieces, p.Ok := by
  induction b with
  | nil lead =>
      intro p hp
      rw [List.mem_singleton.mp hp]
      exact plain_spaces lead
  | ret stmt rest ih =>
      intro p hp
      rcases List.mem_append.mp hp with hp | hp
      · exact stmt.ok p hp
      · exact ih p hp
  | block lead gap brace condition body rest ihbody ihrest =>
      have hparen : Plain isalnum (gap.text ++ ['(']) := plain_call gap
      have hw := isword_ascii isalnum (k := "if".toList) (by decide)
      have hif : Plain isalnum ("if".toList ++ (gap.text ++ ['('])) :=
        plain_word (w := "if".toList) (by decide) hw hparen (by simp) (isWord_spaces gap rfl [])
          (Or.inl ⟨by decide, by decide⟩)
      have hbrace : Plain isalnum (brace.text ++ ['{']) :=
        plain_append (plain_spaces brace) (plain_char rfl)
      have hclose : Plain isalnum ['}'] := plain_char rfl
      intro p hp
      simp only [Body.pieces, List.mem_cons, List.mem_append] at hp
      rcases hp with rfl | hp | rfl | hp | rfl | hp
      · exact plain_append (plain_spaces lead) hif
      · exact condition.ok p hp
      · exact hbrace
      · exact ihbody p hp
      · exact hclose
      · exact ihrest p hp

end Pieces

-- The events of a body are its marks.
section Marks

def Directive.event (d : Directive isalnum) : Event :=
  .dir d.verb (d.target.map fun target => target.last.text)

def Mark.event : Mark isalnum → Event
  | check c => .msg (strip c.arg.text)
  | ret d _ => d.event
  | stray d => d.event

theorem map_eventsAt (pieces : List (Piece isalnum)) (pos : Nat) :
    (eventsAt pos pieces).map Prod.snd = pieces.filterMap Piece.event := by
  induction pieces generalizing pos with
  | nil => rfl
  | cons p ps ih =>
      rw [eventsAt, List.map_append, ih]
      cases h : p.event with
      | none => rw [List.filterMap_cons_none h]; rfl
      | some e => rw [List.filterMap_cons_some h]; rfl

theorem Condition.events (c : Condition isalnum) :
    c.pieces.filterMap Piece.event = c.marks.map Mark.event := by
  have hparts (parts : List (Part isalnum)) :
      (parts.map Part.piece).filterMap Piece.event = (parts.flatMap Part.marks).map Mark.event := by
    induction parts with
    | nil => rfl
    | cons p ps ih =>
        cases p with
        | plain text h => exact ih
        | call call => exact congrArg _ ih
  have hcheck : (c.check.map Piece.check).toList.filterMap Piece.event =
      (c.check.map Mark.check).toList.map Mark.event := by
    cases c.check with
    | none => rfl
    | some check => rfl
  have hlast : ([.plain (c.last ++ [')'])] : List (Piece isalnum)).filterMap Piece.event = [] := rfl
  rw [Condition.pieces, Condition.marks, List.filterMap_append, List.filterMap_append,
    List.filterMap_append, List.map_append, List.map_append, hparts, hparts, hcheck, hlast,
    List.append_nil]

theorem Body.events (b : Body isalnum) (guard : Option Text) :
    b.pieces.filterMap Piece.event = (b.marks guard).map Mark.event := by
  induction b generalizing guard with
  | nil lead => rfl
  | ret stmt rest ih =>
      have hstmt : stmt.pieces.filterMap Piece.event = [stmt.call.directive.event] := rfl
      rw [Body.pieces, List.filterMap_append, hstmt, ih guard]
      rfl
  | block lead gap brace condition body rest ihbody ihrest =>
      have hplain (text : Text) (pieces : List (Piece isalnum)) :
          (Piece.plain text :: pieces).filterMap Piece.event = pieces.filterMap Piece.event := rfl
      rw [Body.pieces, hplain, List.filterMap_append, hplain, List.filterMap_append, hplain,
        condition.events, ihbody (condition.guard.or guard), ihrest guard, Body.marks,
        List.map_append, List.map_append]

theorem Body.returns_eq (b : Body isalnum) (guard : Option Text) :
    b.returns guard = (b.marks guard).filterMap Mark.returned := by
  induction b generalizing guard with
  | nil lead => rfl
  | ret stmt rest ih => exact congrArg _ (ih guard)
  | block lead gap brace condition body rest ihbody ihrest =>
      have hparts (parts : List (Part isalnum)) :
          (parts.flatMap Part.marks).filterMap Mark.returned = [] := by
        induction parts with
        | nil => rfl
        | cons p ps ih =>
            cases p with
            | plain text h => exact ih
            | call call => exact ih
      have hcheck : (condition.check.map Mark.check).toList.filterMap Mark.returned = [] := by
        cases condition.check with
        | none => rfl
        | some check => rfl
      have hcondition : condition.marks.filterMap Mark.returned = [] := by
        rw [Condition.marks, List.filterMap_append, List.filterMap_append, hparts, hparts, hcheck]
        rfl
      rw [Body.returns, Body.marks, List.filterMap_append, List.filterMap_append, hcondition,
        ihbody, ihrest, List.nil_append]

end Marks

-- The loop over the events.
section Edges

theorem drop_cortexflow_ident {t : Text} (ht : ∀ c ∈ t, c ≠ ':') : drop_cortexflow t = t := by
  unfold drop_cortexflow
  split
  · exact absurd rfl (ht ':' (by simp))
  · rfl

theorem normalize_ident (i : Ident isalnum) : _normalize_type i.text = i.text := by
  have hsolid : ∀ c ∈ i.text, isspace c = false :=
    fun c hc => not_isspace_of_isword (i.isword c hc)
  rw [_normalize_type, strip_solid hsolid, drop_cortexflow_ident i.ne_colon]

theorem edge_of_directive (state : Text) (d : Directive isalnum) (message : Option Text) :
    edge_of state d.verb (d.target.map fun target => target.last.text) message =
      d.edge state message := by
  cases d with
  | stay => rfl
  | done => rfl
  | transition_to target =>
      simp [edge_of, Directive.edge, Directive.verb, Directive.target, Directive.kind,
        _DIRECTIVE_TO_KIND, normalize_ident, target.last.ne_nil]
  | transition_to_now target =>
      simp [edge_of, Directive.edge, Directive.verb, Directive.target, Directive.kind,
        _DIRECTIVE_TO_KIND, normalize_ident, target.last.ne_nil]

theorem edges_cons (state : Text) (d : Directive isalnum) (message : Option Text)
    (returns : List (Directive isalnum × Option Text)) :
    edges state ((d, message) :: returns) =
      (d.edge state message).toList ++ edges state returns := by
  rw [edges, List.filterMap_cons]
  cases d.edge state message with
  | none => rfl
  | some edge => rfl

theorem edges_of_marks (state : Text) (marks : List (Mark isalnum)) (prev : Option (Mark isalnum)) :
    edges_of state (tag prev) (marks.map Mark.event) = edges state (preceded prev marks) := by
  have hdirective (d : Directive isalnum) (message : Option Text) (events : List Event)
      (returns : List (Directive isalnum × Option Text))
      (h : edges_of state none events = edges state returns) :
      edges_of state message (d.event :: events) = edges state ((d, message) :: returns) := by
    have hedge := edge_of_directive state d message
    rw [Directive.event, edges_of, hedge, h, edges_cons]
  induction marks generalizing prev with
  | nil => rfl
  | cons m marks ih =>
      cases m with
      | check c => exact ih (some (.check c))
      | ret d guard => exact hdirective d (tag prev) _ _ (ih (some (.ret d guard)))
      | stray d => exact hdirective d (tag prev) _ _ (ih (some (.stray d)))

theorem extract_edges_eq (state : Text) (b : Body isalnum) :
    _extract_edges_from_body isalnum state b.text = edges state (preceded none (b.marks none)) := by
  have hevents := congrArg (List.map Prod.snd) (events_of_pieces b.ok)
  rw [map_eventsAt, b.events none] at hevents
  rw [_extract_edges_from_body, Body.text, hevents]
  exact edges_of_marks state (b.marks none) none

end Edges

-- No condition calls something that has the name of a directive with an edge.
def NoStrays (marks : List (Mark isalnum)) : Prop := ∀ d, Mark.stray d ∈ marks → d = .stay

-- Each directive with an edge comes right behind the check of the innermost block around
-- it that has one, and behind no check if there is none.
def Direct (prev : Option (Mark isalnum)) (marks : List (Mark isalnum)) : Prop :=
  ∀ before d guard behind, marks = before ++ .ret d guard :: behind → d ≠ .stay →
    tag (before.getLast?.or prev) = guard

section Agree

theorem direct_cons {prev : Option (Mark isalnum)} {m : Mark isalnum}
    {marks : List (Mark isalnum)} :
    Direct prev (m :: marks) ↔
      (∀ d guard, m = .ret d guard → d ≠ .stay → tag prev = guard) ∧ Direct (some m) marks := by
  have hlast (before : List (Mark isalnum)) :
      (m :: before).getLast?.or prev = before.getLast?.or (some m) := by
    rw [List.getLast?_cons]
    cases before.getLast? with
    | none => rfl
    | some last => rfl
  constructor
  · intro h
    refine ⟨fun d guard hm => ?_, fun before d guard behind hmarks => ?_⟩
    · exact h [] d guard marks (by rw [hm]; rfl)
    · have hcons := h (m :: before) d guard behind (by rw [hmarks]; rfl)
      rwa [hlast] at hcons
  · rintro ⟨hfirst, hrest⟩ before d guard behind hmarks
    cases before with
    | nil => exact hfirst d guard (List.cons.inj hmarks).1
    | cons m' before =>
        obtain ⟨rfl, htail⟩ := List.cons.inj hmarks
        rw [hlast]
        exact hrest before d guard behind htail

theorem noStrays_cons {m : Mark isalnum} {marks : List (Mark isalnum)} :
    NoStrays (m :: marks) ↔ (∀ d, m = .stray d → d = .stay) ∧ NoStrays marks := by
  constructor
  · intro h
    refine ⟨fun d hm => h d (by rw [hm]; exact List.mem_cons_self), fun d hd => ?_⟩
    exact h d (List.mem_cons_of_mem _ hd)
  · rintro ⟨hfirst, hrest⟩ d hd
    rcases List.mem_cons.mp hd with hd | hd
    · exact hfirst d hd.symm
    · exact hrest d hd

theorem edge_stay (state : Text) (message : Option Text) :
    (.stay : Directive isalnum).edge state message = none := rfl

theorem edge_some (state : Text) {d : Directive isalnum} (hd : d ≠ .stay)
    (message : Option Text) :
    ∃ edge, d.edge state message = some edge ∧ edge.message = message := by
  cases d with
  | stay => exact absurd rfl hd
  | done => exact ⟨_, rfl, rfl⟩
  | transition_to target => exact ⟨_, rfl, rfl⟩
  | transition_to_now target => exact ⟨_, rfl, rfl⟩

theorem edge_eq_iff (state : Text) {d : Directive isalnum} (hd : d ≠ .stay)
    (message message' : Option Text) :
    d.edge state message = d.edge state message' ↔ message = message' := by
  obtain ⟨edge, hedge, hmessage⟩ := edge_some state hd message
  obtain ⟨edge', hedge', hmessage'⟩ := edge_some state hd message'
  constructor
  · intro h
    rw [hedge, hedge'] at h
    rw [← hmessage, ← hmessage', Option.some.inj h]
  · rintro rfl
    rfl

theorem returned_cons (m : Mark isalnum) (marks : List (Mark isalnum)) :
    (m :: marks).filterMap Mark.returned = m.returned.toList ++ marks.filterMap Mark.returned := by
  rw [List.filterMap_cons]
  cases m.returned with
  | none => rfl
  | some r => rfl

-- A directive that is called in a condition can only add an edge.
theorem length_edges (state : Text) (marks : List (Mark isalnum)) (prev : Option (Mark isalnum)) :
    (edges state (marks.filterMap Mark.returned)).length ≤
      (edges state (preceded prev marks)).length := by
  induction marks generalizing prev with
  | nil => exact Nat.le_refl _
  | cons m marks ih =>
      have hrest := ih (some m)
      rw [returned_cons]
      cases m with
      | check c => exact hrest
      | ret d guard =>
          have hedge : (d.edge state guard).toList.length =
              (d.edge state (tag prev)).toList.length := by
            cases d <;> rfl
          rw [preceded, edges_cons, Mark.returned, Option.toList_some, List.singleton_append,
            edges_cons, List.length_append, List.length_append]
          omega
      | stray d =>
          rw [preceded, edges_cons, List.length_append]
          exact Nat.le_trans hrest (Nat.le_add_left _ _)

theorem preceded_eq_iff (state : Text) (marks : List (Mark isalnum))
    (prev : Option (Mark isalnum)) :
    edges state (preceded prev marks) = edges state (marks.filterMap Mark.returned) ↔
      NoStrays marks ∧ Direct prev marks := by
  induction marks generalizing prev with
  | nil => simp [preceded, NoStrays, Direct]
  | cons m marks ih =>
      have hrest := ih (some m)
      rw [noStrays_cons, direct_cons, returned_cons]
      cases m with
      | check c =>
          simp only [reduceCtorEq, false_implies, implies_true, true_and]
          exact hrest
      | ret d guard =>
          rw [preceded, edges_cons, Mark.returned, Option.toList_some, List.singleton_append,
            edges_cons]
          by_cases hd : d = .stay
          · subst hd
            simp only [edge_stay, Option.toList_none, List.nil_append, reduceCtorEq,
              false_implies, implies_true, true_and, Mark.ret.injEq, and_imp]
            rw [hrest]
            constructor
            · rintro ⟨hstrays, hdirect⟩
              exact ⟨hstrays, fun d' guard' hstay _ hne => absurd hstay.symm hne, hdirect⟩
            · rintro ⟨hstrays, _, hdirect⟩
              exact ⟨hstrays, hdirect⟩
          · obtain ⟨edge, hedge, _⟩ := edge_some state hd (tag prev)
            obtain ⟨edge', hedge', _⟩ := edge_some state hd guard
            have hsame := edge_eq_iff state hd (tag prev) guard
            rw [hedge, hedge', Option.some.injEq] at hsame
            rw [hedge, hedge', Option.toList_some, Option.toList_some, List.singleton_append,
              List.singleton_append, List.cons.injEq, hsame, hrest]
            constructor
            · rintro ⟨htag, hstrays, hdirect⟩
              refine ⟨⟨by simp, hstrays⟩, fun d' guard' hm _ => ?_, hdirect⟩
              cases hm
              exact htag
            · rintro ⟨⟨_, hstrays⟩, hfirst, hdirect⟩
              exact ⟨hfirst d guard rfl hd, hstrays, hdirect⟩
      | stray d =>
          rw [preceded, edges_cons]
          by_cases hd : d = .stay
          · subst hd
            simp only [edge_stay, Option.toList_none, List.nil_append, reduceCtorEq,
              false_implies, implies_true, true_and, Mark.stray.injEq, forall_eq']
            exact hrest
          · obtain ⟨edge, hedge, _⟩ := edge_some state hd (tag prev)
            constructor
            · intro h
              have hlength := length_edges state marks (some (.stray d))
              have hcount := congrArg List.length h
              rw [hedge, Option.toList_some, List.singleton_append, List.length_cons] at hcount
              have hskip : (Mark.stray d).returned.toList ++ marks.filterMap Mark.returned =
                  marks.filterMap Mark.returned := rfl
              rw [hskip] at hcount
              omega
            · rintro ⟨⟨hfirst, _⟩, _⟩
              exact absurd (hfirst d rfl) hd

end Agree

-- An edge carries the message of the check that immediately precedes its directive in
-- source order. This is the guard that the directive is written under exactly where each
-- directive comes right behind the check of its innermost guarded block.
theorem edges_from_body (state : Text) (b : Body isalnum) :
    _extract_edges_from_body isalnum state b.text = edges state (preceded none (b.marks none)) ∧
      (_extract_edges_from_body isalnum state b.text = edges state (b.returns none) ↔
        NoStrays (b.marks none) ∧ Direct none (b.marks none)) := by
  refine ⟨extract_edges_eq state b, ?_⟩
  rw [extract_edges_eq, b.returns_eq]
  exact preceded_eq_iff state (b.marks none) none

-- `if (id == type_id<Go>()) { if (ready) { return transition_to<A>(); } return done(); }`
section Example

def no_words : Char → Bool := fun _ => false

def returns (d : Directive no_words) : Return no_words :=
  { lead := .one, gap := .one, gap_ne_nil := by decide, qualified := false
    call := ⟨d, .none, .none, .none, .none⟩, inner := .none, tail := .none }

theorem plain_id : Plain no_words "id == ".toList :=
  ⟨fun c hc => by cases hc; rfl, by decide +kernel, by decide +kernel⟩

theorem plain_go : Plain no_words ("Go".toList ++ ['>']) :=
  ⟨fun c hc => by cases hc; rfl, by decide +kernel, by decide +kernel⟩

theorem plain_ready : Plain no_words ("ready".toList ++ [')']) :=
  ⟨fun c hc => by cases hc; rfl, by decide +kernel, by decide +kernel⟩

def is_go : Condition no_words :=
  { before := [.plain "id == ".toList plain_id]
    check := some ⟨⟨"Go".toList, plain_go, by decide⟩, .none, .none⟩
    after := [], last := [')'], plain := plain_append (plain_char rfl) (plain_char rfl) }

def is_ready : Condition no_words :=
  { before := [], check := none, after := [], last := "ready".toList, plain := plain_ready }

def go_handler : Body no_words :=
  .block .none .one .one is_go
    (.block .one .one .one is_ready
      (.ret (returns (.transition_to ⟨[], ⟨'A', [], by decide, by decide⟩⟩)) (.nil .one))
      (.ret (returns .done) (.nil .one)))
    (.nil .none)

-- The second directive of the block has no label.
theorem guard_not_kept :
    ¬∀ (isalnum : Char → Bool) (state : Text) (b : Body isalnum),
      _extract_edges_from_body isalnum state b.text = edges state (b.returns none) := by
  intro h
  have hdone := congrArg (List.map FlowEdge.message) (h no_words [] go_handler)
  exact absurd hdone (by decide +kernel)

end Example

end Diagrams

end CortexFlow
