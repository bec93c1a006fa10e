import CortexFlow.Diagrams.ModuleGraph

namespace CortexFlow

namespace Diagrams

open Lib

def AppComposition.node_names (c : AppComposition) : List Text :=
  c.module_names ++ c.cache_keys.map CacheKeyEntry.key_name

-- Every edge is between nodes of the graph.
def ModuleGraphIR.Closed (g : ModuleGraphIR) : Prop :=
  ∀ e ∈ g.edges, e.source ∈ g.nodes.map ModuleGraphNode.name ∧
    e.target ∈ g.nodes.map ModuleGraphNode.name

variable (isalnum : Char → Bool)

-- What a module is found to subscribe to, to send and to post, to whomever.
section Rules

def ModuleEntry.subscribed (m : ModuleEntry) : List ModuleGraphEdge :=
  match m.source_text with
  | none => []
  | some source => ((_SUBSCRIBE_RE isalnum).spans (neutralize source)).filterMap subscribe_edge

def sent_edge (name : Text) (s : Regex.Span) : Option ModuleGraphEdge :=
  match s.found.groups with
  | [group] => (_extract_send_message s.rest).map fun message =>
      ⟨name, lastPart group, .send, message⟩
  | _ => none

def ModuleEntry.sent (m : ModuleEntry) : List ModuleGraphEdge :=
  match m.source_text with
  | none => []
  | some source => ((_SEND_RE isalnum).spans (neutralize source)).filterMap (sent_edge m.name)

def posted_edge (name : Text) (m : Regex.Match) : Option ModuleGraphEdge :=
  match m.groups with
  | [group, message] => some ⟨name, lastPart group, .send, message⟩
  | _ => none

def ModuleEntry.posted (m : ModuleEntry) : List ModuleGraphEdge :=
  ((_BOUNDARY_POST_RE isalnum).finditer m.header_text).filterMap (posted_edge m.name)

-- All that the four rules find, in the order in which they find it.
def AppComposition.relationships (c : AppComposition) : List ModuleGraphEdge :=
  c.cache_keys.map writes_edge ++
    (c.modules.flatMap (fun m => m.subscribed isalnum ++ m.sent isalnum) ++
      c.modules.flatMap (ModuleEntry.posted isalnum))

end Rules

-- A relationship between nodes that are declared; what is sent goes to another module.
structure AppComposition.Between (c : AppComposition) (e : ModuleGraphEdge) : Prop where
  source : e.source ∈ c.node_names
  target : e.target ∈ c.node_names
  send : e.kind = .send → e.target ∈ c.module_names ∧ e.target ≠ e.source

-- The edges are relationships that are found, each once and in the order in which they first
-- come up, and all of those between declared nodes.
structure AppComposition.Drawn (c : AppComposition) (edges : List ModuleGraphEdge) : Prop where
  distinct : edges.Nodup
  apart : ∀ e ∈ edges, e.kind = .send → e.source ≠ e.target
  found : ∀ e ∈ edges, e ∈ c.relationships isalnum
  complete : ∀ e ∈ c.relationships isalnum, c.Between e → e ∈ edges
  order : edges.Pairwise fun e e' =>
    (c.relationships isalnum).idxOf e < (c.relationships isalnum).idxOf e'

-- Writers, and the keys and modules of the subscriptions, are declared.
structure AppComposition.Declared (c : AppComposition) : Prop where
  writers : ∀ key ∈ c.cache_keys, key.writer_module ∈ c.node_names
  subscriptions : ∀ m ∈ c.modules, ∀ e ∈ m.subscribed isalnum,
    e.source ∈ c.node_names ∧ e.target ∈ c.node_names

section Kept

-- What is sent is only drawn where it goes to another module of the composition.
def AppComposition.kept (c : AppComposition) (e : ModuleGraphEdge) : Bool :=
  e.kind ≠ .send || (e.target ∈ c.module_names && e.target ≠ e.source)

theorem kept_send (c : AppComposition) (name receiver message : Text) :
    c.kept ⟨name, receiver, .send, message⟩ = true ↔
      receiver ≠ name ∧ receiver ∈ c.module_names := by
  simp [AppComposition.kept, and_comm]

theorem filterMap_kept {α : Type} {p : ModuleGraphEdge → Bool} {f g : α → Option ModuleGraphEdge}
    (h : ∀ a, f a = (g a).filter p) (l : List α) :
    l.filterMap f = (l.filterMap g).filter p := by
  rw [List.filter_filterMap]
  exact List.filterMap_congr fun a _ => h a

-- To whom a message goes decides whether it is drawn.
theorem addressed_kept (c : AppComposition) (name receiver : Text) (message : Option Text) :
    (if receiver = name then none
      else if receiver ∉ c.module_names then none
      else message.map fun message => ⟨name, receiver, .send, message⟩) =
    (message.map fun message => (⟨name, receiver, .send, message⟩ : ModuleGraphEdge)).filter
      c.kept := by
  cases message with
  | none => simp
  | some message =>
      rw [Option.map_some, Option.filter_some]
      by_cases hself : receiver = name
      · rw [if_pos hself, if_neg fun h => ((kept_send c _ _ _).mp h).1 hself]
      · by_cases hmem : receiver ∈ c.module_names
        · rw [if_neg hself, if_neg (not_not_intro hmem),
            if_pos ((kept_send c _ _ _).mpr ⟨hself, hmem⟩)]
        · rw [if_neg hself, if_pos hmem, if_neg fun h => hmem ((kept_send c _ _ _).mp h).2]

theorem send_edge_kept (c : AppComposition) (name : Text) (s : Regex.Span) :
    send_edge c.module_names name s = (sent_edge name s).filter c.kept := by
  rw [send_edge, sent_edge]
  cases s.found.groups with
  | nil => rfl
  | cons group groups =>
      cases groups with
      | nil => exact addressed_kept c name (lastPart group) (_extract_send_message s.rest)
      | cons _ _ => rfl

theorem boundary_edge_kept (c : AppComposition) (name : Text) (m : Regex.Match) :
    boundary_edge c.module_names name m = (posted_edge name m).filter c.kept := by
  rw [boundary_edge, posted_edge]
  cases m.groups with
  | nil => rfl
  | cons group groups =>
      cases groups with
      | nil => rfl
      | cons message groups =>
          cases groups with
          | nil => exact addressed_kept c name (lastPart group) (some message)
          | cons _ _ => rfl

-- What a rule finds that makes no send is kept.
theorem filter_kept {c : AppComposition} {edges : List ModuleGraphEdge}
    (h : ∀ e ∈ edges, e.kind ≠ .send) : edges.filter c.kept = edges := by
  refine List.filter_eq_self.mpr fun e he => ?_
  rw [AppComposition.kept, decide_eq_true (h e he), Bool.true_or]

theorem writes_kind {keys : List CacheKeyEntry} : ∀ e ∈ keys.map writes_edge, e.kind = .writes := by
  intro e he
  obtain ⟨key, _, rfl⟩ := List.mem_map.mp he
  rfl

theorem subscribed_kind (m : ModuleEntry) : ∀ e ∈ m.subscribed isalnum, e.kind = .key_changed := by
  intro e he
  rw [ModuleEntry.subscribed] at he
  cases hsource : m.source_text with
  | none =>
      rw [hsource] at he
      cases he
  | some source =>
      rw [hsource] at he
      obtain ⟨s, _, hs⟩ := List.mem_filterMap.mp he
      unfold subscribe_edge at hs
      split at hs
      · rw [← Option.some.inj hs]
      · cases hs

theorem source_edges_kept (c : AppComposition) (m : ModuleEntry) :
    source_edges isalnum c.module_names m =
      (m.subscribed isalnum ++ m.sent isalnum).filter c.kept := by
  have hsubscribed : (m.subscribed isalnum).filter c.kept = m.subscribed isalnum := by
    refine filter_kept fun e he hsend => ?_
    rw [subscribed_kind isalnum m e he] at hsend
    cases hsend
  rw [List.filter_append, hsubscribed, source_edges, ModuleEntry.subscribed, ModuleEntry.sent]
  cases m.source_text with
  | none => rfl
  | some source =>
      refine congrArg₂ (· ++ ·) rfl ?_
      exact filterMap_kept (fun s => send_edge_kept c m.name s) _

theorem header_edges_kept (c : AppComposition) (m : ModuleEntry) :
    header_edges isalnum c.module_names m = (m.posted isalnum).filter c.kept :=
  filterMap_kept (fun s => boundary_edge_kept c m.name s) _

-- The graph has the relationships that are kept.
theorem extract_edges (c : AppComposition) :
    (extract isalnum c).edges =
      FirstSeen.collect [] ((c.relationships isalnum).filter c.kept) := by
  have hwrites : (c.cache_keys.map writes_edge).filter c.kept = c.cache_keys.map writes_edge := by
    refine filter_kept fun e he hsend => ?_
    rw [writes_kind e he] at hsend
    cases hsend
  rw [extract, _dedup_edges, AppComposition.relationships, List.filter_append, hwrites,
    List.filter_append, List.filter_flatMap, List.filter_flatMap,
    funext (source_edges_kept isalnum c), funext (header_edges_kept isalnum c)]

theorem mem_extract (c : AppComposition) (e : ModuleGraphEdge) :
    e ∈ (extract isalnum c).edges ↔ e ∈ c.relationships isalnum ∧ c.kept e = true := by
  rw [extract_edges, (FirstSeen.firsts_collect _).mem, List.mem_filter]

end Kept

section Closed

theorem sent_source {m : ModuleEntry} {e : ModuleGraphEdge}
    (h : e ∈ m.sent isalnum ∨ e ∈ m.posted isalnum) : e.kind = .send ∧ e.source = m.name := by
  rcases h with h | h
  · rw [ModuleEntry.sent] at h
    cases hsource : m.source_text with
    | none =>
        rw [hsource] at h
        cases h
    | some source =>
        rw [hsource] at h
        obtain ⟨s, _, hs⟩ := List.mem_filterMap.mp h
        unfold sent_edge at hs
        split at hs
        · obtain ⟨message, _, rfl⟩ := Option.map_eq_some_iff.mp hs
          exact ⟨rfl, rfl⟩
        · cases hs
  · obtain ⟨found, _, hfound⟩ := List.mem_filterMap.mp h
    unfold posted_edge at hfound
    split at hfound
    · rw [← Option.some.inj hfound]
      exact ⟨rfl, rfl⟩
    · cases hfound

theorem mem_relationships (c : AppComposition) (e : ModuleGraphEdge) :
    e ∈ c.relationships isalnum ↔ (∃ key ∈ c.cache_keys, e = writes_edge key) ∨
      (∃ m ∈ c.modules, e ∈ m.subscribed isalnum) ∨
      ∃ m ∈ c.modules, e ∈ m.sent isalnum ∨ e ∈ m.posted isalnum := by
  simp only [AppComposition.relationships, List.mem_append, List.mem_map, List.mem_flatMap]
  constructor
  · rintro (⟨key, hkey, rfl⟩ | ⟨m, hm, he | he⟩ | ⟨m, hm, he⟩)
    · exact Or.inl ⟨key, hkey, rfl⟩
    · exact Or.inr (Or.inl ⟨m, hm, he⟩)
    · exact Or.inr (Or.inr ⟨m, hm, Or.inl he⟩)
    · exact Or.inr (Or.inr ⟨m, hm, Or.inr he⟩)
  · rintro (⟨key, hkey, rfl⟩ | ⟨m, hm, he⟩ | ⟨m, hm, he | he⟩)
    · exact Or.inl ⟨key, hkey, rfl⟩
    · exact Or.inr (Or.inl ⟨m, hm, Or.inl he⟩)
    · exact Or.inr (Or.inl ⟨m, hm, Or.inr he⟩)
    · exact Or.inr (Or.inr ⟨m, hm, he⟩)

theorem kept_iff (c : AppComposition) (e : ModuleGraphEdge) :
    c.kept e = true ↔ (e.kind = .send → e.target ∈ c.module_names ∧ e.target ≠ e.source) := by
  rw [AppComposition.kept, Bool.or_eq_true, Bool.and_eq_true, decide_eq_true_eq, decide_eq_true_eq,
    decide_eq_true_eq]
  exact ⟨fun h hsend => h.resolve_left fun hne => hne hsend,
    fun h => (Classical.em (e.kind = .send)).elim (fun hsend => Or.inr (h hsend)) Or.inl⟩

theorem extract_drawn (c : AppComposition) : c.Drawn isalnum (extract isalnum c).edges := by
  have hfirsts := FirstSeen.firsts_collect ((c.relationships isalnum).filter c.kept)
  rw [← extract_edges] at hfirsts
  refine ⟨hfirsts.nodup, fun e he hsend => ?_, fun e he => ?_, fun e he hbetween => ?_, ?_⟩
  · have hkept := ((mem_extract isalnum c e).mp he).2
    exact (((kept_iff c e).mp hkept) hsend).2.symm
  · exact ((mem_extract isalnum c e).mp he).1
  · exact (mem_extract isalnum c e).mpr ⟨he, (kept_iff c e).mpr hbetween.send⟩
  · refine hfirsts.order.imp_of_mem fun ha hb hlt => ?_
    exact FirstSeen.idxOf_filter ((mem_extract isalnum c _).mp ha).2
      ((mem_extract isalnum c _).mp hb).2 hlt

theorem extract_names (c : AppComposition) :
    (extract isalnum c).nodes.map ModuleGraphNode.name = c.node_names := by
  rw [extract, List.map_append, List.map_map, List.map_map]
  rfl

-- The edges are those that the rules find, each once, without sends to oneself. They are all
-- between nodes of the graph if and only if the writers and subscriptions are declared: of
-- these ends, unlike those of the sends, none is checked.
theorem extract_closed_iff (c : AppComposition) :
    c.Drawn isalnum (extract isalnum c).edges ∧
      ((extract isalnum c).Closed ↔ c.Declared isalnum) := by
  refine ⟨extract_drawn isalnum c, ?_⟩
  have hmodule {name : Text} (h : name ∈ c.module_names) : name ∈ c.node_names :=
    List.mem_append_left _ h
  rw [ModuleGraphIR.Closed, extract_names]
  constructor
  · intro hclosed
    have hnonsend {e : ModuleGraphEdge} (he : e ∈ c.relationships isalnum)
        (hkind : e.kind ≠ .send) : e.source ∈ c.node_names ∧ e.target ∈ c.node_names :=
      hclosed e ((mem_extract isalnum c e).mpr
        ⟨he, (kept_iff c e).mpr fun hsend => absurd hsend hkind⟩)
    refine ⟨fun key hkey => ?_, fun m hm e he => ?_⟩
    · have hmem : writes_edge key ∈ c.relationships isalnum :=
        (mem_relationships isalnum c _).mpr (Or.inl ⟨key, hkey, rfl⟩)
      have hkind : (writes_edge key).kind = .writes := rfl
      exact (hnonsend hmem (by rw [hkind]; decide)).1
    · have hmem := (mem_relationships isalnum c e).mpr (Or.inr (Or.inl ⟨m, hm, he⟩))
      refine hnonsend hmem fun hsend => ?_
      rw [subscribed_kind isalnum m e he] at hsend
      cases hsend
  · intro hdeclared e he
    obtain ⟨hfound, hkept⟩ := (mem_extract isalnum c e).mp he
    rcases (mem_relationships isalnum c e).mp hfound with
      ⟨key, hkey, rfl⟩ | ⟨m, hm, he⟩ | ⟨m, hm, he⟩
    · exact ⟨hdeclared.writers key hkey,
        List.mem_append_right _ (List.mem_map_of_mem hkey)⟩
    · exact hdeclared.subscriptions m hm e he
    · obtain ⟨hsend, hsource⟩ := sent_source isalnum he
      refine ⟨?_, hmodule ((kept_iff c e).mp hkept hsend).1⟩
      rw [hsource]
      exact hmodule (List.mem_map_of_mem hm)

-- A key of the composition that has no `Owned` around it is no node, though a module may
-- subscribe to it.
def plain_key_app : Text :=
  "#include \"p.hpp\"\nnamespace a \x7b Runtime<ModuleList<P>, CacheKeyList<K>> r; \x7d".toList

def plain_key_files (path : Text) : Option Text :=
  if path = "p.hpp".toList then some []
  else if path = "p.cpp".toList then some "cache().subscribe<K, P>();".toList
  else none

theorem extract_not_closed :
    ¬∀ (isalnum isupper : Char → Bool) (lower : Text → Text) (files : Text → Option Text)
        (text : Text) (c : AppComposition),
      parse isalnum isupper lower files text = .ok c → (extract isalnum c).Closed := by
  intro h
  have hparse : parse (fun _ => false) Char.isUpper ascii_lower plain_key_files plain_key_app =
      .ok ⟨['a'], ['a'], [⟨['P'], [], some "cache().subscribe<K, P>();".toList⟩], []⟩ := by
    decide +kernel
  have hclosed := h _ _ _ _ _ _ hparse ⟨['K'], ['P'], .key_changed, "KeyChanged".toList⟩
    (by decide +kernel)
  exact absurd hclosed.1 (by decide +kernel)

end Closed

end Diagrams

end CortexFlow
