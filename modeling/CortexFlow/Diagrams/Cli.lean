import CortexFlow.Diagrams.Labels
import CortexFlow.Diagrams.Mermaid

namespace CortexFlow

namespace Diagrams

open Lib

section Main

variable (isalnum isupper : Char → Bool) (lower : Text → Text)

-- `out_root / 'flows' / f'{module.name.lower()}.flow.mmd'`
def flow_path (out_root name : Text) : Text :=
  out_root ++ "/flows/".toList ++ lower name ++ ".flow.mmd".toList

def modules_path (out_root app_short : Text) : Text :=
  out_root ++ "/modules/".toList ++ lower app_short ++ ".modules.mmd".toList

-- How `main` ends: its exit code, what it has printed, to which stream, and the files
-- that it has written, one after the other.
structure Ended where
  code : Nat
  stdout : List Text
  stderr : List Text
  written : Bodies

def flow_of (app_namespace : Text) (m : ModuleEntry) : Option FlowIR :=
  extract_flow isalnum m.name app_namespace m.header_text m.source_text

-- The body of the loop over the modules.
def flow_file (out_root app_namespace : Text) (m : ModuleEntry) : Option (Text × Text) :=
  (flow_of isalnum app_namespace m).map fun flow_ir =>
    (flow_path lower out_root m.name, render_flow flow_ir)

def main (app_hpp out_root : Text) (files : Text → Option Text) (text : Text) : Ended :=
  match parse isalnum isupper lower files text with
  | .error e =>
      { code := 2
        stdout := []
        stderr := ["gen-diagrams.py: error: ".toList ++ (e.text (String.ofList app_hpp)).toList]
        written := [] }
  | .ok composition =>
      let written := composition.modules.filterMap (flow_file isalnum lower out_root
          composition.app_namespace) ++
        [(modules_path lower out_root composition.app_short,
          render_module_graph (extract isalnum composition))]
      { code := 0
        stdout := ("gen-diagrams.py: wrote ".toList ++ (toString written.length).toList ++
          " file(s):".toList) :: written.map fun file => "  ".toList ++ file.1
        stderr := []
        written := written }

-- What `path.write_text` leaves, when nothing was there before.
def Ended.disk (ended : Ended) : Bodies := Bodies.insertAll [] ended.written

end Main

variable {isalnum isupper : Char → Bool} {lower : Text → Text}

theorem flow_path_ne (out_root name app_short : Text) :
    flow_path lower out_root name ≠ modules_path lower out_root app_short := by
  intro h
  simp only [flow_path, modules_path, List.append_assoc] at h
  have hrest := List.append_cancel_left h
  exact absurd (congrArg (fun t => t[1]?) hrest) (by simp)

-- The modules that own a flow, and have a diagram of their own.
def owners (isalnum : Char → Bool) (c : AppComposition) : List ModuleEntry :=
  c.modules.filter fun m => (flow_of isalnum c.app_namespace m).isSome

theorem flow_paths (out_root : Text) (c : AppComposition) :
    (c.modules.filterMap (flow_file isalnum lower out_root c.app_namespace)).map Prod.fst =
      (owners isalnum c).map fun m => flow_path lower out_root m.name := by
  rw [owners]
  induction c.modules with
  | nil => rfl
  | cons m modules ih =>
      cases hflow : flow_of isalnum c.app_namespace m with
      | none =>
          have hfile : flow_file isalnum lower out_root c.app_namespace m = none := by
            rw [flow_file, hflow]
            rfl
          rw [List.filterMap_cons_none hfile, List.filter_cons_of_neg (by simp [hflow]), ih]
      | some ir =>
          have hfile : flow_file isalnum lower out_root c.app_namespace m =
              some (flow_path lower out_root m.name, render_flow ir) := by
            rw [flow_file, hflow]
            rfl
          rw [List.filterMap_cons_some hfile, List.filter_cons_of_pos (by simp [hflow]),
            List.map_cons, List.map_cons, ih]

theorem nodup_written (entries : List (Text × Text)) :
    ((Bodies.insertAll [] entries).map Prod.fst).Nodup := by
  have hempty : (([] : Bodies).map Prod.fst).Nodup := List.nodup_nil
  exact nodup_insertAll hempty entries

theorem keys_insertAll (entries : List (Text × Text)) (name : Text) :
    name ∈ (Bodies.insertAll [] entries).map Prod.fst ↔ name ∈ entries.map Prod.fst := by
  constructor
  · intro hmem
    obtain ⟨⟨_, body⟩, hentry, rfl⟩ := List.mem_map.mp hmem
    rw [mem_iff_lookup (nodup_written entries), lookup_insertAll, List.lookup_nil,
      Option.or_none] at hentry
    by_contra hnot
    rw [last_of_none hnot] at hentry
    cases hentry
  · intro hmem
    by_contra hnot
    have hnone : (Bodies.insertAll [] entries).lookup name = none :=
      List.lookup_eq_none_iff.mpr fun entry hentry => bne_iff_ne.mpr fun he =>
        hnot (List.mem_map.mpr ⟨entry, hentry, he.symm⟩)
    rw [lookup_insertAll, List.lookup_nil, Option.or_none, last_of,
      List.lookup_eq_none_iff] at hnone
    obtain ⟨entry, hentry, rfl⟩ := List.mem_map.mp hmem
    exact bne_iff_ne.mp (hnone entry (List.mem_reverse.mpr hentry)) rfl

-- Nothing is overwritten if and only if no path comes twice.
theorem length_insertAll (entries : List (Text × Text)) :
    (Bodies.insertAll [] entries).length = entries.length ↔ (entries.map Prod.fst).Nodup := by
  have hperm : ((Bodies.insertAll [] entries).map Prod.fst).Perm (entries.map Prod.fst).dedup :=
    (List.perm_ext_iff_of_nodup (nodup_written entries) (List.nodup_dedup _)).mpr fun name => by
      rw [keys_insertAll, List.mem_dedup]
  have hlength := hperm.length_eq
  rw [List.length_map] at hlength
  rw [hlength, ← List.dedup_eq_self]
  constructor
  · intro h
    exact (List.dedup_sublist _).eq_of_length (by rw [h, List.length_map])
  · intro h
    rw [h, List.length_map]

-- As many files as `main` says it has written are there if and only if the modules that
-- own a flow differ in more than case; then each of them has the diagram of its flow, the
-- application has that of its graph, and nothing else is written.
theorem main_documents {files : Text → Option Text} {text : Text} {c : AppComposition}
    (hparse : parse isalnum isupper lower files text = .ok c) (app_hpp out_root : Text) :
    ((main isalnum isupper lower app_hpp out_root files text).disk.length =
        (main isalnum isupper lower app_hpp out_root files text).written.length ↔
      ((owners isalnum c).map fun m => lower m.name).Nodup) ∧
    (((owners isalnum c).map fun m => lower m.name).Nodup → ∀ path document,
      (path, document) ∈ (main isalnum isupper lower app_hpp out_root files text).disk ↔
        (∃ m ∈ c.modules, ∃ ir, flow_of isalnum c.app_namespace m = some ir ∧
          path = flow_path lower out_root m.name ∧ document = render_flow ir) ∨
        path = modules_path lower out_root c.app_short ∧
          document = render_module_graph (extract isalnum c)) := by
  have hwritten : (main isalnum isupper lower app_hpp out_root files text).written =
      c.modules.filterMap (flow_file isalnum lower out_root c.app_namespace) ++
        [(modules_path lower out_root c.app_short, render_module_graph (extract isalnum c))] := by
    rw [main, hparse]
  have hkeys : ((main isalnum isupper lower app_hpp out_root files text).written.map
      Prod.fst).Nodup ↔
      ((owners isalnum c).map fun m => lower m.name).Nodup := by
    have hlower : ((owners isalnum c).map fun m => flow_path lower out_root m.name) =
        ((owners isalnum c).map fun m => lower m.name).map fun name =>
          out_root ++ "/flows/".toList ++ name ++ ".flow.mmd".toList := by
      rw [List.map_map]
      rfl
    rw [hwritten, List.map_append, flow_paths, hlower, List.map_singleton, List.nodup_append_comm,
      List.singleton_append, List.nodup_cons, List.nodup_map_iff]
    · refine and_iff_right fun hmem => ?_
      rw [← hlower] at hmem
      obtain ⟨m, -, hpath⟩ := List.mem_map.mp hmem
      exact flow_path_ne out_root m.name c.app_short hpath
    · exact fun name name' h => List.append_cancel_left (List.append_cancel_right h)
  refine ⟨(length_insertAll _).trans hkeys, fun hnames path document => ?_⟩
  have hnodup := hkeys.mpr hnames
  rw [Ended.disk, mem_iff_lookup (nodup_written _), lookup_insertAll, List.lookup_nil,
    Option.or_none, last_of_iff hnodup, hwritten, List.mem_append, List.mem_singleton,
    Prod.mk.injEq]
  refine or_congr_left ?_
  rw [List.mem_filterMap]
  simp only [flow_file, Option.map_eq_some_iff, Prod.mk.injEq]
  constructor
  · rintro ⟨m, hm, ir, hir, rfl, rfl⟩
    exact ⟨m, hm, ir, hir, rfl, rfl⟩
  · rintro ⟨m, hm, ir, hir, rfl, rfl⟩
    exact ⟨m, hm, ir, hir, rfl, rfl⟩

-- An application with the module of `shift_header`.
def app_text : Text :=
  "#include \"m.hpp\"\nnamespace n \x7b using R = Runtime<ModuleList<M>>; \x7d".toList

def app_files (path : Text) : Option Text :=
  if path = "m.hpp".toList then some shift_header.text
  else if path = "m.cpp".toList then some shift_source.text
  else none

theorem main_documents_app :
    (main no_words Char.isUpper ascii_lower "app.hpp".toList "out".toList app_files
        app_text).disk.length = 2 ∧
      ∃ ir, ("out/flows/m.flow.mmd".toList, render_flow ir) ∈
        (main no_words Char.isUpper ascii_lower "app.hpp".toList "out".toList app_files
          app_text).disk := by
  have hparse : parse no_words Char.isUpper ascii_lower app_files app_text =
      .ok ⟨['n'], ['n'], [⟨['M'], shift_header.text, some shift_source.text⟩], []⟩ := by
    decide +kernel
  obtain ⟨hcount, hdocuments⟩ := main_documents hparse "app.hpp".toList "out".toList
  obtain ⟨ir, hir, -⟩ := extract_written written_shift declared_shift ['n']
  refine ⟨(hcount.mpr (by decide +kernel)).trans (by decide +kernel), ir, ?_⟩
  exact (hdocuments (by decide +kernel) _ _).mpr
    (Or.inl ⟨_, List.mem_cons_self, ir, hir, by decide +kernel, rfl⟩)

end Diagrams

end CortexFlow
