import CortexFlow.Lib.Subobject
import CortexFlow.Runtime.Shutdown

namespace CortexFlow

namespace Runtime

open Lib

-- libstdc++'s `_Tuple_impl`: it derives from the `_Tuple_impl` of the elements after
-- the first, then from the `_Head_base` that holds the first.
def _Tuple_impl {α : Type*} (idx : Nat) : List α → Subobject (Nat × α)
  | [] => .empty
  | head :: tail => .derived (_Tuple_impl (idx + 1) tail) (.element (idx, head))

theorem constructors_tuple {α : Type*} (idx : Nat) (elements : List α) :
    ((_Tuple_impl idx elements).constructors.map Prod.fst) =
      downFrom (idx + elements.length) idx := by
  induction elements generalizing idx with
  | nil => simp [_Tuple_impl, Subobject.constructors]
  | cons head tail ih =>
      have hlt : idx < idx + (head :: tail).length := by simp
      have hlen : idx + (head :: tail).length = idx + 1 + tail.length := by
        simp only [List.length_cons]
        omega
      rw [downFrom_of_lt hlt, hlen, ← ih]
      simp [_Tuple_impl, Subobject.constructors]

theorem destructors_tuple {α : Type*} (elements : List α) :
    ((_Tuple_impl 0 elements).destructors.map Prod.fst) = List.range elements.length := by
  rw [Subobject.destructors_eq, List.map_reverse, constructors_tuple, downFrom,
    List.reverse_reverse, Nat.sub_zero, Nat.zero_add, List.range_eq_range']

namespace LogEvent

variable {π τ : Type*}

def constructed : LogEvent π τ → Option Nat
  | .construct i => some i
  | _ => none

def destructed : LogEvent π τ → Option Nat
  | .destroy i => some i
  | _ => none

def started : LogEvent π τ → Option Nat
  | .on_start i => some i
  | _ => none

def stopped : LogEvent π τ → Option Nat
  | .on_stop i => some i
  | _ => none

-- What is said of the calls of one lifecycle: modules are constructed in the order of
-- the list before any is started, and destructed in the reverse order after all have
-- been stopped.
structure DeclarationOrder (log : List (LogEvent π τ)) : Prop where
  constructed : (log.filterMap constructed).Pairwise (· < ·)
  before_on_start : log.Pairwise fun a b => a.started.isSome → b.constructed = none
  destructed : (log.filterMap destructed).Pairwise (· > ·)
  after_on_stop : log.Pairwise fun a b => a.destructed.isSome → b.stopped = none

theorem DeclarationOrder.shorter {log whole : List (LogEvent π τ)} (h : DeclarationOrder whole)
    (hp : log <+: whole) : DeclarationOrder log where
  constructed := h.constructed.sublist (hp.sublist.filterMap _)
  before_on_start := h.before_on_start.sublist hp.sublist
  destructed := h.destructed.sublist (hp.sublist.filterMap _)
  after_on_stop := h.after_on_stop.sublist hp.sublist

-- A log in two parts, where nothing in the first part asks anything of what follows.
theorem pairwise_of_parts {front back : List (LogEvent π τ)} {p q : LogEvent π τ → Prop}
    (hf : ∀ a ∈ front, ¬p a) (hb : ∀ b ∈ back, q b) :
    (front ++ back).Pairwise fun a b => p a → q b := by
  refine List.pairwise_append.mpr ⟨?_, ?_, fun a ha b _ hp => absurd hp (hf a ha)⟩
  · exact List.pairwise_of_forall_mem_list fun a ha _ _ hp => absurd hp (hf a ha)
  · exact List.pairwise_of_forall_mem_list fun _ _ b hmem _ => hb b hmem

theorem mem_verdict {rest : List (Post π τ)} {event : LogEvent π τ} (h : event ∈ verdict rest) :
    event = .trace drainRecord ∨ event = .discard rest := by
  cases rest with
  | nil => exact absurd h List.not_mem_nil
  | cons post rest => simpa [verdict] using h

-- Nothing is constructed later than by `start`.
theorem lifecycle_constructs (n : Nat) (before drained : List (Post π τ × Nat))
    (rest : List (Post π τ)) :
    ∃ later, lifecycle n before drained rest = constructs n 0 ++ later ∧
      ∀ event ∈ later, event.constructed = none := by
  refine ⟨on_starts n ++ (dispatches before ++ ([.shutdown] ++ (dispatches drained ++
    (verdict rest ++ (on_stops n 0 ++ destroys n))))), by simp [lifecycle, drain, opening], ?_⟩
  intro event hmem
  simp only [List.mem_append, on_starts, dispatches, on_stops, destroys, List.mem_map,
    List.mem_singleton] at hmem
  obtain ⟨_, _, rfl⟩ | ⟨_, _, rfl⟩ | rfl | ⟨_, _, rfl⟩ | hverdict | ⟨_, _, rfl⟩ |
    ⟨_, _, rfl⟩ := hmem
  all_goals try rfl
  obtain rfl | rfl := mem_verdict hverdict
  · rfl
  · rfl

-- Nothing is destructed before all modules have been stopped.
theorem lifecycle_destroys (n : Nat) (before drained : List (Post π τ × Nat))
    (rest : List (Post π τ)) :
    ∃ earlier, lifecycle n before drained rest = earlier ++ destroys n ∧
      ∀ event ∈ earlier, event.destructed = none := by
  refine ⟨_, rfl, ?_⟩
  intro event hmem
  simp only [drain, opening, List.mem_append, constructs, on_starts, dispatches, on_stops,
    List.mem_map, List.mem_singleton] at hmem
  obtain (((((⟨_, _, rfl⟩ | ⟨_, _, rfl⟩) | ⟨_, _, rfl⟩) | rfl) | ⟨_, _, rfl⟩) | hverdict) |
    ⟨_, _, rfl⟩ := hmem
  all_goals try rfl
  obtain rfl | rfl := mem_verdict hverdict
  · rfl
  · rfl

theorem constructed_lifecycle (n : Nat) (before drained : List (Post π τ × Nat))
    (rest : List (Post π τ)) :
    (lifecycle n before drained rest).filterMap constructed = downFrom n 0 := by
  obtain ⟨later, heq, hlater⟩ := lifecycle_constructs n before drained rest
  rw [heq, List.filterMap_append, List.filterMap_eq_nil_iff.mpr hlater, List.append_nil,
    constructs, List.filterMap_map]
  exact List.filterMap_some

theorem destructed_lifecycle (n : Nat) (before drained : List (Post π τ × Nat))
    (rest : List (Post π τ)) :
    (lifecycle n before drained rest).filterMap destructed = List.range n := by
  obtain ⟨earlier, heq, hearlier⟩ := lifecycle_destroys n before drained rest
  rw [heq, List.filterMap_append, List.filterMap_eq_nil_iff.mpr hearlier, List.nil_append,
    destroys, List.filterMap_map]
  exact List.filterMap_some

-- The one after the other is as it should be; the order within is that of the tuple.
theorem declarationOrder_lifecycle (n : Nat) (before drained : List (Post π τ × Nat))
    (rest : List (Post π τ)) : DeclarationOrder (lifecycle n before drained rest) ↔ n ≤ 1 := by
  constructor
  · intro h
    have hsorted := h.destructed
    rw [destructed_lifecycle] at hsorted
    by_contra hmany
    have hfirst := List.pairwise_iff_getElem.mp hsorted 0 1 (by simp; omega) (by simp; omega)
      (by omega)
    simp at hfirst
  · intro hn
    have hlone {l : List Nat} {r : Nat → Nat → Prop} (hl : l.length ≤ 1) : l.Pairwise r := by
      match l, hl with
      | [], _ => exact .nil
      | [i], _ => exact List.pairwise_singleton r i
    refine ⟨?_, ?_, ?_, ?_⟩
    · rw [constructed_lifecycle]
      exact hlone (by simpa [downFrom] using hn)
    · obtain ⟨later, heq, hlater⟩ := lifecycle_constructs n before drained rest
      rw [heq]
      refine pairwise_of_parts (fun event hmem => ?_) hlater
      obtain ⟨i, _, rfl⟩ := List.mem_map.mp hmem
      simp [started]
    · rw [destructed_lifecycle]
      exact hlone (by simpa using hn)
    · obtain ⟨earlier, heq, hearlier⟩ := lifecycle_destroys n before drained rest
      rw [heq]
      refine pairwise_of_parts (fun event hmem => ?_) fun event hmem => ?_
      · simp [hearlier event hmem]
      · obtain ⟨i, _, rfl⟩ := List.mem_map.mp hmem
        rfl

end LogEvent

namespace State

open LogEvent

variable {π τ : Type*} {config : Config} [DecidableEq τ]

-- A whole cycle constructs and destructs the modules as the tuple of them does.
theorem cycle_follows_tuple {s : State π τ} (hr : (machine π τ config).Reachable s)
    (hp : s.pc = .clear_flags) :
    s.log.filterMap constructed = (_Tuple_impl 0 config.modules).constructors.map Prod.fst ∧
      s.log.filterMap destructed =
        (_Tuple_impl 0 config.modules).destructors.map Prod.fst := by
  obtain ⟨events, hrun⟩ := hr
  obtain ⟨before, drained, rest, hlog, _⟩ := (shutdown_phases hrun).2.2 hp
  rw [hlog, constructed_lifecycle, destructed_lifecycle, constructors_tuple, destructors_tuple,
    Nat.zero_add]
  exact ⟨rfl, rfl⟩

-- `start` constructs the last module of the list first.
theorem start_constructs {m : Nat} (hm : config.modules.length = m + 2) :
    ∃ s : State π τ, (machine π τ config).Reachable s ∧
      s.log = [.construct (m + 1), .construct m] := by
  have hstart : (init : State π τ).step config .start = some (init.start config) := rfl
  have hpc : (init.start config : State π τ).pc = .construct (m + 1) ∧
      (init.start config : State π τ).log = [.construct (m + 1)] ∧
      (init.start config : State π τ).calls .loop = .outside := by
    simp [start, hm, begin_construct, note, init]
  have hloop : (init.start config : State π τ).step config .loop =
      some ((init.start config).begin_construct config (m + 1)) := by
    simp [step, Pc.faulted, loop, hpc.1, hpc.2.2]
  have hfirst : (machine π τ config).Reachable (init.start config) :=
    Machine.Reachable.next .init (i := .start) hstart
  refine ⟨_, hfirst.next (i := .loop) hloop, ?_⟩
  simp [begin_construct, note, hpc.2.1]

-- In every state of every run modules come in the order of the list exactly if there
-- is no more than one. A whole cycle has the order of the tuple, so that none with two
-- modules or more keeps to the list's.
theorem declaration_order_iff :
    ((∀ s, (machine π τ config).Reachable s → DeclarationOrder s.log) ↔
      config.modules.length ≤ 1) ∧
    ∀ s, (machine π τ config).Reachable s → s.pc = .clear_flags →
      s.log.filterMap constructed = (_Tuple_impl 0 config.modules).constructors.map Prod.fst ∧
      s.log.filterMap destructed = (_Tuple_impl 0 config.modules).destructors.map Prod.fst ∧
      (DeclarationOrder s.log ↔ config.modules.length ≤ 1) := by
  refine ⟨⟨fun hall => ?_, fun hn s hr => ?_⟩, fun s hr hp => ?_⟩
  · by_contra hmany
    obtain ⟨m, hm⟩ : ∃ m, config.modules.length = m + 2 :=
      ⟨config.modules.length - 2, by omega⟩
    obtain ⟨s, hr, hlog⟩ : ∃ s : State π τ, (machine π τ config).Reachable s ∧
        s.log = [.construct (m + 1), .construct m] := start_constructs hm
    have hsorted := (hall s hr).constructed
    rw [hlog] at hsorted
    simp [constructed] at hsorted
  · obtain ⟨events, hrun⟩ := hr
    obtain ⟨before, drained, rest, hprefix, _⟩ := (shutdown_phases hrun).1
    exact ((declarationOrder_lifecycle ..).mpr hn).shorter hprefix
  · obtain ⟨hconstructed, hdestructed⟩ := cycle_follows_tuple hr hp
    refine ⟨hconstructed, hdestructed, ?_⟩
    obtain ⟨events, hrun⟩ := hr
    obtain ⟨before, drained, rest, hlog, _⟩ := (shutdown_phases hrun).2.2 hp
    rw [hlog]
    exact declarationOrder_lifecycle ..

-- One module, through a whole cycle.
theorem declaration_order_singleRun :
    ∃ s : State Nat Nat, (machine Nat Nat ⟨[7], 1⟩).Reachable s ∧ s.pc = .clear_flags ∧
      DeclarationOrder s.log := by
  let cycle : List (Event Nat Nat) :=
    [.start, .loop, .loop, .shutdown, .loop, .loop, .loop, .loop, .loop]
  have hrun : ((machine Nat Nat ⟨[7], 1⟩).run init cycle).map State.pc = some .clear_flags := by
    decide +kernel
  obtain ⟨s, hs, hp⟩ := Option.map_eq_some_iff.mp hrun
  have hr : (machine Nat Nat ⟨[7], 1⟩).Reachable s := ⟨cycle, hs⟩
  exact ⟨s, hr, hp, (declaration_order_iff.2 s hr hp).2.2.mpr le_rfl⟩

theorem not_always_declaration_order :
    ¬∀ (config : Config) (s : State Unit Unit),
      (machine Unit Unit config).Reachable s → DeclarationOrder s.log := by
  intro hall
  obtain ⟨s, hr, hlog⟩ : ∃ s : State Unit Unit, (machine Unit Unit ⟨[1, 2], 0⟩).Reachable s ∧
      s.log = [.construct 1, .construct 0] := start_constructs rfl
  have hsorted := (hall _ s hr).constructed
  rw [hlog] at hsorted
  simp [constructed] at hsorted

end State

end Runtime

end CortexFlow
