import CortexFlow.Locks.Basic
import CortexFlow.Runtime.Effects

namespace CortexFlow

open Lib

namespace TimerService

variable {π : Type*}

-- `fire_due` drops exactly the entries that are due and no longer live.
theorem mem_dropped (now : Int) (fuel : Nat) (service : TimerService π)
    (hf : service.heap_.toList.length ≤ fuel) (entry : Entry π) :
    entry ∈ service.dropped now fuel ↔
      entry ∈ service.heap_.toList ∧ entry.seq ∉ service.live_seqs_ ∧ entry.due ≤ now := by
  induction fuel generalizing service with
  | zero =>
      have hnil := List.length_eq_zero_iff.mp (Nat.le_zero.mp hf)
      simp [dropped, hnil]
  | succ fuel ih =>
      unfold dropped
      cases hfront : service.heap_.front? with
      | none =>
          have hnil := (Heap.front?_eq_none_iff _).mp hfront
          simp [hnil]
      | some first =>
          by_cases hdue : first.due ≤ now
          · have hlen := Heap.length_pop hfront
            have hperm := Heap.toList_pop hfront
            obtain ⟨hheap, hlive, _⟩ := reap_eq hfront
            have hrest := ih service.reap (by rw [hheap]; omega)
            have hmem : entry ∈ service.heap_.toList ↔
                entry = first ∨ entry ∈ service.reap.heap_.toList := by
              rw [hperm.mem_iff, List.mem_cons, hheap]
            -- An entry that is left has another number than the one popped.
            have hother (he : entry ∈ service.reap.heap_.toList) : entry.seq ≠ first.seq := by
              intro hseq
              have hnodup := (hperm.map Entry.seq).nodup_iff.mp service.consistent.nodup
              rw [hheap] at he
              exact (List.nodup_cons.mp hnodup).1 (hseq ▸ List.mem_map_of_mem he)
            have hkept (he : entry ∈ service.reap.heap_.toList) :
                entry.seq ∉ service.reap.live_seqs_ ↔ entry.seq ∉ service.live_seqs_ := by
              rw [hlive, Finset.mem_erase]
              exact not_congr (and_iff_right (hother he))
            simp only [hdue, ite_true]
            rw [hmem]
            by_cases hfirst : first.seq ∈ service.live_seqs_
            · simp only [hfirst, ite_true]
              rw [hrest]
              constructor
              · rintro ⟨he, hdead, hle⟩
                exact ⟨Or.inr he, (hkept he).mp hdead, hle⟩
              · rintro ⟨rfl | he, hdead, hle⟩
                · exact absurd hfirst hdead
                · exact ⟨he, (hkept he).mpr hdead, hle⟩
            · simp only [hfirst, ite_false]
              rw [List.mem_cons, hrest]
              constructor
              · rintro (rfl | ⟨he, hdead, hle⟩)
                · exact ⟨Or.inl rfl, hfirst, hdue⟩
                · exact ⟨Or.inr he, (hkept he).mp hdead, hle⟩
              · rintro ⟨rfl | he, hdead, hle⟩
                · exact Or.inl rfl
                · exact Or.inr ⟨he, (hkept he).mpr hdead, hle⟩
          · simp only [hdue, ite_false]
            refine iff_of_false List.not_mem_nil ?_
            rintro ⟨he, _, hle⟩
            have := Heap.front_le hfront he
            omega

end TimerService

namespace Locks

variable {κ α τ : Type*} {config : Runtime.Config} {own : κ}

-- No handle in the objects needs a mutex that is held.
def Free (held : List (Mutex κ α)) (objects : List (Object (Release κ α))) : Prop :=
  ∀ mutex ∈ (objects.flatMap Object.destruct).filterMap Release.mutex, mutex ∉ held

theorem free_iff (held : List (Mutex κ α)) (objects : List (Object (Release κ α))) :
    Free held objects ↔ ∀ object ∈ objects, ∀ release, object.Holds release →
      ∀ mutex, release.mutex = some mutex → mutex ∉ held := by
  unfold Free
  simp only [List.mem_filterMap, List.mem_flatMap, Object.mem_destruct]
  constructor
  · intro h object hobject release hholds mutex hmutex
    exact h mutex ⟨release, ⟨object, hobject, hholds⟩, hmutex⟩
  · rintro h mutex ⟨release, ⟨object, hobject, hholds⟩, hmutex⟩
    exact h object hobject release hholds mutex hmutex

-- Handles never need the mutex of the queue.
theorem free_of_runtime {held : List (Mutex κ α)} (h : ∀ mutex ∈ held, mutex = .runtime)
    (objects : List (Object (Release κ α))) : Free held objects := by
  rw [free_iff]
  intro object _ release _ mutex hmutex hmem
  rw [h mutex hmem] at hmutex
  cases release <;> exact nomatch hmutex

theorem free_timers_iff (objects : List (Object (Release κ α))) :
    Free [.timers own] objects ↔
      ∀ object ∈ objects, ∀ seq, ¬object.Holds (.cancel own seq) := by
  rw [free_iff]
  constructor
  · intro h object hobject seq hholds
    exact h object hobject _ hholds (.timers own) rfl (List.mem_singleton_self _)
  · intro h object hobject release hholds mutex hmutex hmem
    rw [List.mem_singleton.mp hmem] at hmutex
    cases release with
    | cancel service seq =>
        simp only [Release.mutex, Option.some.injEq, Mutex.timers.injEq] at hmutex
        exact h object hobject seq (hmutex ▸ hholds)
    | release_slot => exact nomatch hmutex
    | deallocate => exact nomatch hmutex

-- A constructor makes and destructs no message whose allocator's lock is held.
def Ctor.Fresh : List (Mutex κ α) → Ctor κ α → Prop
  | _, done => True
  | held, make allocator ctor rest =>
      .allocator allocator ∉ held ∧ ctor.Fresh (.allocator allocator :: held) ∧ rest.Fresh held
  | held, destroy object rest => Free held [object] ∧ rest.Fresh held

-- No cancelled timer that is due brings a handle to another timer of the service,
-- and for `clear`, no timer at all does.
def Reapable (own : κ) (runtime : Runtime.State (Message κ α) τ) : Prop :=
  ∀ entry ∈ runtime.timers_.heap_.toList, entry.seq ∉ runtime.timers_.live_seqs_ →
    entry.due ≤ runtime.now → ∀ seq, ¬entry.envelope.payload_.object.Holds (.cancel own seq)

def Clearable (own : κ) (runtime : Runtime.State (Message κ α) τ) : Prop :=
  ∀ entry ∈ runtime.timers_.heap_.toList,
    ∀ seq, ¬entry.envelope.payload_.object.Holds (.cancel own seq)

theorem reapable_iff (runtime : Runtime.State (Message κ α) τ) :
    Reapable own runtime ↔ Free [.timers own] (tombstones runtime) := by
  rw [free_timers_iff]
  simp only [tombstones, List.mem_map, TimerService.mem_dropped _ _ _ le_rfl]
  constructor
  · rintro h _ ⟨entry, ⟨hmem, hdead, hdue⟩, rfl⟩ seq
    exact h entry hmem hdead hdue seq
  · intro h entry hmem hdead hdue seq
    exact h _ ⟨entry, ⟨hmem, hdead, hdue⟩, rfl⟩ seq

theorem clearable_iff (runtime : Runtime.State (Message κ α) τ) :
    Clearable own runtime ↔ Free [.timers own] (armed runtime) := by
  rw [free_timers_iff]
  simp only [armed, List.mem_map]
  constructor
  · rintro h _ ⟨entry, hmem, rfl⟩ seq
    exact h entry hmem seq
  · intro h entry hmem seq
    exact h _ ⟨entry, hmem, rfl⟩ seq

-- The condition under which a step does not lock a mutex that its thread holds.
def Clean (own : κ) (runtime : Runtime.State (Message κ α) τ) : Event κ α τ → Prop
  | .make _ allocator ctor => ctor.Fresh [.allocator allocator]
  | .clear _ => Clearable own runtime
  | .runtime (.call _ .fire_due) => Reapable own runtime
  | .runtime .loop =>
      match runtime.pc with
      | .fire => Reapable own runtime
      | .clear_timers => Clearable own runtime
      | _ => True
  | _ => True

-- The mutexes a thread holds between two steps.
def heldAt (runtime : Runtime.State (Message κ α) τ) : Runtime.Caller τ → List (Mutex κ α)
  | .loop => if runtime.pc.holdsMutex then [.runtime] else []
  | .foreign _ => []

theorem mem_heldAt {runtime : Runtime.State (Message κ α) τ} {caller : Runtime.Caller τ} :
    ∀ mutex ∈ heldAt runtime caller, mutex = (.runtime : Mutex κ α) := by
  intro mutex hmem
  cases caller with
  | foreign thread => exact nomatch hmem
  | loop =>
      unfold heldAt at hmem
      split_ifs at hmem
      · exact List.mem_singleton.mp hmem
      · exact nomatch hmem

theorem holdsMutex_of_opening {pc : Runtime.Pc} (h : pc.opening = true) :
    pc.holdsMutex = false := by
  cases pc <;> first | rfl | exact nomatch h

theorem holdsMutex_of_leaving {pc : Runtime.Pc} (h : pc.leaving = true) :
    pc.holdsMutex = false := by
  cases pc <;> first | rfl | exact nomatch h

theorem heldAt_of_not {runtime : Runtime.State (Message κ α) τ}
    (h : runtime.pc.holdsMutex = false) (caller : Runtime.Caller τ) :
    heldAt runtime caller = [] := by
  cases caller with
  | foreign thread => rfl
  | loop => simp [heldAt, h]

theorem heldAt_of_holds {runtime : Runtime.State (Message κ α) τ}
    (h : runtime.pc.holdsMutex = true) : heldAt runtime .loop = [.runtime] := by
  simp [heldAt, h]

theorem heldAt_of_mayCall {runtime : Runtime.State (Message κ α) τ} {caller : Runtime.Caller τ}
    (h : runtime.mayCall caller = true) : heldAt runtime caller = [] := by
  cases caller with
  | foreign thread => rfl
  | loop =>
      apply heldAt_of_not
      simp only [Runtime.State.mayCall, Runtime.State.free] at h
      split at h
      · cases hpc : runtime.pc <;> simp [hpc, Runtime.Pc.inUserCode] at h <;> rfl
      · cases h

-- A step that leaves the thread where it is, or fails, leaves it without mutexes if
-- it had none.
theorem heldAt_of_pc {s t : Runtime.State (Message κ α) τ} {caller : Runtime.Caller τ}
    (hpc : t.pc = s.pc ∨ ∃ reason, t.pc = .fault reason) (h : heldAt s caller = []) :
    heldAt t caller = [] := by
  obtain hpc | ⟨reason, hpc⟩ := hpc
  · cases caller with
    | foreign thread => rfl
    | loop =>
        unfold heldAt at h ⊢
        rwa [hpc]
  · exact heldAt_of_not (by rw [hpc]; rfl) caller

theorem heldAt_notify (runtime : Runtime.State (Message κ α) τ) (caller : Runtime.Caller τ) :
    heldAt runtime.notify caller = heldAt runtime caller := by
  cases caller with
  | foreign thread => rfl
  | loop => cases hpc : runtime.pc <;> simp [heldAt, Runtime.State.notify, Runtime.Pc.notify, hpc,
      Runtime.Pc.holdsMutex]

theorem holdsMutex_take (s : Runtime.State (Message κ α) τ) (config : Runtime.Config)
    (drain : Runtime.Drain) : (s.take config drain).pc.holdsMutex = false := by
  have hdrained : (s.drained drain).pc.holdsMutex = false := by cases drain <;> rfl
  unfold Runtime.State.take
  split_ifs
  · exact hdrained
  · split
    · exact hdrained
    · simp only
      split <;> rfl

variable [DecidableEq κ] [DecidableEq α]

instance (held : List (Mutex κ α)) (objects : List (Object (Release κ α))) :
    Decidable (Free held objects) :=
  inferInstanceAs (Decidable (∀ mutex ∈ (objects.flatMap Object.destruct).filterMap Release.mutex,
    mutex ∉ held))

instance Ctor.decidableFresh : (held : List (Mutex κ α)) → (ctor : Ctor κ α) →
    Decidable (ctor.Fresh held)
  | _, done => isTrue trivial
  | held, make allocator ctor rest =>
      have := decidableFresh (.allocator allocator :: held) ctor
      have := decidableFresh held rest
      inferInstanceAs (Decidable (.allocator allocator ∉ held ∧
        ctor.Fresh (.allocator allocator :: held) ∧ rest.Fresh held))
  | held, destroy object rest =>
      have := decidableFresh held rest
      inferInstanceAs (Decidable (Free held [object] ∧ rest.Fresh held))

instance (runtime : Runtime.State (Message κ α) τ) : Decidable (Reapable own runtime) :=
  decidable_of_iff _ (reapable_iff runtime).symm

instance (runtime : Runtime.State (Message κ α) τ) : Decidable (Clearable own runtime) :=
  decidable_of_iff _ (clearable_iff runtime).symm

instance (runtime : Runtime.State (Message κ α) τ) (event : Event κ α τ) :
    Decidable (Clean own runtime event) := by
  unfold Clean
  split <;> first | infer_instance | (split <;> infer_instance)

theorem exec_destroys (held : List (Mutex κ α)) (objects : List (Object (Release κ α))) :
    LockAction.exec held (destroys objects) = if Free held objects then some held else none :=
  LockAction.exec_brief ..

theorem exec_destroys_free {held : List (Mutex κ α)} (h : ∀ mutex ∈ held, mutex = .runtime)
    (objects : List (Object (Release κ α))) :
    LockAction.exec held (destroys objects) = some held := by
  rw [exec_destroys, if_pos (free_of_runtime h objects)]

theorem exec_brief_free {held : List (Mutex κ α)} {mutex : Mutex κ α} (h : mutex ∉ held) :
    LockAction.exec held (LockAction.brief [mutex]) = some held := by
  rw [LockAction.exec_brief, if_pos (by simpa using h)]

-- A constructor goes through exactly if it is fresh. Over its script.
theorem exec_ctor (held : List (Mutex κ α)) (ctor : Ctor κ α) :
    LockAction.exec held ctor.script = if ctor.Fresh held then some held else none := by
  induction ctor generalizing held with
  | done => rfl
  | make allocator ctor rest ihc ihr =>
      unfold Ctor.script Ctor.Fresh
      rw [LockAction.exec_append, LockAction.exec_critical held _ _ (ihc _)]
      by_cases hfirst : .allocator allocator ∉ held ∧ ctor.Fresh (.allocator allocator :: held)
      · rw [if_pos hfirst, Option.bind_some, ihr]
        simp only [hfirst, not_false_eq_true, true_and]
      · rw [if_neg hfirst, if_neg fun h => hfirst ⟨h.1, h.2.1⟩]
        rfl
  | destroy object rest ih =>
      unfold Ctor.script Ctor.Fresh
      rw [LockAction.exec_append, exec_destroys]
      by_cases hfree : Free held [object]
      · rw [if_pos hfree, Option.bind_some, ih]
        simp only [hfree, true_and]
      · rw [if_neg hfree, if_neg fun h => hfree h.1]
        rfl

-- `fire_due` and `clear` destruct messages in the critical section of the service.
theorem exec_timers {held : List (Mutex κ α)} (h : held = []) (own : κ)
    (objects : List (Object (Release κ α))) :
    LockAction.exec held (LockAction.critical (.timers own) (destroys objects)) =
      if Free [.timers own] objects then some [] else none := by
  subst h
  rw [LockAction.exec_critical [] _ _ (exec_destroys _ objects)]
  by_cases hfree : Free [.timers own] objects
  · rw [if_pos hfree, if_pos ⟨List.not_mem_nil, hfree⟩]
  · rw [if_neg hfree, if_neg fun h => hfree h.2]

-- Outside the places where it fires or clears the timers nothing is required.
theorem exec_clean {s t : Runtime.State (Message κ α) τ}
    (hclean : Clean own s (.runtime .loop))
    (hexec : LockAction.exec (heldAt s .loop) (script config own s (.runtime .loop)) =
      some (heldAt t .loop)) :
    LockAction.exec (heldAt s .loop) (script config own s (.runtime .loop)) =
      if Clean own s (.runtime .loop) then some (heldAt t .loop) else none := by
  rw [hexec, if_pos hclean]

theorem exec_idle {s t : Runtime.State (Message κ α) τ}
    (hclean : Clean own s (.runtime .loop)) (hs : s.pc.holdsMutex = false)
    (hscript : script config own s (.runtime .loop) = []) (ht : t.pc.holdsMutex = false) :
    LockAction.exec (heldAt s .loop) (script config own s (.runtime .loop)) =
      if Clean own s (.runtime .loop) then some (heldAt t .loop) else none := by
  refine exec_clean hclean ?_
  rw [hscript, heldAt_of_not hs, heldAt_of_not ht]
  rfl

variable [DecidableEq τ]

-- What a step of a call does with mutexes.
theorem exec_call {s : Runtime.State (Message κ α) τ} {caller : Runtime.Caller τ}
    (op : Runtime.Op (Message κ α)) (h : s.mayCall caller = true) :
    LockAction.exec (heldAt s caller) (script config own s (.runtime (.call caller op))) =
      if Clean own s (.runtime (.call caller op)) then some (heldAt (s.begin_op caller op) caller)
      else none := by
  have hheld := heldAt_of_mayCall h
  rw [heldAt_of_pc (Runtime.State.begin_op_frame s caller op).2.2 hheld, hheld]
  cases op with
  | post env | stop => rfl
  | arm delay env owner_name type_name =>
      unfold script
      by_cases hdelay : delay < 0
      · simp only [if_pos hdelay]
        rfl
      · simp only [if_neg hdelay]
        exact exec_brief_free List.not_mem_nil
  | cancel seq => exact exec_brief_free List.not_mem_nil
  | fire_due =>
      simp only [Clean, reapable_iff]
      exact exec_timers rfl own (tombstones s)

-- What a step of the owning thread does with mutexes, when it is not in a call.
theorem exec_loop {s t : Runtime.State (Message κ α) τ} (hs : s.loop config = some t) :
    LockAction.exec (heldAt s .loop) (script config own s (.runtime .loop)) =
      if Clean own s (.runtime .loop) then some (heldAt t .loop) else none := by
  have hfree {pc : Runtime.Pc} (hp : s.pc = pc) (hpc : pc.holdsMutex = false) :
      heldAt s .loop = ([] : List (Mutex κ α)) :=
    heldAt_of_not (by rw [hp, hpc]) .loop
  cases Runtime.State.loop_rule hs with
  | construct i hp =>
      exact exec_idle (by simp [Clean, hp]) (by rw [hp]; rfl)
        (by simp [script, destroyed, hp, destroys, LockAction.brief])
        (holdsMutex_of_opening (Runtime.State.opening_begin_construct ..))
  | on_start i hp =>
      exact exec_idle (by simp [Clean, hp]) (by rw [hp]; rfl)
        (by simp [script, destroyed, hp, destroys, LockAction.brief])
        (holdsMutex_of_opening (Runtime.State.opening_begin_on_start ..))
  | on_stop i hp =>
      exact exec_idle (by simp [Clean, hp]) (by rw [hp]; rfl)
        (by simp [script, destroyed, hp, destroys, LockAction.brief])
        (holdsMutex_of_leaving (Runtime.State.leaving_begin_on_stop ..))
  | destroy i hp =>
      exact exec_idle (by simp [Clean, hp]) (by rw [hp]; rfl)
        (by simp [script, destroyed, hp, destroys, LockAction.brief])
        (holdsMutex_of_leaving (Runtime.State.leaving_begin_destroy ..))
  | fired hp | stopped hp | unstopped hp | clear_flags hp =>
      exact exec_idle (by simp [Clean, hp]) (by rw [hp]; rfl)
        (by simp [script, destroyed, hp, destroys, LockAction.brief]) rfl
  | wait_lock hp | timed_out _ hp | again _ hp =>
      refine exec_clean (by simp [Clean, hp]) ?_
      rw [hfree hp rfl, heldAt_of_holds rfl]
      simp [script, hp, LockAction.exec]
  | no_timer hp | timer _ hp =>
      refine exec_clean (by simp [Clean, hp]) ?_
      rw [heldAt_of_holds (by rw [hp]; rfl), heldAt_of_holds rfl]
      simp only [script, hp]
      exact exec_brief_free (by simp)
  | reading next hp =>
      refine exec_clean (by simp [Clean, hp]) ?_
      rw [heldAt_of_holds (by rw [hp]; rfl), heldAt_of_holds rfl]
      simp [script, destroyed, hp, destroys, LockAction.brief, LockAction.exec]
  | awake wait hp hwakes =>
      refine exec_clean (by simp [Clean, hp]) ?_
      rw [heldAt_of_holds (by rw [hp]; rfl), heldAt_of_holds rfl]
      simp [script, hp, hwakes, LockAction.exec]
  | park wait hp hwakes =>
      refine exec_clean (by simp [Clean, hp]) ?_
      rw [heldAt_of_holds (by rw [hp]; rfl), heldAt_of_not rfl]
      simp [script, hp, hwakes, LockAction.exec]
  | returned hp | woken hp =>
      refine exec_clean (by simp [Clean, hp]) ?_
      rw [heldAt_of_holds (by rw [hp]; rfl), heldAt_of_not rfl]
      simp [script, hp, LockAction.exec]
  | fire hp =>
      have hafter := Runtime.State.pc_fire_due s (p := fun pc => pc.holdsMutex = false) rfl
        fun _ => rfl
      rw [heldAt_of_not hafter]
      simp only [Clean, script, destroyed, hp, reapable_iff]
      exact exec_timers (hfree hp rfl) own (tombstones s)
  | clear_timers hp =>
      have hafter : heldAt { s with
          pc := .clear_flags, cache_ := false, timers_ := s.timers_.clear } .loop =
            ([] : List (Mutex κ α)) := rfl
      rw [hafter]
      simp only [Clean, script, destroyed, hp, clearable_iff]
      exact exec_timers (hfree hp rfl) own (armed s)
  | take drain hp =>
      refine exec_clean (by simp [Clean, hp]) ?_
      rw [hfree hp rfl, heldAt_of_not (holdsMutex_take s config drain)]
      simp only [script, hp]
      split_ifs
      · rfl
      · exact exec_brief_free List.not_mem_nil
  | handled drain hp =>
      refine exec_clean (by simp [Clean, hp]) ?_
      rw [hfree hp rfl, heldAt_of_not rfl]
      simp only [script, hp]
      exact exec_destroys_free (by simp) _
  | discard hp =>
      refine exec_clean (by simp [Clean, hp]) ?_
      rw [hfree hp rfl, heldAt_of_not (holdsMutex_of_leaving (Runtime.State.leaving_discard ..))]
      simp only [script, hp]
      have hbody : LockAction.exec [Mutex.runtime] (destroys (destroyed s (.runtime .loop))) =
          if True then some [Mutex.runtime] else (none : Option (List (Mutex κ α))) := by
        rw [if_pos trivial]
        exact exec_destroys_free (by simp) _
      rw [LockAction.exec_critical [] _ _ hbody]
      simp

theorem exec_advance {s t : Runtime.State (Message κ α) τ} {caller : Runtime.Caller τ}
    (hs : Runtime.State.Rule config s (.advance caller) t) :
    LockAction.exec (heldAt s caller) (script config own s (.runtime (.advance caller))) =
      some (heldAt t caller) := by
  have hsame {u : Runtime.State (Message κ α) τ} (hu : u.pc = s.pc) :
      (heldAt u caller : List (Mutex κ α)) = heldAt s caller := by
    cases caller with
    | foreign thread => rfl
    | loop => simp [heldAt, hu]
  have hbrief (h : s.pc.holdsMutex = false) :
      LockAction.exec (heldAt s caller) (LockAction.brief [(Mutex.runtime : Mutex κ α)]) =
        some (heldAt s caller) := by
    rw [heldAt_of_not h]
    exact exec_brief_free List.not_mem_nil
  cases hs with
  | post_dropped _ env rest hc hstop =>
      rw [hsame (Runtime.State.pc_post_next ..)]
      simp only [script, hc]
      exact exec_destroys_free mem_heldAt _
  | post_tested _ env rest hc hstop =>
      rw [hsame rfl]
      simp only [script, hc]
      exact exec_destroys_free mem_heldAt _
  | post_refused _ env rest hc hm hstop =>
      rw [hsame (Runtime.State.pc_post_next ..)]
      simp only [script, hc]
      rw [LockAction.exec_append, hbrief hm, Option.bind_some]
      exact exec_destroys_free mem_heldAt _
  | post_pushed _ env rest hc hm hstop =>
      rw [hsame rfl]
      simp only [script, hc]
      rw [LockAction.exec_append, hbrief hm, Option.bind_some]
      exact exec_destroys_free mem_heldAt _
  | post_notified _ rest hc =>
      have hpost : (heldAt (s.notify.post_next caller rest) caller : List (Mutex κ α)) =
          heldAt s caller := by
        rw [← heldAt_notify s caller]
        cases caller with
        | foreign thread => rfl
        | loop => simp [heldAt, Runtime.State.pc_post_next]
      rw [hpost]
      simp only [script, hc]
      exact exec_destroys_free mem_heldAt _
  | stop_set _ hc hm =>
      rw [hsame rfl]
      simp only [script, hc]
      exact hbrief hm
  | stop_notified _ hc =>
      have hnotify : (heldAt (s.notify.setCall caller .outside) caller : List (Mutex κ α)) =
          heldAt s.notify caller := by
        cases caller <;> rfl
      rw [hnotify, heldAt_notify]
      simp only [script, hc]
      exact exec_destroys_free mem_heldAt _

-- What any step of the runtime does with mutexes.
theorem exec_runtime {s t : Runtime.State (Message κ α) τ}
    {event : Runtime.Event (Message κ α) τ} (hs : s.step config event = some t) :
    LockAction.exec (heldAt s (Event.runtime event : Event κ α τ).caller)
        (script config own s (.runtime event)) =
      if Clean own s (.runtime event) then
        some (heldAt t (Event.runtime event : Event κ α τ).caller) else none := by
  have hrule := (Runtime.State.step_rule hs).2
  have hquiet (hclean : Clean own s (.runtime event))
      (hscript : script config own s (.runtime event) = [])
      (hs : heldAt s (Event.runtime event : Event κ α τ).caller = ([] : List (Mutex κ α)))
      (ht : heldAt t (Event.runtime event : Event κ α τ).caller = ([] : List (Mutex κ α))) :
      LockAction.exec (heldAt s (Event.runtime event : Event κ α τ).caller)
          (script config own s (.runtime event)) =
        if Clean own s (.runtime event) then
          some (heldAt t (Event.runtime event : Event κ α τ).caller) else none := by
    rw [hscript, hs, ht, if_pos hclean]
    rfl
  cases event with
  | advance caller =>
      exact (exec_advance hrule).trans (if_pos trivial).symm
  | tick now =>
      cases hrule
      rfl
  | call caller op =>
      cases hrule with
      | call _ _ hmay => exact exec_call op hmay
  | loop =>
      cases hrule with
      | loop _ _ hloop => exact exec_loop hloop
  | start =>
      cases hrule with
      | start htop =>
          have hidle := Runtime.State.atTop_pc htop
          have hafter := Runtime.State.pc_start s config (p := fun pc => pc.holdsMutex = false)
            (fun pc ho => by cases pc <;> first | rfl | exact nomatch ho) fun _ => rfl
          have hexec : LockAction.exec [] (script config own s (.runtime .start)) =
              some ([] : List (Mutex κ α)) := by
            simp only [script]
            split_ifs
            · rfl
            · exact exec_brief_free List.not_mem_nil
          rw [heldAt_of_not (by rw [hidle]; rfl), heldAt_of_not hafter, hexec]
          exact (if_pos trivial).symm
  | run | run_one | shutdown =>
      cases hrule with
      | _ htop =>
          have hidle := Runtime.State.atTop_pc htop
          refine hquiet trivial rfl (heldAt_of_not (by rw [hidle]; rfl) _)
            (heldAt_of_not (Runtime.State.pc_enter s (p := fun pc => pc.holdsMutex = false) _ _ rfl
              rfl) _)
  | wake =>
      cases hrule with
      | wake wait notified hp =>
          exact hquiet trivial rfl (heldAt_of_not (by rw [hp]; rfl) _) (heldAt_of_not rfl _)
  | timeout =>
      cases hrule with
      | timeout next reading notified hp =>
          exact hquiet trivial rfl (heldAt_of_not (by rw [hp]; rfl) _) (heldAt_of_not rfl _)

omit [DecidableEq κ] [DecidableEq α] in
-- Only its own steps change which mutexes a thread holds.
theorem heldAt_other {s t : Runtime.State (Message κ α) τ}
    {event : Runtime.Event (Message κ α) τ} (hs : s.step config event = some t)
    (hf : t.pc.faulted = false) {other : Runtime.Caller τ}
    (ho : other ≠ (Event.runtime event : Event κ α τ).caller) :
    (heldAt t other : List (Mutex κ α)) = heldAt s other := by
  cases other with
  | foreign thread => rfl
  | loop =>
      have hsame (hpc : t.pc = s.pc ∨ t.pc = s.pc.notify) :
          (heldAt t .loop : List (Mutex κ α)) = heldAt s .loop := by
        cases hpc with
        | inl hpc => simp [heldAt, hpc]
        | inr hpc =>
            rw [← heldAt_notify s .loop]
            unfold heldAt
            rw [hpc]
            rfl
      have hrule := (Runtime.State.step_rule hs).2
      cases hrule with
      | call caller op =>
          obtain hpc | ⟨reason, hpc⟩ := (Runtime.State.begin_op_frame s caller op).2.2
          · exact hsame (Or.inl hpc)
          · rw [hpc] at hf
            exact nomatch hf
      | post_dropped | post_refused => exact hsame (Or.inl (Runtime.State.pc_post_next ..))
      | post_tested | post_pushed | stop_set => exact hsame (Or.inl rfl)
      | post_notified => exact hsame (Or.inr (Runtime.State.pc_post_next ..))
      | stop_notified => exact hsame (Or.inr rfl)
      | tick | start | run | run_one | shutdown | loop | wake | timeout => exact absurd rfl ho

namespace State

-- What any step does with mutexes.
theorem exec_event {runtime next : Runtime.State (Message κ α) τ} {event : Event κ α τ}
    (h : proceed config runtime event = some next) :
    LockAction.exec (heldAt runtime event.caller) (script config own runtime event) =
      if Clean own runtime event then some (heldAt next event.caller) else none := by
  cases event with
  | runtime event => exact exec_runtime h
  | make caller allocator ctor =>
      simp only [proceed] at h
      split_ifs at h with hmay
      obtain rfl := Option.some.inj h
      simp only [Event.caller, script, Clean, heldAt_of_mayCall hmay]
      rw [LockAction.exec_critical [] _ _ (exec_ctor _ ctor)]
      simp
  | destroy caller object =>
      simp only [proceed] at h
      split_ifs at h with hmay
      obtain rfl := Option.some.inj h
      exact (exec_destroys_free mem_heldAt _).trans (if_pos trivial).symm
  | clear caller =>
      simp only [proceed] at h
      split_ifs at h with hmay
      obtain rfl := Option.some.inj h
      have hafter : heldAt { runtime with timers_ := runtime.timers_.clear } caller =
          (heldAt runtime caller : List (Mutex κ α)) := by cases caller <;> rfl
      simp only [Event.caller, script, destroyed, Clean, clearable_iff, hafter]
      rw [heldAt_of_mayCall hmay]
      exact exec_timers rfl own (armed runtime)

-- Each thread holds the mutexes that its place in the program says.
def Tracked (s : State κ α τ) : Prop :=
  s.runtime.pc.faulted = false → ∀ caller, s.held caller = heldAt s.runtime caller

-- The steps, with what each of them requires.
inductive Rule (config : Runtime.Config) (own : κ) (s : State κ α τ) (event : Event κ α τ) :
    State κ α τ → Prop
  | stuck : ¬Clean own s.runtime event → Rule config own s event { s with stuck := true }
  | through (next : Runtime.State (Message κ α) τ) (timers : TimerService (Message κ α)) :
      Clean own s.runtime event → proceed config s.runtime event = some next →
      Rule config own s event
        ⟨{ next with timers_ := timers },
          Function.update s.held event.caller (heldAt next event.caller), false⟩

theorem step_rule {s t : State κ α τ} {event : Event κ α τ} (h : s.Tracked)
    (hs : step config own s event = some t) :
    s.stuck = false ∧ s.runtime.pc.faulted = false ∧ Rule config own s event t := by
  unfold step at hs
  by_cases hrun : s.stuck = false ∧ s.runtime.pc.faulted = false
  · rw [if_neg (by simp [hrun])] at hs
    obtain ⟨next, hnext, rfl⟩ := Option.map_eq_some_iff.mp hs
    refine ⟨hrun.1, hrun.2, ?_⟩
    rw [h hrun.2, exec_event hnext]
    by_cases hclean : Clean own s.runtime event
    · rw [if_pos hclean]
      exact .through next _ hclean hnext
    · rw [if_neg hclean]
      exact .stuck hclean
  · rw [if_pos (by simpa [or_iff_not_imp_left] using hrun)] at hs
    exact nomatch hs

theorem tracked_step {s t : State κ α τ} {event : Event κ α τ} (h : s.Tracked)
    (hs : step config own s event = some t) : t.Tracked := by
  obtain ⟨_, hf, hrule⟩ := step_rule h hs
  cases hrule with
  | stuck => exact h
  | through next timers _ hnext =>
      intro hfault other
      have hafter (caller : Runtime.Caller τ) :
          heldAt { next with timers_ := timers } caller =
            (heldAt next caller : List (Mutex κ α)) := by cases caller <;> rfl
      simp only [hafter]
      by_cases ho : other = event.caller
      · rw [ho, Function.update_self]
      · rw [Function.update_of_ne ho, h hf other]
        cases event with
        | runtime event => exact (heldAt_other hnext hfault ho).symm
        | make caller _ _ | destroy caller _ | clear caller =>
            simp only [proceed] at hnext
            split_ifs at hnext
            obtain rfl := Option.some.inj hnext
            cases other <;> rfl

theorem stuck_step {s t : State κ α τ} {event : Event κ α τ} (h : s.Tracked)
    (hs : step config own s event = some t) :
    t.stuck = false ↔ s.stuck = false ∧ Clean own s.runtime event := by
  obtain ⟨hstuck, _, hrule⟩ := step_rule h hs
  cases hrule with
  | stuck hclean => exact iff_of_false nofun fun hboth => hclean hboth.2
  | through next timers hclean _ => exact iff_of_true rfl ⟨hstuck, hclean⟩

-- No thread ever locks a mutex it holds exactly as long as no constructor makes or
-- destructs a message with an allocator that is locked for it, and no message that
-- `fire_due` drops or `clear` finds has a timer of the same service.
theorem never_stuck_iff {t : State κ α τ} {events : List (Event κ α τ)}
    (hr : (machine α τ config own).run init events = some t) :
    t.stuck = false ↔
      (machine α τ config own).Meets (fun s event => Clean own s.runtime event) init events := by
  have hinit : (init : State κ α τ).Tracked := fun _ caller => by cases caller <;> rfl
  rw [Machine.run_iff_meets (I := Tracked) (P := fun s => s.stuck = false)
    (fun _ _ _ => tracked_step) (fun _ _ _ => stuck_step) hinit hr]
  exact and_iff_right rfl

-- A timer is armed with a message, cancelled, and reaped when it is due.
def reaping (message : Message Bool Unit) : List (Event Bool Unit Unit) :=
  [.runtime (.call .loop (.arm 5 ⟨0, 1, 2, message⟩ "M" "T")), .runtime (.call .loop (.cancel 1)),
    .runtime (.tick 5), .runtime (.call .loop .fire_due)]

-- The message has a timer of another service.
theorem never_stuck_iff_reaping :
    ∃ t : State Bool Unit Unit,
      (machine Unit Unit ⟨[1], 4⟩ false).run init
        (reaping ⟨(), .handle (some (.cancel true 7))⟩) = some t ∧ t.stuck = false := by
  have hrun : ((machine Unit Unit ⟨[1], 4⟩ false).run init
      (reaping ⟨(), .handle (some (.cancel true 7))⟩)).isSome = true := by decide +kernel
  obtain ⟨t, ht⟩ := Option.isSome_iff_exists.mp hrun
  exact ⟨t, ht, (never_stuck_iff ht).mpr (by decide +kernel)⟩

-- A message whose constructor makes another one, and a cancelled timer whose message
-- has a timer of the same service.
theorem not_never_stuck :
    (¬∀ t : State Bool Unit Unit,
      (machine Unit Unit ⟨[1], 4⟩ false).run init [.make .loop () (.make () .done .done)] = some t →
        t.stuck = false) ∧
    ¬∀ t : State Bool Unit Unit,
      (machine Unit Unit ⟨[1], 4⟩ false).run init (reaping ⟨(), .handle (some (.cancel false 7))⟩) =
        some t → t.stuck = false := by
  constructor
  · intro hall
    have hstuck : ((machine Unit Unit ⟨[1], 4⟩ false).run init
        [.make .loop () (.make () .done .done)]).map State.stuck = some true := by decide +kernel
    obtain ⟨t, ht, hlocked⟩ := Option.map_eq_some_iff.mp hstuck
    exact nomatch hlocked.symm.trans (hall t ht)
  · intro hall
    have hstuck : ((machine Unit Unit ⟨[1], 4⟩ false).run init
        (reaping ⟨(), .handle (some (.cancel false 7))⟩)).map State.stuck = some true := by
      decide +kernel
    obtain ⟨t, ht, hlocked⟩ := Option.map_eq_some_iff.mp hstuck
    exact nomatch hlocked.symm.trans (hall t ht)

end State

end Locks

end CortexFlow
