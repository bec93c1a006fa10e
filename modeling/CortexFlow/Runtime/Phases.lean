import CortexFlow.Runtime.Delivery
import Mathlib

namespace CortexFlow

namespace Runtime

-- The indices from `n - 1` down to `left`.
def downFrom (n left : Nat) : List Nat := (List.range' left (n - left)).reverse

@[simp] theorem downFrom_self (n : Nat) : downFrom n n = [] := by
  simp [downFrom]

theorem downFrom_of_lt {n i : Nat} (h : i < n) : downFrom n i = downFrom n (i + 1) ++ [i] := by
  unfold downFrom
  rw [show n - i = (n - (i + 1)) + 1 by omega, List.range'_succ, List.reverse_cons]

theorem downFrom_prefix_zero {n i : Nat} (h : i ≤ n) : downFrom n i <+: downFrom n 0 := by
  unfold downFrom
  rw [List.reverse_prefix, Nat.sub_zero]
  refine ⟨List.range' 0 i, ?_⟩
  have hsplit := List.range'_append_1 (s := 0) (m := i) (n := n - i)
  rwa [Nat.zero_add, Nat.add_sub_of_le h] at hsplit

theorem range_prefix_of_le {n i : Nat} (h : i ≤ n) : List.range i <+: List.range n := by
  refine ⟨List.range' i (n - i), ?_⟩
  have hsplit := List.range'_append_1 (s := 0) (m := i) (n := n - i)
  rwa [Nat.zero_add, Nat.add_sub_of_le h, ← List.range_eq_range', ← List.range_eq_range']
    at hsplit

namespace LogEvent

variable {π τ : Type*}

def constructs (n left : Nat) : List (LogEvent π τ) := (downFrom n left).map .construct

def on_starts (k : Nat) : List (LogEvent π τ) := (List.range k).map .on_start

def on_stops (n left : Nat) : List (LogEvent π τ) := (downFrom n left).map .on_stop

def destroys (k : Nat) : List (LogEvent π τ) := (List.range k).map .destroy

-- Envelopes with the modules they were handed to.
def dispatches (calls : List (Post π τ × Nat)) : List (LogEvent π τ) :=
  calls.map fun call => .dispatch call.1 call.2

-- What `shutdown` traces and throws away if its drain leaves envelopes behind.
def verdict : List (Post π τ) → List (LogEvent π τ)
  | [] => []
  | rest => [.trace drainRecord, .discard rest]

def opening (n : Nat) : List (LogEvent π τ) := constructs n 0 ++ on_starts n

def drain (n : Nat) (before drained : List (Post π τ × Nat)) : List (LogEvent π τ) :=
  opening n ++ dispatches before ++ [.shutdown] ++ dispatches drained

-- The calls into the modules over a whole lifecycle.
def lifecycle (n : Nat) (before drained : List (Post π τ × Nat)) (rest : List (Post π τ)) :
    List (LogEvent π τ) :=
  drain n before drained ++ verdict rest ++ on_stops n 0 ++ destroys n

-- How much of that has come about.
def upTo (n : Nat) (before drained : List (Post π τ × Nat)) (rest : List (Post π τ)) :
    Pc → List (LogEvent π τ)
  | .construct i => constructs n i
  | .on_start i => constructs n 0 ++ on_starts (i + 1)
  | .take (.shutdown _) | .handle (.shutdown _) | .discard => drain n before drained
  | .on_stop i => drain n before drained ++ verdict rest ++ on_stops n i
  | .destroy i => drain n before drained ++ verdict rest ++ on_stops n 0 ++ destroys (i + 1)
  | .clear_timers | .clear_flags => lifecycle n before drained rest
  | _ => opening n ++ dispatches before

theorem constructs_of_lt {n i : Nat} (h : i < n) :
    (constructs n i : List (LogEvent π τ)) = constructs n (i + 1) ++ [.construct i] := by
  rw [constructs, downFrom_of_lt h, List.map_append]
  rfl

theorem on_stops_of_lt {n i : Nat} (h : i < n) :
    (on_stops n i : List (LogEvent π τ)) = on_stops n (i + 1) ++ [.on_stop i] := by
  rw [on_stops, downFrom_of_lt h, List.map_append]
  rfl

theorem on_starts_succ (k : Nat) :
    (on_starts (k + 1) : List (LogEvent π τ)) = on_starts k ++ [.on_start k] := by
  rw [on_starts, List.range_succ, List.map_append]
  rfl

theorem destroys_succ (k : Nat) :
    (destroys (k + 1) : List (LogEvent π τ)) = destroys k ++ [.destroy k] := by
  rw [destroys, List.range_succ, List.map_append]
  rfl

theorem dispatches_concat (calls : List (Post π τ × Nat)) (post : Post π τ) (i : Nat) :
    dispatches (calls ++ [(post, i)]) = dispatches calls ++ [.dispatch post i] :=
  List.map_append ..

end LogEvent

-- While modules are being constructed or started.
def Pc.starting : Pc → Bool
  | .construct _ | .on_start _ => true
  | _ => false

-- Between `start` and `shutdown`, or after all.
def Pc.running : Pc → Bool
  | .construct _ | .on_start _ | .take (.shutdown _) | .handle (.shutdown _) | .discard
  | .on_stop _ | .destroy _ | .clear_timers | .clear_flags | .fault _ => false
  | _ => true

-- How many envelopes `shutdown` has dispatched, and which module is being called.
def Pc.Placed (config : Config) (drained : Nat) : Pc → Prop
  | .construct i | .on_start i => i < config.modules.length ∧ drained = 0
  | .take (.shutdown k) => drained = k ∧ k ≤ config.kDrainBudget
  | .handle (.shutdown k) => drained = k + 1 ∧ k < config.kDrainBudget
  | .on_stop i | .destroy i => i < config.modules.length ∧ drained ≤ config.kDrainBudget
  | .discard | .clear_timers | .clear_flags => drained ≤ config.kDrainBudget
  | _ => drained = 0

theorem Pc.placed_le {config : Config} {drained : Nat} {pc : Pc}
    (h : pc.Placed config drained) : drained ≤ config.kDrainBudget := by
  unfold Placed at h
  split at h <;> omega

theorem Pc.placed_of_running {config : Config} {drained : Nat} {pc : Pc}
    (h : pc.running = true) : pc.Placed config drained ↔ drained = 0 := by
  cases pc with
  | take drain | handle drain => cases drain <;> first | exact Iff.rfl | exact nomatch h
  | _ => first | exact Iff.rfl | exact nomatch h

theorem LogEvent.upTo_of_running {π τ : Type*} {n : Nat} {before drained : List (Post π τ × Nat)}
    {rest : List (Post π τ)} {pc : Pc} (h : pc.running = true) :
    upTo n before drained rest pc = opening n ++ dispatches before := by
  cases pc with
  | take drain | handle drain => cases drain <;> first | rfl | exact nomatch h
  | _ => first | rfl | exact nomatch h

theorem LogEvent.upTo_prefix_lifecycle {π τ : Type*} {config : Config}
    {before drained : List (Post π τ × Nat)} (rest : List (Post π τ)) {pc : Pc}
    (h : pc.Placed config drained.length) :
    upTo config.modules.length before drained rest pc <+:
      lifecycle config.modules.length before drained rest := by
  let n := config.modules.length
  have hdrain : drain n before drained <+: lifecycle n before drained rest := by
    unfold lifecycle
    simp only [List.append_assoc]
    exact List.prefix_append ..
  have hrunning : opening n ++ dispatches before <+: lifecycle n before drained rest := by
    refine List.IsPrefix.trans ?_ hdrain
    unfold drain
    rw [List.append_assoc]
    exact List.prefix_append ..
  have hopening : opening n <+: lifecycle n before drained rest :=
    (List.prefix_append ..).trans hrunning
  cases pc with
  | construct i =>
      have hconstructs : (constructs n i : List (LogEvent π τ)) <+: constructs n 0 :=
        (downFrom_prefix_zero h.1.le).map _
      exact hconstructs.trans ((List.prefix_append ..).trans hopening)
  | on_start i =>
      have hstarts : (on_starts (i + 1) : List (LogEvent π τ)) <+: on_starts n :=
        (range_prefix_of_le h.1).map _
      exact ((List.prefix_append_right_inj _).mpr hstarts).trans hopening
  | take drain | handle drain => cases drain <;> first | exact hdrain | exact hrunning
  | discard => exact hdrain
  | on_stop i =>
      have hstops : (on_stops n i : List (LogEvent π τ)) <+: on_stops n 0 :=
        (downFrom_prefix_zero h.1.le).map _
      exact ((List.prefix_append_right_inj _).mpr hstops).trans (List.prefix_append ..)
  | destroy i =>
      have hdestroys : (destroys (i + 1) : List (LogEvent π τ)) <+: destroys n :=
        (range_prefix_of_le h.1).map _
      exact (List.prefix_append_right_inj _).mpr hdestroys
  | clear_timers | clear_flags => exact List.prefix_rfl
  | _ => exact hrunning

namespace State

open LogEvent

variable {π τ : Type*} {config : Config} {quiet : Prop} {before drained : List (Post π τ × Nat)}
  {rest : List (Post π τ)}

-- The present lifecycle so far. `quiet` says that no other thread posts between
-- the end of a drain and the discard.
structure Progress (config : Config) (quiet : Prop) (s : State π τ)
    (before drained : List (Post π τ × Nat)) (rest : List (Post π τ)) : Prop where
  log : s.log = upTo config.modules.length before drained rest s.pc
  dispatched : s.dispatched = (before ++ drained).map Prod.fst
  discarded : s.discarded = rest
  started : s.started_ = !s.pc.starting
  early : s.pc.starting = true → s.dispatched = []
  placed : s.pc.Placed config drained.length
  waits : quiet → s.pc = .discard → s.queue_ ≠ [] → drained.length = config.kDrainBudget
  spent : quiet → rest ≠ [] → drained.length = config.kDrainBudget

theorem progress_begin_on_start {s : State π τ} {i : Nat} (hi : i ≤ config.modules.length)
    (hlog : s.log = constructs config.modules.length 0 ++ on_starts i)
    (hstarted : s.started_ = false) (hdispatched : s.dispatched = [])
    (hdiscarded : s.discarded = []) :
    (s.begin_on_start config i).Progress config quiet [] [] [] := by
  unfold begin_on_start
  split_ifs with hlt
  · refine ⟨?_, hdispatched, hdiscarded, hstarted, fun _ => hdispatched, ⟨hlt, rfl⟩,
      fun _ => nofun, fun _ h => ?_⟩
    · simp only [note, hlog, upTo, on_starts_succ, List.append_assoc]
    · exact absurd rfl h
  · have hall : i = config.modules.length := by omega
    subst hall
    refine ⟨?_, hdispatched, hdiscarded, rfl, nofun, rfl, fun _ => nofun,
      fun _ h => absurd rfl h⟩
    exact hlog.trans (List.append_nil _).symm

theorem progress_begin_construct {s : State π τ} {left : Nat}
    (hleft : left ≤ config.modules.length)
    (hlog : s.log = constructs config.modules.length left) (hstarted : s.started_ = false)
    (hdispatched : s.dispatched = []) (hdiscarded : s.discarded = []) :
    (s.begin_construct config left).Progress config quiet [] [] [] := by
  cases left with
  | zero =>
      refine progress_begin_on_start (Nat.zero_le _) ?_ hstarted hdispatched hdiscarded
      exact hlog.trans (List.append_nil _).symm
  | succ i =>
      refine ⟨?_, hdispatched, hdiscarded, hstarted, fun _ => hdispatched, ⟨hleft, rfl⟩,
        fun _ => nofun, fun _ h => ?_⟩
      · simp only [begin_construct, note, hlog, upTo, constructs_of_lt hleft]
      · exact absurd rfl h

-- What holds of `shutdown` from the discard on.
structure Closing (config : Config) (quiet : Prop) (s : State π τ)
    (before drained : List (Post π τ × Nat)) (rest : List (Post π τ)) : Prop where
  dispatched : s.dispatched = (before ++ drained).map Prod.fst
  discarded : s.discarded = rest
  started : s.started_ = true
  bounded : drained.length ≤ config.kDrainBudget
  spent : quiet → rest ≠ [] → drained.length = config.kDrainBudget

theorem progress_begin_destroy {s : State π τ} (h : s.Closing config quiet before drained rest)
    {i : Nat} (hi : i ≤ config.modules.length)
    (hlog : s.log = drain config.modules.length before drained ++ verdict rest ++
      on_stops config.modules.length 0 ++ destroys i) :
    (s.begin_destroy config i).Progress config quiet before drained rest := by
  unfold begin_destroy
  split_ifs with hlt
  · refine ⟨?_, h.dispatched, h.discarded, h.started, nofun, ⟨hlt, h.bounded⟩, fun _ => nofun,
      h.spent⟩
    simp only [note, hlog, upTo, destroys_succ, List.append_assoc]
  · have hall : i = config.modules.length := by omega
    subst hall
    exact ⟨hlog, h.dispatched, h.discarded, h.started, nofun, h.bounded, fun _ => nofun, h.spent⟩

theorem progress_begin_on_stop {s : State π τ} (h : s.Closing config quiet before drained rest)
    {left : Nat} (hleft : left ≤ config.modules.length)
    (hlog : s.log = drain config.modules.length before drained ++ verdict rest ++
      on_stops config.modules.length left) :
    (s.begin_on_stop config left).Progress config quiet before drained rest := by
  cases left with
  | zero =>
      refine progress_begin_destroy h (Nat.zero_le _) ?_
      exact hlog.trans (List.append_nil _).symm
  | succ i =>
      refine ⟨?_, h.dispatched, h.discarded, h.started, nofun, ⟨hleft, h.bounded⟩,
        fun _ => nofun, h.spent⟩
      simp only [begin_on_stop, note, hlog, upTo, on_stops_of_lt hleft, List.append_assoc]

theorem Progress.closing {s : State π τ} (h : s.Progress config quiet before drained rest)
    (hp : s.pc.closing = true) : s.Closing config quiet before drained rest := by
  have hstarting : s.pc.starting = false := by
    cases hs : s.pc <;> rw [hs] at hp <;> first | rfl | exact nomatch hp
  exact ⟨h.dispatched, h.discarded, by rw [h.started, hstarting]; rfl, Pc.placed_le h.placed,
    h.spent⟩

-- Nothing is dispatched before all modules have started.
theorem Progress.opening {s : State π τ} (h : s.Progress config quiet before drained rest)
    (hb : s.Balanced) (hp : s.pc.starting = true) :
    s.dispatched = [] ∧ s.discarded = [] ∧ s.started_ = false := by
  have hclosing : s.pc.closing = false := by
    cases hs : s.pc <;> rw [hs] at hp <;> first | rfl | exact nomatch hp
  exact ⟨h.early hp, hb.discarded hclosing, by rw [h.started, hp]; rfl⟩

theorem progress_discard {s : State π τ} (h : s.Progress config quiet before drained rest)
    (hb : s.Balanced) (hp : s.pc = .discard) :
    (s.discard config).Progress config quiet before drained s.queue_ := by
  obtain ⟨hlog, hdispatched, hdiscarded, hstarted, _, hplaced, hwaits, _⟩ := h
  have hnone : s.discarded = [] := hb.discarded (by rw [hp]; rfl)
  rw [hp] at hlog hstarted hplaced
  unfold discard
  split
  · rename_i hq
    rw [hq]
    refine progress_begin_on_stop ⟨hdispatched, hnone, hstarted, hplaced, fun _ h => absurd rfl h⟩
      le_rfl ?_
    simp [hlog, upTo, verdict, on_stops]
  · rename_i post queue hq
    rw [hq]
    have hclosing : ({ s with queue_ := [], discarded := post :: queue }.note
        [.trace drainRecord, .discard (post :: queue)]).Closing config quiet before drained
        (post :: queue) :=
      ⟨hdispatched, rfl, hstarted, hplaced, fun hquiet _ => hwaits hquiet hp (by simp [hq])⟩
    refine progress_begin_on_stop hclosing le_rfl ?_
    simp [note, hlog, upTo, verdict, on_stops]

theorem progress_running {s t : State π τ} (h : s.Progress config quiet before drained rest)
    (hs : s.pc.running = true) (ht : t.pc.running = true) (hstage : t.toStage = s.toStage)
    (hdispatched : t.dispatched = s.dispatched) (hdiscarded : t.discarded = s.discarded) :
    t.Progress config quiet before drained rest := by
  have hstarting {pc : Pc} (hr : pc.running = true) : pc.starting = false := by
    cases pc <;> first | rfl | exact nomatch hr
  refine ⟨?_, hdispatched.trans h.dispatched, hdiscarded.trans h.discarded, ?_, ?_, ?_, ?_,
    h.spent⟩
  · rw [hstage, h.log, upTo_of_running hs, upTo_of_running ht]
  · rw [hstage, h.started, hstarting hs, hstarting ht]
  · exact fun hp => nomatch hp.symm.trans (hstarting ht)
  · exact (Pc.placed_of_running ht).mpr ((Pc.placed_of_running hs).mp h.placed)
  · intro _ hp
    rw [hp] at ht
    exact nomatch ht

-- An envelope that a loop other than the drain of `shutdown` dispatches.
theorem progress_dispatch {s : State π τ} (h : s.Progress config quiet before drained rest)
    {drain : Drain} (hp : s.pc = .take drain) (hrunning : (Pc.handle drain).running = true)
    {post : Post π τ} {queue : List (Post π τ)} {i : Nat} :
    ({ s with queue_ := queue, dispatched := s.dispatched ++ [post],
              log := s.log ++ [.dispatch post i], pc := .handle drain } :
      State π τ).Progress config quiet (before ++ [(post, i)]) drained rest := by
  have htaking : s.pc.running = true := by
    rw [hp]
    cases drain <;> first | rfl | exact nomatch hrunning
  have hnone := List.eq_nil_of_length_eq_zero ((Pc.placed_of_running htaking).mp h.placed)
  subst hnone
  obtain ⟨hlog, hdispatched, hdiscarded, hstarted, _, _, _, hspent⟩ := h
  rw [hp] at hstarted
  refine ⟨?_, ?_, hdiscarded, hstarted, nofun, (Pc.placed_of_running hrunning).mpr rfl,
    fun _ => nofun, hspent⟩
  · rw [upTo_of_running hrunning, dispatches_concat, ← List.append_assoc]
    rw [upTo_of_running htaking] at hlog
    exact congrArg (· ++ _) hlog
  · simp [hdispatched]

-- An envelope that the drain of `shutdown` dispatches.
theorem progress_drain {s : State π τ} (h : s.Progress config quiet before drained rest)
    {k : Nat} (hp : s.pc = .take (.shutdown k)) (hk : k < config.kDrainBudget)
    {post : Post π τ} {queue : List (Post π τ)} {i : Nat} :
    ({ s with queue_ := queue, dispatched := s.dispatched ++ [post],
              log := s.log ++ [.dispatch post i], pc := .handle (.shutdown k) } :
      State π τ).Progress config quiet before (drained ++ [(post, i)]) rest := by
  obtain ⟨hlog, hdispatched, hdiscarded, hstarted, _, hplaced, _, hspent⟩ := h
  rw [hp] at hlog hstarted hplaced
  refine ⟨?_, by simp [hdispatched], hdiscarded, hstarted, nofun, ⟨by simp [hplaced.1], hk⟩,
    fun _ => nofun, fun hquiet hrest => ?_⟩
  · simp [hlog, upTo, drain, dispatches_concat]
  · have := hspent hquiet hrest
    have := hplaced.1
    omega

theorem progress_take {s : State π τ} (h : s.Progress config quiet before drained rest)
    {drain : Drain} (hp : s.pc = .take drain) :
    ((s.take config drain).pc.faulted = true ∧ (s.take config drain).log = s.log) ∨
      ∃ before' drained', (s.take config drain).Progress config quiet before' drained' rest := by
  have hdrained (hstop : budgetSpent config drain = true ∨ s.queue_ = []) :
      (s.drained drain).Progress config quiet before drained rest := by
    cases drain with
    | user | first | last => exact progress_running h (by rw [hp]; rfl) rfl rfl rfl rfl
    | shutdown k =>
        obtain ⟨hlog, hdispatched, hdiscarded, hstarted, _, hplaced, _, hspent⟩ := h
        rw [hp] at hlog hstarted hplaced
        refine ⟨hlog, hdispatched, hdiscarded, hstarted, nofun, Pc.placed_le hplaced, ?_, hspent⟩
        intro _ _ hq
        have hk := of_decide_eq_true (hstop.resolve_right hq)
        have := hplaced.1
        have := hplaced.2
        omega
  unfold take
  split_ifs with hspent
  · exact Or.inr ⟨before, drained, hdrained (Or.inl hspent)⟩
  · split
    · exact Or.inr ⟨before, drained, hdrained (Or.inr ‹_›)⟩
    · simp only
      split
      · exact Or.inl ⟨rfl, rfl⟩
      · cases drain with
        | user | first | last => exact Or.inr ⟨_, _, progress_dispatch h hp rfl⟩
        | shutdown k =>
            have hk : k < config.kDrainBudget := by simpa [budgetSpent] using hspent
            exact Or.inr ⟨_, _, progress_drain h hp hk⟩

variable [DecidableEq τ]

-- The owning thread's next step fails, ends the lifecycle, or is progress.
theorem progress_loop {s t : State π τ} (h : s.Progress config quiet before drained rest)
    (hb : s.Balanced) (hs : s.loop config = some t) :
    (t.pc.faulted = true ∧ t.log = s.log) ∨ t = s.finish_shutdown ∨
      ∃ before' drained' rest', t.Progress config quiet before' drained' rest' := by
  have hmove {pc : Pc} (hfrom : s.pc.running = true) (hto : pc.running = true) :
      ∃ before' drained' rest',
        Progress config quiet { s with pc := pc } before' drained' rest' :=
    ⟨_, _, _, progress_running h hfrom hto rfl rfl rfl⟩
  have hplaced := h.placed
  have hlog := h.log
  cases loop_rule hs with
  | construct i hp =>
      rw [hp] at hplaced hlog
      obtain ⟨hdispatched, hdiscarded, hstarted⟩ := h.opening hb (by rw [hp]; rfl)
      exact Or.inr (Or.inr ⟨_, _, _, progress_begin_construct hplaced.1.le hlog hstarted
        hdispatched hdiscarded⟩)
  | on_start i hp =>
      rw [hp] at hplaced hlog
      obtain ⟨hdispatched, hdiscarded, hstarted⟩ := h.opening hb (by rw [hp]; rfl)
      exact Or.inr (Or.inr ⟨_, _, _, progress_begin_on_start hplaced.1 hlog hstarted
        hdispatched hdiscarded⟩)
  | wait_lock hp | no_timer hp | timer _ hp | reading _ hp | awake _ hp | park _ hp
  | timed_out _ hp | again _ hp | woken hp | fired hp | stopped hp | unstopped hp =>
      exact Or.inr (Or.inr (hmove (by rw [hp]; rfl) rfl))
  | returned hp =>
      exact Or.inr (Or.inr ⟨_, _, _, progress_running h (by rw [hp]; rfl) rfl rfl rfl rfl⟩)
  | fire hp =>
      obtain ⟨hl, hstage, hpc⟩ := fire_due_frame { s with pc := .firing } .loop
      cases hpc with
      | inl hpc =>
          exact Or.inr (Or.inr ⟨_, _, _, progress_running h (by rw [hp]; rfl) (by rw [hpc]; rfl)
            hstage (congrArg Ledger.dispatched hl) (congrArg Ledger.discarded hl)⟩)
      | inr hpc =>
          obtain ⟨reason, hpc⟩ := hpc
          exact Or.inl ⟨by rw [hpc]; rfl, congrArg Stage.log hstage⟩
  | take drain hp =>
      cases progress_take h hp with
      | inl hfault => exact Or.inl hfault
      | inr hnext =>
          obtain ⟨before', drained', hnext⟩ := hnext
          exact Or.inr (Or.inr ⟨before', drained', rest, hnext⟩)
  | handled drain hp =>
      cases drain with
      | user | first | last => exact Or.inr (Or.inr (hmove (by rw [hp]; rfl) rfl))
      | shutdown k =>
          obtain ⟨_, hdispatched, hdiscarded, hstarted, _, _, _, hspent⟩ := h
          rw [hp] at hplaced hlog hstarted
          exact Or.inr (Or.inr ⟨_, _, _, hlog, hdispatched, hdiscarded, hstarted,
            nofun, ⟨hplaced.1, hplaced.2⟩, fun _ => nofun, hspent⟩)
  | discard hp => exact Or.inr (Or.inr ⟨_, _, _, progress_discard h hb hp⟩)
  | on_stop i hp =>
      rw [hp] at hplaced hlog
      have hclosing := h.closing (by rw [hp]; rfl)
      exact Or.inr (Or.inr ⟨_, _, _, progress_begin_on_stop hclosing hplaced.1.le hlog⟩)
  | destroy i hp =>
      rw [hp] at hplaced hlog
      have hclosing := h.closing (by rw [hp]; rfl)
      exact Or.inr (Or.inr ⟨_, _, _, progress_begin_destroy hclosing hplaced.1 hlog⟩)
  | clear_timers hp =>
      rw [hp] at hplaced hlog
      have hclosing := h.closing (by rw [hp]; rfl)
      exact Or.inr (Or.inr ⟨_, _, _, hlog, hclosing.dispatched, hclosing.discarded,
        hclosing.started, nofun, hplaced, fun _ => nofun, hclosing.spent⟩)
  | clear_flags => exact Or.inr (Or.inl rfl)

end State

end Runtime

end CortexFlow
