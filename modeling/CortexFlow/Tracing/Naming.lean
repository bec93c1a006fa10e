import CortexFlow.Runtime.Rules
import CortexFlow.Tracing.Basic
import Mathlib.Data.Nat.Digits.Lemmas

namespace CortexFlow

namespace Tracing

-- `detail::fnv1a`; the names of types are ASCII.
def fnv1a (s : List Char) : type_id_t :=
  s.foldl (fun hash c => (hash ^^^ UInt64.ofNat c.toNat) * 1099511628211) 14695981039346656037

def type_id (name : String) : type_id_t := fnv1a name.toList

-- A module as `dispatch` sees it: its name, and those of the types in its two lists.
structure ModuleNames where
  kName : String
  Inbox : List String
  TraceTypes : List String
deriving DecidableEq

namespace ModuleNames

def kTypeId (mod : ModuleNames) : type_id_t := type_id mod.kName

-- `TraceNameTable`
def kEntries (mod : ModuleNames) : List (type_id_t × String) :=
  (mod.Inbox ++ mod.TraceTypes).map fun name => (type_id name, name)

def trace_payload_name (mod : ModuleNames) (id : type_id_t) : Option String :=
  (mod.kEntries.find? fun entry => entry.1 = id).map Prod.snd

end ModuleNames

-- `snprintf` into a buffer of `size` bytes.
def snprintf (size : Nat) (text : List Char) : String := String.ofList (text.take (size - 1))

-- `%llx`
def hex (id : type_id_t) : List Char :=
  if id = 0 then ['0'] else (Nat.digits 16 id.toNat).reverse.map Nat.digitChar

def unknown (id : type_id_t) : String := snprintf 40 ("unknown:".toList ++ hex id)

def untyped (id : type_id_t) : String := snprintf 48 ("type:".toList ++ hex id)

-- The loops over the tuple of modules.
def resolve_sender_name_one (modules : List ModuleNames) (id : type_id_t) : Option String :=
  modules.foldl (fun out mod => if out = none ∧ mod.kTypeId = id then some mod.kName else out) none

def resolve_target (modules : List ModuleNames) (to_id payload_id : type_id_t) :
    Option String × Option String :=
  modules.foldl (fun out mod =>
    if out.1 = none ∧ mod.kTypeId = to_id then (some mod.kName, mod.trace_payload_name payload_id)
    else out) (none, none)

def resolve_sender_name (modules : List ModuleNames) (id : type_id_t) : String :=
  if id = kNoSender then "-"
  else (resolve_sender_name_one modules id).getD (unknown id)

-- The record that `dispatch` emits.
def dispatch_record {π : Type*} (modules : List ModuleNames) (env : Envelope π) : TraceRecord :=
  let resolved := resolve_target modules env.to_ env.type_id_
  ⟨.Dispatch, "envelope", resolve_sender_name modules env.from_,
    resolved.1.getD (unknown env.to_), resolved.2.getD (untyped env.type_id_), ""⟩

-- The module that `dispatch_one` finds.
def addressed (modules : List ModuleNames) (id : type_id_t) : Option ModuleNames :=
  modules.find? fun mod => mod.kTypeId = id

-- The names of C++ types are none of the texts that `dispatch` makes up itself.
def IsName (name : String) : Prop :=
  name ≠ "-" ∧ (∀ id, name ≠ unknown id) ∧ ∀ id, name ≠ untyped id

structure Named (modules : List ModuleNames) : Prop where
  kName : ∀ mod ∈ modules, IsName mod.kName
  types : ∀ mod ∈ modules, ∀ name ∈ mod.Inbox ++ mod.TraceTypes, IsName name

section Hex

theorem toNat_ne_zero {id : type_id_t} (h : id ≠ 0) : id.toNat ≠ 0 := fun hz =>
  h (UInt64.toNat_inj.mp hz)

theorem hex_length (id : type_id_t) : (hex id).length ≤ 16 := by
  unfold hex
  split_ifs
  · decide
  · rw [List.length_map, List.length_reverse, Nat.digits_length_le_iff (by decide)]
    exact id.toNat_lt

theorem digitChar_inj {d e : Nat} (hd : d < 16) (he : e < 16)
    (h : Nat.digitChar d = Nat.digitChar e) : d = e := by
  have hall : ∀ d < 16, ∀ e < 16, Nat.digitChar d = Nat.digitChar e → d = e := by decide
  exact hall d hd e he h

theorem map_digitChar_inj {ds es : List Nat} (hd : ∀ d ∈ ds, d < 16) (he : ∀ e ∈ es, e < 16)
    (h : ds.map Nat.digitChar = es.map Nat.digitChar) : ds = es := by
  induction ds generalizing es with
  | nil => exact (List.map_eq_nil_iff.mp h.symm).symm
  | cons d ds ih =>
      cases es with
      | nil => cases h
      | cons e es =>
          obtain ⟨hhead, htail⟩ := List.cons.inj h
          have hsame := digitChar_inj (hd d List.mem_cons_self) (he e List.mem_cons_self) hhead
          have hrest := ih (fun x hx => hd x (List.mem_cons_of_mem _ hx))
            (fun x hx => he x (List.mem_cons_of_mem _ hx)) htail
          rw [hsame, hrest]

-- The digits of another number end in a digit that is not zero.
theorem digits_ne_zero {id : type_id_t} (h : id ≠ 0) :
    (Nat.digits 16 id.toNat).reverse.map Nat.digitChar ≠ ['0'] := by
  intro heq
  have hlt : ∀ d ∈ (Nat.digits 16 id.toNat).reverse, d < 16 := fun d hd =>
    Nat.digits_lt_base (by decide) (List.mem_reverse.mp hd)
  have hzero : (Nat.digits 16 id.toNat).reverse = [0] :=
    map_digitChar_inj hlt (by simp) (heq.trans (by rfl))
  have hdigits : Nat.digits 16 id.toNat = [0] := by
    rw [← List.reverse_reverse (Nat.digits 16 id.toNat), hzero]
    rfl
  have hlast := Nat.getLast_digit_ne_zero 16 (toNat_ne_zero h)
  simp only [hdigits] at hlast
  exact hlast rfl

theorem hex_injective : Function.Injective hex := by
  intro id id' h
  unfold hex at h
  split_ifs at h with hz hz' hz'
  · rw [hz, hz']
  · exact absurd h.symm (digits_ne_zero hz')
  · exact absurd h (digits_ne_zero hz)
  · have hlt (x : type_id_t) : ∀ d ∈ (Nat.digits 16 x.toNat).reverse, d < 16 := fun d hd =>
      Nat.digits_lt_base (by decide) (List.mem_reverse.mp hd)
    have hreverse := map_digitChar_inj (hlt id) (hlt id') h
    exact UInt64.toNat_inj.mp (Nat.digits_inj_iff.mp (List.reverse_injective hreverse))

-- The buffers are long enough for every id.
theorem unknown_eq (id : type_id_t) : unknown id = String.ofList ("unknown:".toList ++ hex id) := by
  have hlength := hex_length id
  unfold unknown snprintf
  rw [List.take_of_length_le]
  rw [List.length_append]
  have hhead : "unknown:".toList.length = 8 := rfl
  omega

theorem untyped_eq (id : type_id_t) : untyped id = String.ofList ("type:".toList ++ hex id) := by
  have hlength := hex_length id
  unfold untyped snprintf
  rw [List.take_of_length_le]
  rw [List.length_append]
  have hhead : "type:".toList.length = 5 := rfl
  omega

theorem unknown_injective : Function.Injective unknown := by
  intro id id' h
  rw [unknown_eq, unknown_eq] at h
  exact hex_injective (List.append_cancel_left (String.ofList_injective h))

theorem untyped_injective : Function.Injective untyped := by
  intro id id' h
  rw [untyped_eq, untyped_eq] at h
  exact hex_injective (List.append_cancel_left (String.ofList_injective h))

end Hex

section Resolve

variable {modules : List ModuleNames} {id : type_id_t} {mod : ModuleNames} {name : String}

theorem resolve_sender_found (modules : List ModuleNames) (id : type_id_t) (name : String) :
    modules.foldl (fun out mod => if out = none ∧ mod.kTypeId = id then some mod.kName else out)
      (some name) = some name := by
  induction modules with
  | nil => rfl
  | cons mod modules ih =>
      rw [List.foldl_cons, if_neg (by simp)]
      exact ih

theorem resolve_sender_name_one_eq (modules : List ModuleNames) (id : type_id_t) :
    resolve_sender_name_one modules id = (addressed modules id).map ModuleNames.kName := by
  unfold resolve_sender_name_one addressed
  induction modules with
  | nil => rfl
  | cons mod modules ih =>
      rw [List.foldl_cons]
      by_cases hid : mod.kTypeId = id
      · rw [if_pos ⟨rfl, hid⟩, List.find?_cons_of_pos (by simpa using hid)]
        exact resolve_sender_found modules id _
      · rw [if_neg (fun h => hid h.2), List.find?_cons_of_neg (by simpa using hid)]
        exact ih

theorem resolve_target_found (modules : List ModuleNames) (to_id payload_id : type_id_t)
    (name : String) (label : Option String) :
    modules.foldl (fun out mod =>
      if out.1 = none ∧ mod.kTypeId = to_id then
        (some mod.kName, mod.trace_payload_name payload_id)
      else out) (some name, label) = (some name, label) := by
  induction modules with
  | nil => rfl
  | cons mod modules ih =>
      rw [List.foldl_cons, if_neg (by simp)]
      exact ih

theorem resolve_target_eq (modules : List ModuleNames) (to_id payload_id : type_id_t) :
    resolve_target modules to_id payload_id =
      ((addressed modules to_id).map ModuleNames.kName,
        (addressed modules to_id).bind fun mod => mod.trace_payload_name payload_id) := by
  unfold resolve_target addressed
  induction modules with
  | nil => rfl
  | cons mod modules ih =>
      rw [List.foldl_cons]
      by_cases hid : mod.kTypeId = to_id
      · rw [if_pos ⟨rfl, hid⟩, List.find?_cons_of_pos (by simpa using hid)]
        exact resolve_target_found modules to_id payload_id _ _
      · rw [if_neg (fun h => hid h.2), List.find?_cons_of_neg (by simpa using hid)]
        exact ih

theorem addressed_spec (h : addressed modules id = some mod) :
    mod ∈ modules ∧ type_id mod.kName = id := by
  have hid := List.find?_some h
  exact ⟨List.mem_of_find?_eq_some h, of_decide_eq_true hid⟩

-- `dispatch_one` takes the first module with the id.
theorem addressed_findIdx {i : Nat}
    (h : ((modules.map ModuleNames.kTypeId).findIdx? fun other => other = id) = some i) :
    ∃ mod, modules[i]? = some mod ∧ addressed modules id = some mod := by
  obtain ⟨hi, hid, hfirst⟩ := List.findIdx?_eq_some_iff_getElem.mp h
  have hlength : i < modules.length := by simpa using hi
  refine ⟨modules[i], List.getElem?_eq_getElem hlength, ?_⟩
  refine List.find?_eq_some_iff_getElem.mpr ⟨?_, i, hlength, rfl, fun j hj => ?_⟩
  · simpa using hid
  · simpa using hfirst j hj

theorem trace_payload_name_spec (h : mod.trace_payload_name id = some name) :
    name ∈ mod.Inbox ++ mod.TraceTypes ∧ type_id name = id := by
  obtain ⟨⟨found, other⟩, hfind, rfl⟩ := Option.map_eq_some_iff.mp h
  obtain ⟨listed, hlisted, heq⟩ := List.mem_map.mp (List.mem_of_find?_eq_some hfind)
  obtain ⟨hid, rfl⟩ := Prod.mk.inj heq
  have hfound : found = id := by simpa using List.find?_some hfind
  exact ⟨hlisted, hid.trans hfound⟩

-- A text that is either a name that the id is the hash of, or made up of the id.
theorem text_injective {resolve : type_id_t → Option String} {made : type_id_t → String}
    (hresolve : ∀ id name, resolve id = some name → type_id name = id ∧ ∀ id, name ≠ made id)
    (hmade : Function.Injective made) :
    Function.Injective fun id => (resolve id).getD (made id) := by
  intro id id' h
  simp only at h
  cases hid : resolve id with
  | none =>
      cases hid' : resolve id' with
      | none =>
          rw [hid, hid'] at h
          exact hmade h
      | some name =>
          rw [hid, hid'] at h
          exact absurd h.symm ((hresolve id' name hid').2 id)
  | some name =>
      cases hid' : resolve id' with
      | none =>
          rw [hid, hid'] at h
          exact absurd h ((hresolve id name hid).2 id')
      | some name' =>
          rw [hid, hid'] at h
          obtain rfl : name = name' := h
          exact (hresolve id name hid).1.symm.trans (hresolve id' name hid').1

theorem target_injective (h : Named modules) :
    Function.Injective fun id =>
      ((addressed modules id).map ModuleNames.kName).getD (unknown id) := by
  refine text_injective (fun id name hname => ?_) unknown_injective
  obtain ⟨mod, hmod, rfl⟩ := Option.map_eq_some_iff.mp hname
  obtain ⟨hmem, hid⟩ := addressed_spec hmod
  exact ⟨hid, (h.kName mod hmem).2.1⟩

theorem label_injective (h : Named modules) (to_id : type_id_t) :
    Function.Injective fun id => ((addressed modules to_id).bind fun mod =>
      mod.trace_payload_name id).getD (untyped id) := by
  refine text_injective (fun id name hname => ?_) untyped_injective
  obtain ⟨mod, hmod, hlabel⟩ := Option.bind_eq_some_iff.mp hname
  obtain ⟨hlisted, hid⟩ := trace_payload_name_spec hlabel
  exact ⟨hid, (h.types mod (addressed_spec hmod).1 name hlisted).2.2⟩

theorem unknown_ne_dash (id : type_id_t) : unknown id ≠ "-" := by
  intro h
  rw [unknown_eq] at h
  have hhead := congrArg (fun text => text.toList.head?) h
  simp at hhead

theorem sender_injective (h : Named modules) :
    Function.Injective (resolve_sender_name modules) := by
  have hdash (id : type_id_t) :
      "-" ≠ ((addressed modules id).map ModuleNames.kName).getD (unknown id) := by
    cases hid : addressed modules id with
    | none => exact (unknown_ne_dash id).symm
    | some mod => exact (h.kName mod (addressed_spec hid).1).1.symm
  intro id id' heq
  unfold resolve_sender_name at heq
  rw [resolve_sender_name_one_eq, resolve_sender_name_one_eq] at heq
  split_ifs at heq with hid hid' hid'
  · rw [hid, hid']
  · exact absurd heq (hdash id')
  · exact absurd heq.symm (hdash id)
  · exact target_injective h heq

end Resolve

-- What `dispatch` resolves, in the form in which the records are traced.
def names (modules : List ModuleNames) : Names where
  sender := resolve_sender_name modules
  target id := (resolve_target modules id 0).1.getD (unknown id)
  type_name to_id id := (resolve_target modules to_id id).2.getD (untyped id)

theorem dispatchTrace_names {π : Type*} (modules : List ModuleNames) (env : Envelope π) :
    dispatchTrace (names modules) env = dispatch_record modules env := by
  simp only [dispatchTrace, dispatch_record, names, resolve_target_eq]

-- The records of two dispatches are the same if and only if the envelopes have the same
-- header: no two modules, types or foreign ids look alike in the log.
theorem records_tell_apart {π : Type*} {modules : List ModuleNames} (h : Named modules)
    (env env' : Envelope π) :
    dispatch_record modules env = dispatch_record modules env' ↔
      env.from_ = env'.from_ ∧ env.to_ = env'.to_ ∧ env.type_id_ = env'.type_id_ := by
  unfold dispatch_record
  simp only [resolve_target_eq]
  constructor
  · intro heq
    obtain ⟨-, -, hfrom, hto, htype, -⟩ := TraceRecord.mk.inj heq
    have hto := target_injective h hto
    rw [hto] at htype
    exact ⟨sender_injective h hfrom, hto, label_injective h env'.to_ htype⟩
  · rintro ⟨hfrom, hto, htype⟩
    rw [hfrom, hto, htype]

section Dispatch

variable {π τ : Type*} {modules : List ModuleNames} {config : Runtime.Config}
  {s t : Runtime.State π τ}

-- The record of a dispatch names the module at the index, and the type by its table.
def Tells (modules : List ModuleNames) : Runtime.LogEvent π τ → Prop
  | .dispatch post i => ∃ mod, modules[i]? = some mod ∧
      (dispatch_record modules post.env).target = mod.kName ∧
      (dispatch_record modules post.env).type_name =
        (mod.trace_payload_name post.env.type_id_).getD (untyped post.env.type_id_)
  | _ => True

def Truthful (modules : List ModuleNames) (s : Runtime.State π τ) : Prop :=
  ∀ event ∈ s.log, Tells modules event

theorem tells_dispatch {post : Runtime.Post π τ} {i : Nat}
    (h : ((modules.map ModuleNames.kTypeId).findIdx? fun id => id = post.env.to_) = some i) :
    Tells modules (.dispatch post i) := by
  obtain ⟨mod, hmod, haddressed⟩ := addressed_findIdx h
  refine ⟨mod, hmod, ?_, ?_⟩
  · simp only [dispatch_record, resolve_target_eq, haddressed]
    rfl
  · simp only [dispatch_record, resolve_target_eq, haddressed]
    rfl

theorem Truthful.of_log (h : Truthful modules s) (hlog : t.log = s.log) : Truthful modules t := by
  unfold Truthful
  rw [hlog]
  exact h

theorem Truthful.note (h : Truthful modules s) {events : List (Runtime.LogEvent π τ)}
    (hnew : ∀ event ∈ events, Tells modules event) : Truthful modules (s.note events) :=
  List.forall_mem_append.mpr ⟨h, hnew⟩

theorem Truthful.begin_on_start (h : Truthful modules s) (i : Nat) :
    Truthful modules (s.begin_on_start config i) := by
  unfold Runtime.State.begin_on_start
  split_ifs
  · exact h.note (List.forall_mem_singleton.mpr trivial)
  · exact h

theorem Truthful.begin_construct (h : Truthful modules s) (left : Nat) :
    Truthful modules (s.begin_construct config left) := by
  cases left with
  | zero =>
      have hmade : Truthful modules { s with modules_ := true } := h
      exact hmade.begin_on_start 0
  | succ i => exact h.note (List.forall_mem_singleton.mpr trivial)

theorem Truthful.begin_destroy (h : Truthful modules s) (i : Nat) :
    Truthful modules (s.begin_destroy config i) := by
  unfold Runtime.State.begin_destroy
  split_ifs
  · exact h.note (List.forall_mem_singleton.mpr trivial)
  · exact h

theorem Truthful.begin_on_stop (h : Truthful modules s) (left : Nat) :
    Truthful modules (s.begin_on_stop config left) := by
  cases left with
  | zero => exact h.begin_destroy 0
  | succ i => exact h.note (List.forall_mem_singleton.mpr trivial)

theorem Truthful.discard (h : Truthful modules s) : Truthful modules (s.discard config) := by
  unfold Runtime.State.discard
  split
  · exact h.begin_on_stop _
  · rename_i post queue hqueue
    have hdropped : Truthful modules
        { s with queue_ := [], discarded := post :: queue } := h
    refine (hdropped.note ?_).begin_on_stop _
    intro event hevent
    simp only [List.mem_cons, List.not_mem_nil, or_false] at hevent
    rcases hevent with rfl | rfl
    · trivial
    · trivial

theorem Truthful.drained (h : Truthful modules s) (drain : Runtime.Drain) :
    Truthful modules (s.drained drain) := by
  cases drain with
  | user => exact h
  | first => exact h
  | last => exact h
  | shutdown n => exact h

theorem Truthful.take (h : Truthful modules s)
    (hconfig : config.modules = modules.map ModuleNames.kTypeId) (drain : Runtime.Drain) :
    Truthful modules (s.take config drain) := by
  unfold Runtime.State.take
  split_ifs
  · exact h.drained drain
  · split
    · exact h.drained drain
    · rename_i post queue hqueue
      rw [hconfig]
      have htaken : Truthful modules
          { s with queue_ := queue, dispatched := s.dispatched ++ [post] } := h
      simp only
      split
      · exact htaken
      · rename_i i hi
        exact htaken.note (List.forall_mem_singleton.mpr (tells_dispatch hi))

theorem Truthful.enter (h : Truthful modules s) (pc : Runtime.Pc)
    {events : List (Runtime.LogEvent π τ)} (hnew : ∀ event ∈ events, Tells modules event)
    (reason : String) : Truthful modules (s.enter pc events reason) := by
  unfold Runtime.State.enter
  split_ifs
  · exact h.note hnew
  · exact h

theorem Truthful.start (h : Truthful modules s) : Truthful modules (s.start config) := by
  unfold Runtime.State.start
  split_ifs
  · exact h
  · have hempty : Truthful modules { s with
        cache_ := true, timers_ := s.timers_.bind_post, log := [] } :=
      fun event hevent => absurd hevent List.not_mem_nil
    exact hempty.begin_construct _

variable [DecidableEq τ]

theorem Truthful.loop (h : Truthful modules s)
    (hconfig : config.modules = modules.map ModuleNames.kTypeId)
    (hs : s.loop config = some t) : Truthful modules t := by
  cases Runtime.State.loop_rule hs with
  | construct i hp => exact h.begin_construct i
  | on_start i hp => exact h.begin_on_start (i + 1)
  | fire hp =>
      have hstage := (Runtime.State.fire_due_frame { s with pc := .firing } .loop).2.1
      exact h.of_log (congrArg Runtime.Stage.log hstage)
  | take drain hp => exact h.take hconfig drain
  | discard hp => exact h.discard
  | on_stop i hp => exact h.begin_on_stop i
  | destroy i hp => exact h.begin_destroy (i + 1)
  | wait_lock hp | no_timer hp | timer _ hp | reading _ hp | awake _ hp | park _ hp
  | timed_out _ hp | again _ hp | returned hp | woken hp | fired hp | stopped hp
  | unstopped hp | handled _ hp | clear_timers hp | clear_flags hp => exact h

theorem truthful_step (hconfig : config.modules = modules.map ModuleNames.kTypeId)
    {event : Runtime.Event π τ} (h : Truthful modules s)
    (hs : s.step config event = some t) : Truthful modules t := by
  cases (Runtime.State.step_rule hs).2 with
  | tick now hle => exact h
  | call caller op hcall =>
      exact h.of_log (congrArg Runtime.Stage.log (Runtime.State.begin_op_frame s caller op).2.1)
  | post_dropped caller env rest =>
      exact h.of_log (congrArg Runtime.Stage.log (Runtime.State.stage_post_next s caller rest))
  | post_tested caller env rest => exact h
  | post_refused caller env rest =>
      exact h.of_log (congrArg Runtime.Stage.log (Runtime.State.stage_post_next s caller rest))
  | post_pushed caller env rest => exact h
  | post_notified caller rest =>
      exact h.of_log
        (congrArg Runtime.Stage.log (Runtime.State.stage_post_next s.notify caller rest))
  | stop_set caller => exact h
  | stop_notified caller => exact h
  | start htop => exact h.start
  | run htop => exact h.enter _ (fun event hevent => absurd hevent List.not_mem_nil) _
  | run_one htop => exact h.enter _ (fun event hevent => absurd hevent List.not_mem_nil) _
  | shutdown htop =>
      have hshutdown : ∀ event ∈ ([.shutdown] : List (Runtime.LogEvent π τ)),
          Tells modules event := List.forall_mem_singleton.mpr trivial
      exact h.enter _ hshutdown _
  | loop t hout hloop => exact h.loop hconfig hloop
  | wake wait notified hp => exact h
  | timeout next reading notified hp => exact h

-- In every run, the record of a dispatch names the module whose `handle` is called then.
theorem log_names_handler (hconfig : config.modules = modules.map ModuleNames.kTypeId)
    (hr : (Runtime.State.machine π τ config).Reachable s) {post : Runtime.Post π τ} {i : Nat}
    (h : .dispatch post i ∈ s.log) :
    ∃ mod, modules[i]? = some mod ∧ (dispatch_record modules post.env).target = mod.kName ∧
      (dispatch_record modules post.env).type_name =
        (mod.trace_payload_name post.env.type_id_).getD (untyped post.env.type_id_) := by
  have htruthful : Truthful modules s :=
    hr.invariant (fun event hevent => absurd hevent List.not_mem_nil)
      fun _ _ _ hsound hs => truthful_step hconfig hsound hs
  exact htruthful _ h

end Dispatch

section Example

def pair : List ModuleNames :=
  [⟨"minimal_app::Producer", ["minimal_app::Producer::Bump", "minimal_app::Producer::Done"], []⟩,
    ⟨"minimal_app::Consumer", [], ["minimal_app::Consumer::ProcessingTick"]⟩]

theorem ne_of_head {name : String} (h : name.toList.head? = some 'm') {made : List Char}
    (hne : made.head? ≠ some 'm') : name ≠ String.ofList made := by
  rintro rfl
  rw [String.toList_ofList] at h
  exact hne h

theorem isName_of_head {name : String} (h : name.toList.head? = some 'm') : IsName name := by
  refine ⟨fun hdash => ?_, fun id => ?_, fun id => ?_⟩
  · rw [hdash] at h
    exact absurd h (by decide)
  · rw [unknown_eq]
    exact ne_of_head h (by simp)
  · rw [untyped_eq]
    exact ne_of_head h (by simp)

theorem named_pair : Named pair where
  kName := by
    intro mod hmod
    simp only [pair, List.mem_cons, List.not_mem_nil, or_false] at hmod
    rcases hmod with rfl | rfl
    · exact isName_of_head (by decide)
    · exact isName_of_head (by decide)
  types := by
    intro mod hmod name hname
    simp only [pair, List.mem_cons, List.not_mem_nil, or_false] at hmod
    rcases hmod with rfl | rfl
    · simp only [List.append_nil, List.mem_cons, List.not_mem_nil, or_false] at hname
      rcases hname with rfl | rfl
      · exact isName_of_head (by decide)
      · exact isName_of_head (by decide)
    · simp only [List.nil_append, List.mem_cons, List.not_mem_nil, or_false] at hname
      subst hname
      exact isName_of_head (by decide)

def bumped (from_ : type_id_t) : Envelope Unit :=
  ⟨from_, type_id "minimal_app::Producer", type_id "minimal_app::Producer::Bump", ()⟩

-- Two senders that are no modules.
theorem records_tell_apart_pair :
    dispatch_record pair (bumped 10) =
        ⟨.Dispatch, "envelope", "unknown:a", "minimal_app::Producer",
          "minimal_app::Producer::Bump", ""⟩ ∧
      dispatch_record pair (bumped 10) ≠ dispatch_record pair (bumped 11) := by
  refine ⟨by decide +kernel, fun h => ?_⟩
  exact absurd ((records_tell_apart named_pair _ _).mp h).1 (by decide)

def pair_config : Runtime.Config := ⟨pair.map ModuleNames.kTypeId, 10⟩

-- A foreign thread posts a `Bump`, which is dispatched.
def bumpRun : List (Runtime.Event Unit Nat) :=
  .start :: List.replicate 4 .loop ++ .call (.foreign 0) (.post (bumped kNoSender)) ::
    List.replicate 3 (.advance (.foreign 0)) ++ [.run_one, .loop]

def calls_producer : Runtime.LogEvent Unit Nat → Bool
  | .dispatch _ i => i == 0
  | _ => false

theorem log_names_handler_bumpRun :
    ∃ s post, (Runtime.State.machine Unit Nat pair_config).Reachable s ∧
      .dispatch post 0 ∈ s.log ∧
      (dispatch_record pair post.env).target = "minimal_app::Producer" := by
  have hrun : ((Runtime.State.machine Unit Nat pair_config).run
      (Runtime.State.machine Unit Nat pair_config).init bumpRun).any
        (fun s => s.log.any calls_producer) = true := by
    decide +kernel
  obtain ⟨s, hs, hany⟩ := (Option.any_eq_true _ _).mp hrun
  obtain ⟨event, hevent, hcalls⟩ := List.any_eq_true.mp hany
  unfold calls_producer at hcalls
  split at hcalls
  · rename_i post i
    obtain rfl := eq_of_beq hcalls
    have hconfig : pair_config.modules = pair.map ModuleNames.kTypeId := rfl
    obtain ⟨mod, hmod, htarget, -⟩ := log_names_handler hconfig ⟨bumpRun, hs⟩ hevent
    obtain rfl := Option.some.inj hmod
    exact ⟨s, post, ⟨bumpRun, hs⟩, hevent, htarget⟩
  · cases hcalls

end Example

end Tracing

end CortexFlow
