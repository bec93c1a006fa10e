import CortexFlow.App.FlowModule
import CortexFlow.ButtonPipeline.ClickClassifier

namespace CortexFlow

namespace ButtonPipeline

open App CortexFlow.Flow

def kButtonReader : type_id_t := 10

def kDebouncer : type_id_t := 11

def kDebounceWindow : Int := 5 * 1000000

-- The cache keys.
inductive Key
  | DebouncedButtonState
  | UiMode_Key
deriving DecidableEq

inductive UiMode
  | Idle
  | Active
  | Configuring
deriving DecidableEq

abbrev Key.value_type : Key → Type
  | .DebouncedButtonState => Bool
  | .UiMode_Key => UiMode

def Keys : Cache.Keys Key Key.value_type where
  type_id
    | .DebouncedButtonState => 12
    | .UiMode_Key => 13
  changed_type_id
    | .DebouncedButtonState => (Payload.KeyChanged false).type_id
    | .UiMode_Key => 14
  type_name
    | .DebouncedButtonState => "button_pipeline::DebouncedButtonState"
    | .UiMode_Key => "button_pipeline::UiMode_Key"
  owner_name
    | .DebouncedButtonState => "button_pipeline::Debouncer"
    | .UiMode_Key => "button_pipeline::UiController"
  eq
    | .DebouncedButtonState => fun current value : Bool => current == value
    | .UiMode_Key => fun current value : UiMode => current = value

-- All messages but the notifications of the cache. `RawTransition` and
-- `DebounceExpired` are those of `Debouncer`.
inductive Message
  | RawTransition (pressed : Bool)
  | DebounceExpired
  | of (payload : Payload)
deriving DecidableEq

def Message.type_id : Message → type_id_t
  | .RawTransition _ => 15
  | .DebounceExpired => 16
  | .of payload => payload.type_id

def message (from_ to_ : type_id_t) (payload : Message) : Envelope Message :=
  ⟨from_, to_, payload.type_id, payload⟩

abbrev Carried := CortexFlow.Payload Key.value_type Message

-- The handles in the Locals of the states. `timer` is that of `CoolingDown`, and
-- every state of `ClickClassifier` has a `sub`.
inductive Place
  | timer
  | sub
  | long_press_timer
  | double_click_timer
deriving DecidableEq

namespace Debouncer

inductive State
  | Settled
  | CoolingDown
deriving DecidableEq

def State.name : State → String
  | .Settled => "button_pipeline::Settled"
  | .CoolingDown => "button_pipeline::CoolingDown"

def expiry : Owner.LocalTimer Message :=
  ⟨kDebounceWindow, message kNoSender kDebouncer .DebounceExpired, "button_pipeline::Debouncer",
    "button_pipeline::Debouncer::DebounceExpired"⟩

def State.handle (slots : Slots Key.value_type) (tag : State) (env : Envelope Carried) :
    List (Act Key.value_type Message Place) × Option State :=
  match tag, env.payload_ with
  | .Settled, .other (.RawTransition pressed) =>
      let current : Bool := (slots .DebouncedButtonState).getD false
      if pressed ≠ current then ([.set .DebouncedButtonState pressed], some .CoolingDown)
      else ([], none)
  | .CoolingDown, .other .DebounceExpired => ([], some .Settled)
  | _, _ => ([], none)

def flow : FlowModule Key.value_type Message Place State where
  flow := ⟨.Settled, "button_pipeline::Debouncer", State.name,
    (message kSystemSender kDebouncer (.of .FlowInit)).map .other⟩
  construct
    | .Settled => []
    | .CoolingDown => [.arm .timer expiry]
  destruct
    | .Settled => []
    | .CoolingDown => [.cancel .timer]
  handle := State.handle

end Debouncer

namespace ClickClassifier

-- The timer in the Locals of the state.
def State.place : State → Option Place
  | .Pressed => some .long_press_timer
  | .AwaitingSecondClick => some .double_click_timer
  | _ => none

def carried (timer : Owner.LocalTimer Payload) : Owner.LocalTimer Message :=
  ⟨timer.delay, timer.env.map .of, timer.owner_name, timer.type_name⟩

def State.construct (tag : State) : List (Act Key.value_type Message Place) :=
  .subscribe .sub .DebouncedButtonState kClickClassifier ::
    tag.place.elim [] fun place => tag.locals.map fun timer => .arm place (carried timer)

-- The members go in the reverse of the order in which they were constructed.
def State.destruct (tag : State) : List (Act Key.value_type Message Place) :=
  tag.place.elim [] (fun place => [.cancel place]) ++ [.release .sub]

-- What the code of the module tells apart of the messages.
def received : Carried → Option Payload
  | .key_changed _ ⟨.DebouncedButtonState, change⟩ => some (.KeyChanged change.new_value)
  | .other (.of payload) => some payload
  | _ => none

-- `handle` of the module, and of the state that it calls.
def answer (tag : State) (env : Envelope Carried) :
    List (Act Key.value_type Message Place) × Option State :=
  match received env.payload_ with
  | none => ([], none)
  | some payload =>
      let env : Envelope Payload := ⟨env.from_, env.to_, env.type_id_, payload⟩
      ((handle tag env).map fun sent => .send (sent.map .of), (tag.handle env).next)

def flow : FlowModule Key.value_type Message Place State where
  flow := ⟨.Idle, "button_pipeline::ClickClassifier", State.name,
    (message kSystemSender kClickClassifier (.of .FlowInit)).map .other⟩
  construct := State.construct
  destruct := State.destruct
  handle _ := answer

end ClickClassifier

namespace UiController

inductive State
  | Idle
  | Active
  | Configuring
deriving DecidableEq

def State.name : State → String
  | .Idle => "button_pipeline::UiController::Idle"
  | .Active => "button_pipeline::UiController::Active"
  | .Configuring => "button_pipeline::UiController::Configuring"

def State.mode : State → UiMode
  | .Idle => .Idle
  | .Active => .Active
  | .Configuring => .Configuring

def State.handle (tag : State) (env : Envelope Carried) : Option State :=
  match tag, env.payload_ with
  | .Idle, .other (.of .Click) => some .Active
  | .Idle, .other (.of .LongPress) => some .Configuring
  | .Active, .other (.of .Click) => some .Idle
  | .Active, .other (.of .LongPress) => some .Configuring
  | .Configuring, .other (.of .LongPress) => some .Idle
  | _, _ => none

def flow : FlowModule Key.value_type Message Place State where
  flow := ⟨.Idle, "button_pipeline::UiController", State.name,
    (message kSystemSender kUiController (.of .FlowInit)).map .other⟩
  construct tag := [.set .UiMode_Key tag.mode]
  destruct _ := []
  handle _ tag env := ([], tag.handle env)

end UiController

-- The flows of the three modules that have one.
structure Objects where
  debouncer : FlowRun Key.value_type Message Debouncer.State
  classifier : FlowRun Key.value_type Message ClickClassifier.State
  ui : FlowRun Key.value_type Message UiController.State

abbrev Asked := List (Act Key.value_type Message Place)

namespace Objects

def fresh : Objects :=
  ⟨.init Debouncer.flow.flow, .init ClickClassifier.flow.flow, .init UiController.flow.flow⟩

def on_debouncer (m : Objects) :
    Outcome (FlowRun Key.value_type Message Debouncer.State) Asked → Outcome Objects Asked
  | .ok run acts => .ok { m with debouncer := run } acts
  | .fault run reason => .fault { m with debouncer := run } reason

def on_classifier (m : Objects) :
    Outcome (FlowRun Key.value_type Message ClickClassifier.State) Asked → Outcome Objects Asked
  | .ok run acts => .ok { m with classifier := run } acts
  | .fault run reason => .fault { m with classifier := run } reason

def on_ui (m : Objects) :
    Outcome (FlowRun Key.value_type Message UiController.State) Asked → Outcome Objects Asked
  | .ok run acts => .ok { m with ui := run } acts
  | .fault run reason => .fault { m with ui := run } reason

end Objects

-- What `main` and the tests post.
def input (env : Envelope Message) : Bool :=
  match env.payload_ with
  | .RawTransition pressed => env = message env.from_ kDebouncer (.RawTransition pressed)
  | _ => false

-- `ButtonReader` does nothing when started, and has no messages in its inbox.
def program : Program Key.value_type Message Place Objects where
  keys := Keys
  config := ⟨[kButtonReader, kDebouncer, kClickClassifier, kUiController], 2 ^ 64 - 1⟩
  fresh := .fresh
  on_start
    | 1, slots, m => m.on_debouncer (Debouncer.flow.start slots m.debouncer)
    | 2, slots, m => m.on_classifier (ClickClassifier.flow.start slots m.classifier)
    | 3, slots, m => m.on_ui (UiController.flow.start slots m.ui)
    | _, _, m => .ok m []
  handle
    | 1, env, slots, m => m.on_debouncer (Debouncer.flow.step slots m.debouncer env)
    | 2, env, slots, m => m.on_classifier (ClickClassifier.flow.step slots m.classifier env)
    | 3, env, slots, m => m.on_ui (UiController.flow.step slots m.ui env)
    | _, _, _, m => .fault m "message type not in module inbox"
  destroy
    | 1, m => Debouncer.flow.destroy m.debouncer
    | 2, m => ClickClassifier.flow.destroy m.classifier
    | 3, m => UiController.flow.destroy m.ui
    | _, _ => []
  input := input

-- `MaxSubscriptions<8>`
def kMaxSubscriptions : Nat := 8

end ButtonPipeline

end CortexFlow
