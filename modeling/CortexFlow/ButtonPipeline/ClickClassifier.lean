import CortexFlow.Owner.Basic

namespace CortexFlow

namespace ButtonPipeline

-- Stand for the hashes of the type names; only that they differ matters.
def kClickClassifier : type_id_t := 1

def kUiController : type_id_t := 2

-- Milliseconds, in ticks of the clock.
def kLongPressThreshold : Int := 500 * 1000000

def kDoubleClickWindow : Int := 300 * 1000000

inductive Payload
  | FlowInit
  | KeyChanged (new_value : Bool)
  | LongPressExpired
  | DoubleClickExpired
  -- The messages of `UiController`.
  | Click
  | LongPress
  | DoubleClick
deriving DecidableEq

def Payload.type_id : Payload → type_id_t
  | .FlowInit => 3
  | .KeyChanged _ => 4
  | .LongPressExpired => 5
  | .DoubleClickExpired => 6
  | .Click => 7
  | .LongPress => 8
  | .DoubleClick => 9

def make_message (from_ to_ : type_id_t) (payload : Payload) : Envelope Payload :=
  ⟨from_, to_, payload.type_id, payload⟩

namespace ClickClassifier

open CortexFlow.Flow

inductive State
  | Idle
  | Pressed
  | AwaitingSecondClick
  | SecondPressed
deriving DecidableEq

def State.name : State → String
  | .Idle => "button_pipeline::ClickClassifier::Idle"
  | .Pressed => "button_pipeline::ClickClassifier::Pressed"
  | .AwaitingSecondClick => "button_pipeline::ClickClassifier::AwaitingSecondClick"
  | .SecondPressed => "button_pipeline::ClickClassifier::SecondPressed"

def State.handle (tag : State) (env : Envelope Payload) : StateDirective State :=
  match tag, env.payload_ with
  | .Idle, .KeyChanged true => transition_to .Pressed
  | .Pressed, .KeyChanged false => transition_to .AwaitingSecondClick
  | .Pressed, .LongPressExpired => transition_to .Idle
  | .AwaitingSecondClick, .DoubleClickExpired => transition_to .Idle
  | .AwaitingSecondClick, .KeyChanged true => transition_to .SecondPressed
  | .SecondPressed, .KeyChanged false => transition_to .Idle
  | _, _ => stay

-- `timers().arm<ClickClassifier>(delay, payload)`.
def armed (delay : Int) (payload : Payload) (type_name : String) : Owner.LocalTimer Payload :=
  ⟨delay, make_message kNoSender kClickClassifier payload, "button_pipeline::ClickClassifier",
    type_name⟩

def State.locals : State → List (Owner.LocalTimer Payload)
  | .Pressed =>
      [armed kLongPressThreshold .LongPressExpired
        "button_pipeline::ClickClassifier::LongPressExpired"]
  | .AwaitingSecondClick =>
      [armed kDoubleClickWindow .DoubleClickExpired
        "button_pipeline::ClickClassifier::DoubleClickExpired"]
  | _ => []

-- What the module sends before it calls `flow.step`.
def handle (current : State) (env : Envelope Payload) : List (Envelope Payload) :=
  match env.payload_ with
  | .DoubleClickExpired => [make_message kClickClassifier kUiController .Click]
  | .LongPressExpired => [make_message kClickClassifier kUiController .LongPress]
  | .KeyChanged new_value =>
      if current = .SecondPressed ∧ new_value = false then
        [make_message kClickClassifier kUiController .DoubleClick]
      else []
  | _ => []

def params : Owner.Params State Payload where
  flow := ⟨.Idle, "button_pipeline::ClickClassifier", State.name,
    make_message kSystemSender kClickClassifier .FlowInit⟩
  locals := State.locals

end ClickClassifier

end ButtonPipeline

end CortexFlow
