import CortexFlow.App.FlowModule

namespace CortexFlow

namespace MinimalApp

open App CortexFlow.Flow

def kProducer : type_id_t := 1

def kConsumer : type_id_t := 2

def kProcessingDelay : Int := 10 * 1000000

inductive Key
  | Counter
deriving DecidableEq

abbrev Key.value_type : Key → Type
  | .Counter => Int32

def Keys : Cache.Keys Key Key.value_type where
  type_id _ := 3
  changed_type_id _ := 4
  type_name _ := "minimal_app::Counter"
  owner_name _ := "minimal_app::Producer"
  eq
    | .Counter => fun current value : Int32 => current == value

-- All messages but the notifications of the cache. `Bump` and `Done` are those of
-- `Producer`, `ProcessingTick` is that of `Consumer`.
inductive Message
  | FlowInit
  | Bump
  | Done
  | ProcessingTick
deriving DecidableEq

def Message.type_id : Message → type_id_t
  | .FlowInit => 5
  | .Bump => 6
  | .Done => 7
  | .ProcessingTick => 8

def message (from_ to_ : type_id_t) (payload : Message) : Envelope Message :=
  ⟨from_, to_, payload.type_id, payload⟩

abbrev Carried := CortexFlow.Payload Key.value_type Message

-- The handles in the Locals of `Idle` and of `Processing`.
inductive Place
  | sub
  | timer
deriving DecidableEq

abbrev Asked := List (Act Key.value_type Message Place)

namespace Consumer

inductive State
  | Idle
  | Processing
deriving DecidableEq

def State.name : State → String
  | .Idle => "minimal_app::Idle"
  | .Processing => "minimal_app::Processing"

def tick : Owner.LocalTimer Message :=
  ⟨kProcessingDelay, message kNoSender kConsumer .ProcessingTick, "minimal_app::Consumer",
    "minimal_app::Consumer::ProcessingTick"⟩

def State.construct : State → Asked
  | .Idle => [.subscribe .sub .Counter kConsumer]
  | .Processing => [.arm .timer tick]

def State.destruct : State → Asked
  | .Idle => [.release .sub]
  | .Processing => [.cancel .timer]

def State.handle (tag : State) (env : Envelope Carried) : Option State :=
  match tag, env.payload_ with
  | .Idle, .key_changed _ ⟨.Counter, _⟩ => some .Processing
  | .Processing, .other .ProcessingTick => some .Idle
  | _, _ => none

-- `Consumer::handle` sends `Done` before it steps the flow.
def intercept (env : Envelope Carried) : Asked :=
  match env.payload_ with
  | .other .ProcessingTick => [.send (message kConsumer kProducer .Done)]
  | _ => []

def flow : FlowModule Key.value_type Message Place State where
  flow := ⟨.Idle, "minimal_app::Consumer", State.name,
    (message kSystemSender kConsumer .FlowInit).map .other⟩
  construct := State.construct
  destruct := State.destruct
  handle _ tag env := (intercept env, tag.handle env)

end Consumer

-- An `int` has 32 bits here. C++ leaves it open what one more than the largest is; the
-- model goes on with the smallest, as two's complement does.
structure Objects where
  counter_ : Int32
  acks_ : Int32
  consumer : FlowRun Key.value_type Message Consumer.State

namespace Objects

def fresh : Objects := ⟨0, 0, .init Consumer.flow.flow⟩

def on_consumer (m : Objects) :
    Outcome (FlowRun Key.value_type Message Consumer.State) Asked → Outcome Objects Asked
  | .ok run acts => .ok { m with consumer := run } acts
  | .fault run reason => .fault { m with consumer := run } reason

end Objects

namespace Producer

def bump : Envelope Message := message kProducer kProducer .Bump

def on_start (m : Objects) : Outcome Objects Asked := .ok m [.send bump]

-- The two overloads of `on`, by the type of the message in the inbox.
def handle (env : Envelope Carried) (m : Objects) : Outcome Objects Asked :=
  match env.payload_ with
  | .other .Bump =>
      .ok { m with counter_ := m.counter_ + 1 } [.set .Counter (m.counter_ + 1 : Int32)]
  | .other .Done => .ok { m with acks_ := m.acks_ + 1 } [.send bump]
  | _ => .fault m "message type not in module inbox"

end Producer

-- Nothing is posted from outside the modules.
def program : Program Key.value_type Message Place Objects where
  keys := Keys
  config := ⟨[kProducer, kConsumer], 2 ^ 64 - 1⟩
  fresh := .fresh
  on_start
    | 0, _, m => Producer.on_start m
    | 1, slots, m => m.on_consumer (Consumer.flow.start slots m.consumer)
    | _, _, m => .ok m []
  handle
    | 0, env, _, m => Producer.handle env m
    | 1, env, slots, m => m.on_consumer (Consumer.flow.step slots m.consumer env)
    | _, _, _, m => .fault m "message type not in module inbox"
  destroy
    | 1, m => Consumer.flow.destroy m.consumer
    | _, _ => []
  input _ := false

-- `MaxSubscriptions<4>`
def kMaxSubscriptions : Nat := 4

end MinimalApp

end CortexFlow
