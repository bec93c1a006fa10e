import CortexFlow.ButtonPipeline.Modules

namespace CortexFlow

namespace ButtonPipeline

inductive Gesture
  | Click
  | LongPress
  | DoubleClick
deriving DecidableEq

-- What the messages say that are on their way through the pipeline.
inductive Signal
  | expired (place : Place)
  | edge (value : Bool)
  | gesture (made : Gesture)
deriving DecidableEq

def Signal.isExpired : Signal → Bool
  | .expired _ => true
  | _ => false

def Signal.edge? : Signal → Option Bool
  | .edge value => some value
  | _ => none

def Signal.gesture? : Signal → Option Gesture
  | .gesture made => some made
  | _ => none

def edges (signals : List Signal) : List Bool := signals.filterMap Signal.edge?

def gestures (signals : List Signal) : List Gesture := signals.filterMap Signal.gesture?

def Place.delay : Place → Int
  | .timer => kDebounceWindow
  | .sub => 0
  | .long_press_timer => kLongPressThreshold
  | .double_click_timer => kDoubleClickWindow

-- A timer that was armed at `since` may go off.
def Place.Lapsed (place : Place) (since now : Int) : Prop :=
  since + place.delay ≤ now ∨ 2 ^ 63 ≤ now + place.delay

def Gesture.presses : Gesture → Nat
  | .DoubleClick => 2
  | _ => 1

-- The presses that the gestures stand for.
def accounted (signals : List Signal) : Nat := ((gestures signals).map Gesture.presses).sum

namespace ClickClassifier

def State.next : State → Signal → Option State
  | .Idle, .edge true => some .Pressed
  | .Pressed, .edge false => some .AwaitingSecondClick
  | .Pressed, .expired .long_press_timer => some .Idle
  | .AwaitingSecondClick, .expired .double_click_timer => some .Idle
  | .AwaitingSecondClick, .edge true => some .SecondPressed
  | .SecondPressed, .edge false => some .Idle
  | _, _ => none

def State.sends : State → Signal → List Gesture
  | _, .expired .double_click_timer => [.Click]
  | _, .expired .long_press_timer => [.LongPress]
  | .SecondPressed, .edge false => [.DoubleClick]
  | _, _ => []

-- The presses that have not become part of a gesture yet.
def State.owed : State → Nat
  | .Idle => 0
  | .Pressed | .AwaitingSecondClick => 1
  | .SecondPressed => 2

-- The last edge that has been heard of in this state.
def State.level : State → Option Bool
  | .Idle => none
  | .Pressed | .SecondPressed => some true
  | .AwaitingSecondClick => some false

-- What the classifier can be told of in the state.
def State.Expects (tag : State) : Signal → Prop
  | .edge value => tag.level ≠ some value
  | .expired place => tag.place = some place
  | .gesture _ => False

variable {tag : State} {signal : Signal}

theorem State.Expects.expired {place : Place} (h : tag.Expects (.expired place)) :
    tag.next (.expired place) = some .Idle := by
  cases tag <;> cases place <;> first | rfl | exact nomatch h

-- No press gets lost between the gestures and the state.
theorem State.Expects.owed (h : tag.Expects signal) :
    ((tag.sends signal).map Gesture.presses).sum + ((tag.next signal).getD tag).owed =
      tag.owed + (edges [signal]).count true := by
  cases signal with
  | edge value => cases value <;> cases tag <;> first | rfl | exact absurd rfl h
  | expired place => cases tag <;> cases place <;> first | rfl | exact nomatch h
  | gesture made => exact h.elim

theorem State.Expects.level (h : tag.Expects signal) {value : Bool}
    (hv : ((tag.next signal).getD tag).level = some value) :
    signal = .edge value ∨ (edges [signal] = [] ∧ tag.level = some value) := by
  cases signal with
  | edge other =>
      cases other <;> cases tag <;> cases value <;>
        first | exact Or.inl rfl | exact nomatch hv
  | expired place =>
      rw [h.expired] at hv
      exact nomatch hv
  | gesture made => exact h.elim

end ClickClassifier

def UiController.State.next : State → Gesture → State
  | .Idle, .Click => .Active
  | .Idle, .LongPress | .Active, .LongPress => .Configuring
  | .Active, .Click | .Configuring, .LongPress => .Idle
  | tag, _ => tag

@[simp] theorem edges_append (front back : List Signal) :
    edges (front ++ back) = edges front ++ edges back :=
  List.filterMap_append

@[simp] theorem gestures_append (front back : List Signal) :
    gestures (front ++ back) = gestures front ++ gestures back :=
  List.filterMap_append

@[simp] theorem accounted_append (front back : List Signal) :
    accounted (front ++ back) = accounted front + accounted back := by
  simp [accounted]

@[simp] theorem edges_nil : edges [] = [] := rfl

@[simp] theorem edges_edge (value : Bool) : edges [.edge value] = [value] := rfl

@[simp] theorem accounted_nil : accounted [] = 0 := rfl

@[simp] theorem accounted_edge (value : Bool) : accounted [.edge value] = 0 := rfl

@[simp] theorem edges_gestures (made : List Gesture) : edges (made.map .gesture) = [] := by
  simp [edges, Signal.edge?]

@[simp] theorem edges_expired (places : List Place) : edges (places.map .expired) = [] := by
  simp [edges, Signal.edge?]

@[simp] theorem accounted_gestures (made : List Gesture) :
    accounted (made.map .gesture) = (made.map Gesture.presses).sum := by
  simp [accounted, gestures, List.filterMap_map, Function.comp_def, Signal.gesture?]

@[simp] theorem accounted_expired (places : List Place) : accounted (places.map .expired) = 0 := by
  simp [accounted, gestures, List.filterMap_map, Function.comp_def, Signal.gesture?]

theorem accounted_sublist {front back : List Signal} (h : front.Sublist back) :
    accounted front ≤ accounted back :=
  ((h.filterMap _).map _).sum_le_sum fun _ _ => Nat.zero_le _

end ButtonPipeline

end CortexFlow
