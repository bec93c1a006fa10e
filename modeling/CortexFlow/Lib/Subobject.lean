import Mathlib

namespace CortexFlow.Lib

-- The subobjects of an object of class type: it has none, or is one element, or is
-- an object of a class that derives from the classes of two others, in that order.
inductive Subobject (α : Type*)
  | empty
  | element (value : α)
  | derived (first second : Subobject α)

namespace Subobject

variable {α : Type*}

-- Base classes are constructed in the order they are listed in, and destructed the
-- other way round.
def constructors : Subobject α → List α
  | .empty => []
  | .element value => [value]
  | .derived first second => first.constructors ++ second.constructors

def destructors : Subobject α → List α
  | .empty => []
  | .element value => [value]
  | .derived first second => second.destructors ++ first.destructors

theorem destructors_eq (object : Subobject α) :
    object.destructors = object.constructors.reverse := by
  induction object with
  | empty => rfl
  | element value => rfl
  | derived first second ihf ihs =>
      simp only [destructors, constructors, List.reverse_append, ihf, ihs]

end Subobject

end CortexFlow.Lib
