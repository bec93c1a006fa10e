import CortexFlow.Diagrams.Hidden

namespace CortexFlow

namespace Diagrams

open Lib

section TemplateBody

variable {d b u v : Text} {r : Regex}

end TemplateBody

variable (isalnum : Char → Bool)

section Parts

variable {d b u v : Text}

end Parts

end Diagrams

end CortexFlow
