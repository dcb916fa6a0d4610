import FuzzReach.Files.Discover

/-!
# Exclude patterns as a set of rules

Every exclude pattern that is neither blank nor a comment is a rule that ignores
what it matches.  Whether one of them is malformed, and what they ignore
together, depends on the set of patterns only.  Their number counts towards the
size that is allowed.
-/

namespace FuzzReach.Files

/-! ## Patterns with an effect -/

namespace Glob

def Refusal.fault : Refusal → Fault
  | .alone _ fault => fault
  | .joined fault => fault

end Glob

section Patterns

variable {fits : Glob.Capacity} {root : String} {patterns : List String}
  {rules : Rules}

end Patterns

section Subset

variable {fits : Glob.Capacity} {root : String} {first second : List String}

end Subset

end FuzzReach.Files
