import FuzzReach.Files.Rule
import FuzzReach.Settings.Count
import FuzzReach.Text.Quoted

/-!
# Errors

What can go wrong on the way to an analysed project.  Nothing inside the
analysis is an error.
-/

namespace FuzzReach

inductive Error where
  | unparsed (path : String)
  | setting (name value : String) (cause : Settings.CountError)
  | unreadable (cause : Files.ReadError)
  | pattern (cause : Files.RuleError)
  deriving DecidableEq, Repr

def Error.message : Error → String
  | .unparsed path => "Parse error: Failed to parse " ++ path
  | .setting name value cause =>
      "Config error: " ++ name ++ "=" ++ Text.quoted value ++ ": " ++
        cause.message
  | .unreadable cause => "IO error: " ++ cause.message
  | .pattern cause => "Exclude pattern error: " ++ cause.message

end FuzzReach
