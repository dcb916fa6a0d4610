import FuzzReach.Name
import FuzzReach.Text.Blank
import FuzzReach.Text.Word

/-!
# Types as they are written

Types are followed as texts: a declared return type without its generic
arguments, the annotation of a parameter, the target of a cast.
-/

namespace FuzzReach.TypeText

/-- The type of a function that declares none. -/
def void : String := "void"

def literal : String := "&str"

def base (type : String) : String :=
  String.ofList (Text.trim (Text.before ['<'] type.toList))

/-- The name of a member of a type; a member of `void` keeps its own name. -/
def member (type name : String) : String :=
  if type = void then name else type ++ "::" ++ name

def opensWith (word text : List Char) : Bool :=
  match Text.afterStart? word text with
  | some rest => Text.wordEndsBefore rest
  | none => false

def opensUnsafe (text : List Char) : Bool :=
  match Text.afterStart? "unsafe".toList text with
  | some rest =>
      rest.head?.any Text.isBlank && opensWith "fn".toList (Text.trimStart rest)
  | none => false

/-- Whether a type is written as a closure or a function pointer: `impl ..`,
`fn ..` or `unsafe fn ..`. -/
def isClosure (type : String) : Bool :=
  let text := Text.trimStart type.toList
  opensWith "impl".toList text || opensWith "fn".toList text || opensUnsafe text

end FuzzReach.TypeText
