import FuzzReach.Function

/-!
# Types of local variables

The tracker knows the types of variables as texts and finds the return types of
functions by name.  It follows a body from top to bottom, without branches.
-/

namespace FuzzReach.Call

structure Tracker where
  lookup : String → Option Function
  aliases : Table String String
  /-- what `self` is in the body -/
  owner : String
  locals : Table String String

namespace Tracker

def start (lookup : String → Option Function) (aliases : Table String String)
    (name : String) (locals : Table String String) : Tracker :=
  ⟨lookup, aliases, Name.owner name, locals⟩

def returnType? (tracker : Tracker) (name : String) : Option String :=
  (tracker.lookup name).bind fun function => nonempty? function.returnType

def memberName (type : Option String) (name : String) : String :=
  match type.bind nonempty? with
  | some type => TypeText.member type name
  | none => name

def memberType? (tracker : Tracker) (type : Option String)
    (name : String) : Option String :=
  (type.bind nonempty?).bind fun type =>
    tracker.returnType? (TypeText.member type name)

mutual

def callType? (tracker : Tracker) : Callee → Option String
  | .path name => tracker.returnType? name
  | .field receiver name =>
      tracker.memberType? (receiverType? tracker receiver) name
  | .generic _ => none

def receiverType? (tracker : Tracker) : Receiver → Option String
  | .call callee => callType? tracker callee
  | .untypedCall => none
  | .path name => tracker.returnType? name <|> tracker.locals.get? name
  | .self => some tracker.owner
  | .literal => some TypeText.literal
  | .unknown => none

end

def fieldName (tracker : Tracker) (receiver : Receiver)
    (name : String) : String :=
  memberName (tracker.receiverType? receiver) name

def bindingType? (tracker : Tracker) : Binding → Option String
  | .path name =>
      some ((tracker.locals.get? name <|> tracker.aliases.get? name).getD name)
  | .cast type => some type
  | .call callee => tracker.callType? callee

def bind (tracker : Tracker) (name type : String) : Tracker :=
  { tracker with locals := tracker.locals.insert name type }

def learn (tracker : Tracker) (name : String) (value : Binding) : Tracker :=
  match (tracker.bindingType? value).bind nonempty? with
  | some type => tracker.bind name type
  | none => tracker

def isClosure (tracker : Tracker) (name : String) : Bool :=
  (tracker.locals.get? name).any TypeText.isClosure

/-- The name that a call calls.  The call of a local closure calls no
function. -/
def target? (tracker : Tracker) : Callee → Option String
  | .path name => if tracker.isClosure name then none else nonempty? name
  | .field receiver name => nonempty? (tracker.fieldName receiver name)
  | .generic name => nonempty? name

def invoked? (tracker : Tracker) (name : String) : Option String :=
  (tracker.lookup name).bind fun function =>
    if function.isMacro then some function.name else none

end Tracker

end FuzzReach.Call
