import FuzzReach.Alias
import FuzzReach.Function

/-!
# Functions of a source

Modules, implementations and traits are flattened into qualified names.  A
function that is declared in the body of another one is listed after it, and is
named after it.  Of macros, the definitions are listed and the invocation that
starts a fuzzing run.
-/

namespace FuzzReach.Extract

open Syntax Call

/-! ## Parts of a declaration -/

def describe (source : Source) (path name : String)
    (node : Node) : Function where
  name := name
  path := path
  startLine := node.startLine
  endLine := node.endLine
  start := node.span.start
  stop := node.span.stop
  signature := flattenSignature (node.text source.bytes)

def parameters (node : Node) : List Node :=
  match node.child? "parameters" with
  | none => []
  | some list =>
      list.namedChildren.filter fun parameter => parameter.kind = "parameter"

def argNames (source : Source) (node : Node) : List String :=
  (parameters node).filterMap fun parameter =>
    (parameter.child? "pattern").map (patternName source.bytes)

def argTypes (source : Source) (node : Node) : List String :=
  (parameters node).filterMap fun parameter =>
    parameter.fieldText? "type" source.bytes

def returnType (source : Source) (node : Node) : String :=
  match node.fieldText? "return_type" source.bytes with
  | some type => TypeText.base type
  | none => TypeText.void

def bodyItems (node : Node) : List Node :=
  match node.child? "body" with
  | none => []
  | some body => body.children

def isInner (item : Node) : Bool :=
  item.kind = "function_item"

def innerFunctions (node : Node) : List Node :=
  (bodyItems node).filter isInner

def statements (node : Node) : List Node :=
  (bodyItems node).filter fun item => !isInner item && isBodyStatement item.kind

def bodyEvents (source : Source) (node : Node) : List Event :=
  (statements node).flatMap (events source.bytes .zero)

def functionOf? (source : Source) (path : String) (scope : List String)
    (node : Node) :
    Option Function := do
  let name ← node.fieldText? "name" source.bytes
  let argNames := argNames source node
  let argTypes := argTypes source node
  some { describe source path (Name.qualify scope name) node with
    argNames
    argTypes
    returnType := returnType source node
    complexity := node.complexity
    instructions := node.instructions
    locals := .ofList (argNames.zip argTypes)
    events := bodyEvents source node }

/-! ## Macros -/

/-- Measure a macro by the fragment of its body group, which also gives the
events; by the macro's own node if there is none. -/
def withBody (source : Source) (node : Node) (group : Option Node)
    (function : Function) :
    Function :=
  let fragment := do
    let group ← group
    let bytes ← source.fragmentBytes? group
    let fragment ← source.fragment? group
    some (group, bytes, fragment.root)
  match fragment with
  | some (group, bytes, root) =>
      { function with
        complexity := root.complexity
        instructions := root.instructions
        events := events bytes ⟨group.span.firstRow, group.span.start⟩ root }
  | none =>
      { function with
        complexity := node.complexity, instructions := node.instructions }

def isGroup (node : Node) : Bool :=
  node.kind = "token_tree"

/-- The body of an entry macro: the last group in braces inside its arguments,
else the last argument as a whole. -/
def entryGroup? (source : Source) (node : Node) : Option Node :=
  let arguments := node.children.filter isGroup
  let inner := arguments.flatMap fun argument =>
    argument.children.filter fun group =>
      isGroup group && source.startsWithBrace group
  inner.getLast? <|> arguments.getLast?

def entryOf? (source : Source) (path : String)
    (node : Node) : Option Function :=
  if macroName? source.bytes node = some Name.entry then
    some (withBody source node (entryGroup? source node)
      { describe source path Name.entry node with
        isMacro := true, isEntry := true })
  else none

/-- The body of a macro definition: the right-hand side of its last rule that is
in braces. -/
def definitionGroup? (source : Source) (node : Node) : Option Node :=
  let rules := node.children.filter fun child => child.kind = "macro_rule"
  let bodies := rules.filterMap fun rule => rule.child? "right"
  (bodies.filter source.startsWithBrace).getLast?

def definitionOf? (source : Source) (path : String)
    (node : Node) : Option Function := do
  let nameNode ← node.child? "name" <|> node.childOfKind? "identifier"
  let name ← nonempty? (nameNode.text source.bytes)
  some (withBody source node (definitionGroup? source node)
    { describe source path name node with
      isMacro := true, isEntry := name = Name.entry })

/-! ## Scopes -/

def typeScope (source : Source) (scope : List String) (node : Node)
    (field : String) :
    List String :=
  match node.fieldText? field source.bytes with
  | some name => scope ++ [TypeText.base name]
  | none => scope

def moduleScope (source : Source) (scope : List String)
    (node : Node) : List String :=
  match node.fieldText? "name" source.bytes with
  | some name => scope ++ [name]
  | none => scope

/-! ## Items -/

def function (source : Source) (path : String) (scope : List String)
    (node : Node) :
    List Function :=
  match functionOf? source path scope node with
  | none => []
  | some declared =>
      declared :: (innerFunctions node).attach.flatMap fun ⟨inner, _hinner⟩ =>
        function source path [declared.name] inner
termination_by node.size
decreasing_by
  have hitem := (List.mem_filter.mp _hinner).1
  unfold bodyItems at hitem
  split at hitem
  · cases hitem
  · next body hbody =>
      have := Node.size_lt_of_child? hbody
      have := Node.size_lt_of_mem_children hitem
      omega

def implementation (source : Source) (path : String) (scope : List String)
    (node : Node) :
    List Function :=
  match _hbody : node.child? "body" with
  | none => []
  | some body =>
      let scope := typeScope source scope node "type"
      body.children.attach.flatMap fun ⟨item, _hitem⟩ =>
        match item.itemKind with
        | .function => function source path scope item
        | .implementation => implementation source path scope item
        | _ => []
termination_by node.size
decreasing_by
  have := Node.size_lt_of_child? _hbody
  have := Node.size_lt_of_mem_children _hitem
  omega

/-- The methods of a trait that have a body of their own. -/
def trait (source : Source) (path : String) (scope : List String)
    (node : Node) :
    List Function :=
  match node.child? "body" with
  | none => []
  | some body =>
      let scope := typeScope source scope node "name"
      body.children.flatMap fun item =>
        if item.itemKind = .function
          then function source path scope item else []

def container (source : Source) (path : String) (scope : List String)
    (node : Node) :
    List Function :=
  node.children.attach.flatMap fun ⟨item, _hitem⟩ =>
    match item.itemKind with
    | .function => function source path scope item
    | .implementation => implementation source path scope item
    | .module =>
        match _hbody : item.child? "body" with
        | none => []
        | some body =>
            container source path (moduleScope source scope item) body
    | .trait => trait source path scope item
    | .statement =>
        (item.children.filter fun child =>
          child.kind = "macro_invocation").filterMap (entryOf? source path)
    | .invocation => (entryOf? source path item).toList
    | .definition => (definitionOf? source path item).toList
    | .use => []
    | .other => []
termination_by node.size
decreasing_by
  have := Node.size_lt_of_child? _hbody
  have := Node.size_lt_of_mem_children _hitem
  omega

def functions (source : Source) (path : String) : List Function :=
  container source path [] source.root

/-! ## Aliases -/

def aliasPairs (source : Source) (node : Node) : List (String × String) :=
  node.children.attach.flatMap fun ⟨item, _hitem⟩ =>
    match item.itemKind with
    | .use =>
        match item.fieldText? "argument" source.bytes with
        | some argument => (Alias.ofUse argument).entries
        | none => []
    | .module =>
        match _hbody : item.child? "body" with
        | none => []
        | some body => aliasPairs source body
    | _ => []
termination_by node.size
decreasing_by
  have := Node.size_lt_of_child? _hbody
  have := Node.size_lt_of_mem_children _hitem
  omega

def aliases (source : Source) : Table String String :=
  .ofList (aliasPairs source source.root)

end FuzzReach.Extract
