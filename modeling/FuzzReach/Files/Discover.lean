import FuzzReach.Files.Repository

/-!
# Finding source files

All source files below a root, except those that rules ignore.  Rules stand in
the files `.ignore` and `.gitignore` of the directories from the working
directory down, and in the repositories there; the files of the first kind win
over the second, these over the repositories, and within a kind the closer
directory wins.  Exclude patterns win over all of them.  An ignored directory is
not entered.
-/

namespace FuzzReach.Files

def implicitExcludes : List String := [".git", "target"]

def excludeLine? (pattern : String) : Option (List Char) :=
  let text := Text.trim pattern.toList
  if text.isEmpty || text.head? = some '#' then none
  else some ('!' :: Path.strip "./".toList text)

def readRules : List (List Char) → Except RuleError (List Rule)
  | [] => .ok []
  | line :: rest => do
      let rule ← Rule.ofLine? true line
      let rules ← readRules rest
      return rule.toList ++ rules

/-- Every matched path is ignored: an exclude is written as a rule that keeps,
and is turned around. -/
def turnAround (rule : Rule) : Rule :=
  { rule with keeps := !rule.keeps }

def excludeRules (fits : Glob.Capacity) (root : String)
    (patterns : List String) :
    Except RuleError Rules := do
  let implicit := implicitExcludes.map fun name => '!' :: name.toList ++ ['/']
  let rules ← readRules (implicit ++ patterns.filterMap excludeLine?)
  Rules.gather fits root (rules.map turnAround)

/-! ## The rules in force -/

structure Level where
  plain : Rules
  git : Rules
  repository : Rules

def Level.of (fits : Glob.Capacity) (tree : Entries) (base : String)
    (entries : Entries) : Level where
  plain := .ofEntry fits base entries ".ignore"
  git := .ofEntry fits base entries ".gitignore"
  repository := Repository.rules fits tree base entries

structure Scope where
  fits : Glob.Capacity
  tree : Entries
  excludes : Rules
  root : String
  /-- the root from the working directory on -/
  origin : String
  /-- the rules from this directory up to the root -/
  inner : List Level
  /-- the rules of the directories above the root, the closest first -/
  outer : List Level

namespace Scope

def path (scope : Scope) (names : List String) : String :=
  Path.below scope.root names

def enter (scope : Scope) (names : List String) (entries : Entries) : Scope :=
  { scope with
    inner := .of scope.fits scope.tree (scope.path names) entries ::
      scope.inner }

def absolute (scope : Scope) (path : String) : String :=
  let here := "./".toList
  let below :=
    if Path.isOnly "." scope.root then path.toList
    else
      match Text.afterStart?
        (Path.strip here scope.root.toList) path.toList with
      | some rest => Path.strip ['/'] rest
      | none => path.toList
  Path.join scope.origin (String.ofList below)

def verdictOf (scope : Scope) (kind : Level → Rules) (path : String)
    (isDirectory : Bool) :
    Verdict :=
  Verdict.first
    (scope.inner.map (fun level => (kind level).verdict path isDirectory) ++
      scope.outer.map fun level =>
        (kind level).verdict (scope.absolute path) isDirectory)

def verdict (scope : Scope) (path : String) (isDirectory : Bool) : Verdict :=
  let path := String.ofList (Path.strip "./".toList path.toList)
  Verdict.first
    [ scope.excludes.verdict path isDirectory,
      scope.verdictOf Level.plain path isDirectory,
      scope.verdictOf Level.git path isDirectory,
      scope.verdictOf Level.repository path isDirectory ]

def ignores (scope : Scope) (names : List String) (isDirectory : Bool) : Bool :=
  scope.verdict (scope.path names) isDirectory = .ignored

end Scope

/-! ## The search -/

def isSource (path : String) : Bool :=
  Path.hasExtension "rs" path

mutual

def sources (scope : Scope) (names : List String) : Entry → List (List String)
  | .file _ => if isSource (scope.path names) then [names] else []
  | .directory entries => sourcesIn (scope.enter names entries) names entries

def sourcesIn (scope : Scope) (names : List String) :
    List (String × Entry) → List (List String)
  | [] => []
  | (name, entry) :: rest =>
      let inner := names ++ [name]
      (if scope.ignores inner entry.isDirectory then []
        else sources scope inner entry) ++
        sourcesIn scope names rest

end

def origin : List String → String
  | [] => "/"
  | [name] => "/" ++ name
  | name :: rest => "/" ++ name ++ origin rest

/-- The source files below a root by their names, in increasing order.  The root
itself is not subject to any rule, and a root `-` stands for no directory. -/
def search (tree : Entries) (root : String) (excludes : List String)
    (fits : Glob.Capacity := Glob.unlimited) :
    Except RuleError (List (List String)) := do
  let excludes ← excludeRules fits root excludes
  if Path.isOnly "-" root then return []
  match tree.locate root with
  | .error _ => return []
  | .ok location =>
      let outer := location.above.map fun passed =>
        Level.of fits tree (origin passed.names) passed.entries
      let scope : Scope :=
        ⟨fits, tree, excludes, root, origin location.names, [], outer⟩
      return (sources scope [] location.entry).mergeSort Path.le

def discover (tree : Entries) (root : String) (excludes : List String)
    (fits : Glob.Capacity := Glob.unlimited) : Except RuleError (List String) :=
  (search tree root excludes fits).map fun found => found.map (Path.below root)

end FuzzReach.Files
