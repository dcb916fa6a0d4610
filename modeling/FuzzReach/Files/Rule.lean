import FuzzReach.Files.Directory
import FuzzReach.Files.Glob.Expression
import FuzzReach.Files.Glob.Match

/-!
# Ignore rules

A rule says of the paths that its glob matches whether they are ignored or kept.
Rules come from lines of text and are read relative to the directory they stand
in.  Of several rules that match, the last one counts.
-/

namespace FuzzReach.Files

structure Rule where
  glob : List Token
  /-- whether matching paths are kept instead of ignored -/
  keeps : Bool
  onlyDirectories : Bool

inductive RuleError where
  | malformed (line : String) (cause : GlobError)
  | refused (cause : Glob.Refusal)
  deriving DecidableEq, Repr

def RuleError.message : RuleError → String
  | .malformed line cause =>
    "error parsing glob '" ++ line ++ "': " ++ cause.message
  | .refused cause => cause.message

namespace Rule

/-! ## Reading a line -/

/-- The line without blanks at its end; one that is escaped keeps all of
them. -/
def trimLine (line : List Char) : List Char :=
  if ['\\', ' '].isSuffixOf line then line else Text.trimEnd line

structure Marks where
  glob : List Char
  keeps : Bool
  anchored : Bool
  onlyDirectories : Bool

/-- Take the marks off the front of a line: `!` for a rule that keeps, `/` for
one that is tied to its directory, a backslash for a line that starts with `!`
or `#` itself. -/
def front (line : List Char) : Marks :=
  match line with
  | '\\' :: '!' :: rest => ⟨'!' :: rest, false, false, false⟩
  | '\\' :: '#' :: rest => ⟨'#' :: rest, false, false, false⟩
  | '!' :: '/' :: rest => ⟨rest, true, true, false⟩
  | '!' :: rest => ⟨rest, true, false, false⟩
  | '/' :: rest => ⟨rest, false, true, false⟩
  | _ => ⟨line, false, false, false⟩

def back (marks : Marks) : Marks :=
  if marks.glob.getLast? = some '/' then
    { marks with
      glob := Text.dropEnd '\\' marks.glob.dropLast, onlyDirectories := true }
  else marks

/-- The glob to match against the whole path: one without a slash may match in
any directory, and one that ends with `/**` leaves out the directory itself. -/
def widen (marks : Marks) : List Char :=
  let anyStart := "**/".toList
  let glob :=
    if !marks.anchored && !marks.glob.contains '/' && marks.glob ≠
      ['*', '*'] then
      anyStart ++ marks.glob
    else marks.glob
  if "/**".toList.isSuffixOf glob then glob ++ "/*".toList else glob

def ofLine? (strict : Bool) (line : List Char) :
    Except RuleError (Option Rule) :=
  if line.head? = some '#' then .ok none
  else
    let line := trimLine line
    if line.isEmpty then .ok none
    else
      let marks := back (front line)
      match Glob.read strict (widen marks) with
      | .ok glob => .ok (some ⟨glob, marks.keeps, marks.onlyDirectories⟩)
      | .error cause => .error (.malformed (String.ofList line) cause)

/-! ## Matching -/

def isMatch (rule : Rule) (path : List UInt8) (isDirectory : Bool) : Bool :=
  (!rule.onlyDirectories || isDirectory) && Glob.isMatch rule.glob path

end Rule

inductive Verdict where
  | silent
  | ignored
  | kept
  deriving DecidableEq, Repr

def Verdict.first : List Verdict → Verdict
  | [] => .silent
  | .silent :: rest => first rest
  | verdict :: _ => verdict

structure Rules where
  base : String
  rules : List Rule

namespace Rules

def relative (base path : String) : List Char :=
  let here := "./".toList
  let path := Path.strip here path.toList
  let base := String.ofList (Path.strip here base.toList)
  if Path.isOnly "." base || !path.contains '/' then path
  else
    match Text.afterStart? base.toList path with
    | some rest => Path.strip ['/'] rest
    | none => path

def verdict (rules : Rules) (path : String) (isDirectory : Bool) : Verdict :=
  let bytes := (relative rules.base path).flatMap String.utf8EncodeChar
  match rules.rules.reverse.find? fun rule =>
    rule.isMatch bytes isDirectory with
  | none => .silent
  | some rule => if rule.keeps then .kept else .ignored

/-! ## Rule files -/

def readable : List (List UInt8) → List (List Char)
  | [] => []
  | [last] =>
      match Text.Utf8.decode? last with
      | some line => if line = "" then [] else [line.toList]
      | none => []
  | piece :: rest =>
      match Text.Utf8.decode? piece with
      | some line => Text.dropEnd '\r' line.toList :: readable rest
      | none => []

def splitLines : List UInt8 → List (List UInt8)
  | [] => [[]]
  | byte :: rest =>
      if byte = 0x0A then [] :: splitLines rest
      else
        match splitLines rest with
        | [] => [[byte]]
        | piece :: pieces => (byte :: piece) :: pieces

def dropMarks : List (List Char) → List (List Char)
  | [] => []
  | line :: rest => line.dropWhile (· = '\uFEFF') :: rest

def gather (fits : Glob.Capacity) (base : String) (rules : List Rule) :
    Except RuleError Rules :=
  match Glob.refusal? fits (rules.map Rule.glob) with
  | some cause => .error (.refused cause)
  | none => .ok ⟨base, rules⟩

/-- The rules of a file.  Lines that are no rules are passed over; if rules are
refused, the file has none. -/
def ofBytes (fits : Glob.Capacity) (base : String) (bytes : List UInt8) :
    Rules :=
  let rules := (dropMarks (readable (splitLines bytes))).filterMap fun line =>
    match Rule.ofLine? false line with
    | .ok rule => rule
    | .error _ => none
  match gather fits base rules with
  | .ok rules => rules
  | .error _ => ⟨base, []⟩

def ofEntry (fits : Glob.Capacity) (base : String) (entries : Entries)
    (path : String) : Rules :=
  match entries.read path with
  | .ok content => ofBytes fits base content.bytes.toList
  | .error _ => ⟨base, []⟩

end Rules

end FuzzReach.Files
