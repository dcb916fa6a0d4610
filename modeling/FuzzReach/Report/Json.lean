/-!
# JSON texts

The values that a report is made of, and their text with two spaces for each
level.
-/

namespace FuzzReach

inductive Json where
  | text (value : String)
  | number (value : Nat)
  | list (items : List Json)
  | object (fields : List (String × Json))

namespace Json

/-! ## Strings -/

def escapeControl (character : Char) : List Char :=
  let code := character.toNat
  "\\u00".toList ++ [Nat.digitChar (code / 16), Nat.digitChar (code % 16)]

def escape (character : Char) : List Char :=
  match character with
  | '"' => ['\\', '"']
  | '\\' => ['\\', '\\']
  | '\x08' => ['\\', 'b']
  | '\x0c' => ['\\', 'f']
  | '\n' => ['\\', 'n']
  | '\r' => ['\\', 'r']
  | '\t' => ['\\', 't']
  | _ => if character.toNat < 0x20 then escapeControl character else [character]

def renderText (value : String) : String :=
  String.ofList ('"' :: value.toList.flatMap escape ++ ['"'])

/-! ## Values -/

def indent : Nat → String
  | 0 => ""
  | level + 1 => "  " ++ indent level

mutual

def render (level : Nat) : Json → String
  | .text value => renderText value
  | .number value => toString value
  | .list [] => "[]"
  | .list (item :: items) =>
      "[\n" ++ indent (level + 1) ++ render (level + 1) item ++
        renderItems (level + 1) items ++
        "\n" ++ indent level ++ "]"
  | .object [] => "\x7b\x7d"
  | .object ((name, value) :: fields) =>
      "\x7b\n" ++ indent (level + 1) ++ renderText name ++ ": " ++
        render (level + 1) value ++
        renderFields (level + 1) fields ++ "\n" ++ indent level ++ "\x7d"

def renderItems (level : Nat) : List Json → String
  | [] => ""
  | item :: items =>
      ",\n" ++ indent level ++ render level item ++ renderItems level items

def renderFields (level : Nat) : List (String × Json) → String
  | [] => ""
  | (name, value) :: fields =>
      ",\n" ++ indent level ++ renderText name ++ ": " ++ render level value ++
        renderFields level fields

end

end Json

end FuzzReach
