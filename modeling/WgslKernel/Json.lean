/-!
# JSON

JSON values as data, and their indented text: two spaces per level, one member or element per
line, and empty lists and objects closed at once.
-/

namespace WgslKernel

/-- JSON values, with natural numbers only. -/
inductive Json where
  | null
  | bool (value : Bool)
  | nat (value : Nat)
  | str (value : String)
  | arr (items : List Json)
  | obj (members : List (String × Json))
  deriving Repr

namespace Json

/-! ## Strings -/

/-- A character inside a string: quotes, backslashes and control characters are escaped. -/
def escape (c : Char) : List Char :=
  if c = '"' then ['\\', '"']
  else if c = '\\' then ['\\', '\\']
  else if c = '\x08' then ['\\', 'b']
  else if c = '\x0c' then ['\\', 'f']
  else if c = '\n' then ['\\', 'n']
  else if c = '\r' then ['\\', 'r']
  else if c = '\t' then ['\\', 't']
  else if c.toNat < 32 then
    ['\\', 'u', '0', '0', Nat.digitChar (c.toNat / 16), Nat.digitChar (c.toNat % 16)]
  else [c]

/-- A text as a JSON string. -/
def quote (s : String) : String :=
  "\"" ++ String.ofList (s.toList.flatMap escape) ++ "\""

/-! ## Indented text -/

/-- A line end followed by the indentation of a level. -/
def newline (level : Nat) : String := "\n" ++ String.ofList (List.replicate (2 * level) ' ')

mutual

/-- The value as text, when it begins at a level of indentation. -/
def textAt (level : Nat) : Json → String
  | null => "null"
  | bool b => if b then "true" else "false"
  | nat n => toString n
  | str s => quote s
  | arr [] => "[]"
  | arr (item :: items) =>
    "[" ++ newline (level + 1) ++ textAt (level + 1) item ++ itemsAt (level + 1) items ++
      newline level ++ "]"
  | obj [] => "\x7b\x7d"
  | obj ((key, value) :: members) =>
    "\x7b" ++ newline (level + 1) ++ quote key ++ ": " ++ textAt (level + 1) value ++
      membersAt (level + 1) members ++ newline level ++ "\x7d"

/-- The elements of a list after its first. -/
def itemsAt (level : Nat) : List Json → String
  | [] => ""
  | item :: items => "," ++ newline level ++ textAt level item ++ itemsAt level items

/-- The members of an object after its first. -/
def membersAt (level : Nat) : List (String × Json) → String
  | [] => ""
  | (key, value) :: members =>
    "," ++ newline level ++ quote key ++ ": " ++ textAt level value ++ membersAt level members

end

/-- The value as indented text. -/
def pretty (j : Json) : String := j.textAt 0

end Json

end WgslKernel
