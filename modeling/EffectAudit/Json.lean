import EffectAudit.Decimal
/-! JSON values and their two written forms. Objects keep their fields in order, repeats included. -/
namespace EffectAudit

inductive Json where
  | null
  | bool (value : Bool)
  | nat (value : Nat)
  | decimal (value : Decimal)
  | string (value : String)
  | array (items : List Json)
  | object (fields : List (String × Json))
  /-- Well formed as text, but denotes nothing: a string with an unpaired surrogate, or an object with
  such a key. -/
  | illFormed
  deriving Repr

namespace Json

def ofOption {α : Type} (f : α → Json) : Option α → Json
  | none => null
  | some value => f value

def ofList {α : Type} (f : α → Json) (items : List α) : Json := array (items.map f)

def strings (items : List String) : Json := ofList string items

def tagged (key : String) (content : Json) : Json := object [(key, content)]

mutual

def height : Json → Nat
  | array items => heightList items + 1
  | object fields => heightFields fields + 1
  | _ => 0

def heightList : List Json → Nat
  | [] => 0
  | item :: rest => max item.height (heightList rest)

def heightFields : List (String × Json) → Nat
  | [] => 0
  | (_, value) :: rest => max value.height (heightFields rest)

end

mutual

def sortKeys : Json → Json
  | array items => array (sortKeysList items)
  | object fields => object ((sortKeysFields fields).mergeSort fun a b => decide (a.1 ≤ b.1))
  | other => other

def sortKeysList : List Json → List Json
  | [] => []
  | item :: rest => item.sortKeys :: sortKeysList rest

def sortKeysFields : List (String × Json) → List (String × Json)
  | [] => []
  | (key, value) :: rest => (key, value.sortKeys) :: sortKeysFields rest

end

def hexByte (n : Nat) : List Char := [Nat.digitChar (n / 16), Nat.digitChar (n % 16)]

def escapeChar (c : Char) : List Char :=
  if c = '"' then ['\\', '"']
  else if c = '\\' then ['\\', '\\']
  else if c = '\n' then ['\\', 'n']
  else if c = '\r' then ['\\', 'r']
  else if c = '\t' then ['\\', 't']
  else if c.toNat = 8 then ['\\', 'b']
  else if c.toNat = 12 then ['\\', 'f']
  else if c.toNat < 32 then ['\\', 'u', '0', '0'] ++ hexByte c.toNat
  else [c]

def quote (s : String) : String :=
  String.ofList ('"' :: s.toList.flatMap escapeChar ++ ['"'])

def decimalText (d : Decimal) : String :=
  let sign := if d.negative then "-" else ""
  if d.exponent = 0 then s!"{sign}{d.digits}" else s!"{sign}{d.digits}e{d.exponent}"

mutual

def compact : Json → String
  | null => "null"
  | bool value => if value then "true" else "false"
  | nat value => toString value
  | decimal value => decimalText value
  | string value => quote value
  | array items => "[" ++ ",".intercalate (compactList items) ++ "]"
  | object fields => "\x7b" ++ ",".intercalate (compactFields fields) ++ "\x7d"
  | illFormed => "null"

def compactList : List Json → List String
  | [] => []
  | item :: rest => item.compact :: compactList rest

def compactFields : List (String × Json) → List String
  | [] => []
  | (key, value) :: rest => (quote key ++ ":" ++ value.compact) :: compactFields rest

end

def indentation (depth : Nat) : String := String.ofList (List.replicate (2 * depth) ' ')

def lines (opening closing : String) (depth : Nat) (parts : List String) : String :=
  if parts.isEmpty then opening ++ closing
  else
    let separator := ",\n" ++ indentation (depth + 1)
    opening ++ "\n" ++ indentation (depth + 1) ++ separator.intercalate parts ++ "\n" ++
      indentation depth ++ closing

mutual

def prettyAt (depth : Nat) : Json → String
  | null => "null"
  | bool value => if value then "true" else "false"
  | nat value => toString value
  | decimal value => decimalText value
  | string value => quote value
  | array items => lines "[" "]" depth (prettyList (depth + 1) items)
  | object fields => lines "\x7b" "\x7d" depth (prettyFields (depth + 1) fields)
  | illFormed => "null"

def prettyList (depth : Nat) : List Json → List String
  | [] => []
  | item :: rest => item.prettyAt depth :: prettyList depth rest

def prettyFields (depth : Nat) : List (String × Json) → List String
  | [] => []
  | (key, value) :: rest => (quote key ++ ": " ++ value.prettyAt depth) :: prettyFields depth rest

end

def pretty (json : Json) : String := json.prettyAt 0

end Json
end EffectAudit
