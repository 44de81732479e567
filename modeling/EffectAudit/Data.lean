import EffectAudit.Json
/-! Data that has left its document behind. Numbers keep no more than a reader can ask for, and keys
may be of any form. -/
namespace EffectAudit

inductive Data where
  | null
  | bool (value : Bool)
  | nat (value : Nat)
  | signed (value : Int)
  | real
  | text (value : String)
  | list (items : List Data)
  | mapping (entries : List (Data × Data))
  deriving Repr

namespace Data

mutual

def height : Data → Nat
  | list items => heightList items + 1
  | mapping entries => heightEntries entries + 1
  | _ => 0

def heightList : List Data → Nat
  | [] => 0
  | item :: rest => max item.height (heightList rest)

def heightEntries : List (Data × Data) → Nat
  | [] => 0
  | (key, value) :: rest => max (max key.height value.height) (heightEntries rest)

end

def name? (names : List String) : Data → Option (Option String)
  | text value => some (some value)
  | nat index => some names[index]?
  | _ => none

def isText (expected : String) : Data → Bool
  | text value => value == expected
  | _ => false

def untag? (key : String) : Data → Option (Data × Data)
  | mapping entries =>
    match entries.filter (·.1.isText key) with
    | [(_, tag)] => some (tag, mapping (entries.filter (!·.1.isText key)))
    | _ => none
  | list (tag :: rest) => some (tag, list rest)
  | _ => none

end Data

namespace Json

mutual

def toData? : Json → Option Data
  | null => some .null
  | bool value => some (.bool value)
  | nat value => some (.nat value)
  | decimal value => if value.scalesToFinite then some .real else none
  | string value => some (.text value)
  | array items => (itemsData? items).map .list
  | object fields => (fieldsData? fields).map .mapping
  | illFormed => none

def itemsData? : List Json → Option (List Data)
  | [] => some []
  | item :: rest => do return (← item.toData?) :: (← itemsData? rest)

def fieldsData? : List (String × Json) → Option (List (Data × Data))
  | [] => some []
  | (key, value) :: rest => do return (.text key, ← value.toData?) :: (← fieldsData? rest)

end

end Json
end EffectAudit
