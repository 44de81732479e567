import EffectAudit.Name.Map
/-! A directory held in memory: texts by their path. A directory exists where some path leads through
it. -/
namespace EffectAudit

structure Store where
  files : NameMap String := ∅
  deriving DecidableEq, Repr

namespace Store

def namesDirectory (path : String) : Bool :=
  match (path.splitOn "/").getLast? with
  | some last => last == "" || last == "." || last == ".."
  | none => true

def join (parts : List String) : String := "/".intercalate parts

def hasDirectory (s : Store) (parts : List String) : Bool :=
  parts.isEmpty || s.files.keys.any (·.startsWith (join parts ++ "/"))

/-- Follows the parts of a path from a directory, whose own path is given innermost part first. Every
step starts in a directory that exists, and none leads out of the store. -/
def follow? (s : Store) (inside : List String) : List String → Option (List String)
  | [] => some inside
  | part :: rest =>
    if !s.hasDirectory inside.reverse then none
    else if part == ".." then
      match inside with
      | [] => none
      | _ :: outside => s.follow? outside rest
    else s.follow? (part :: inside) rest

def parts? (s : Store) (path : String) : Option (List String) :=
  if path.startsWith "/" then none
  else
    let parts := (path.splitOn "/").filter fun part => part != "" && part != "."
    (s.follow? [] parts).map List.reverse

def fileKey? (s : Store) (path : String) : Option String := do
  let parts ← s.parts? path
  if namesDirectory path || s.hasDirectory parts then none else return join parts

def read? (s : Store) (path : String) : Option String :=
  (s.fileKey? path).bind s.files.get?

def write? (s : Store) (path text : String) : Option Store :=
  (s.fileKey? path).map fun key => ⟨s.files.insert key text⟩

def newSince (s old : Store) : List (String × String) :=
  s.files.entries.filter fun (key, _) => !old.files.contains key

end Store
end EffectAudit
