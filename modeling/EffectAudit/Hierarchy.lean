import EffectAudit.Name.Set
import EffectAudit.Name.Map
import EffectAudit.Error
/-! The kinds of one category form a hierarchy below a root. A kind is covered by itself, by every
kind reached from it by parent steps, and by the root; a kind that nobody declared has no parent
entry and so hangs directly off the root. -/
namespace EffectAudit

structure KindDecl where
  name : Kind
  parent : Option Kind := none
  tracked : Bool := true
  deriving DecidableEq, Repr

namespace Hierarchy

structure Options where
  strictKinds : Bool := false
  trackDefects : Bool := false
  deriving DecidableEq, Repr

end Hierarchy

structure Hierarchy where
  category : Category
  root : Kind
  parents : NameMap Kind := ∅
  untracked : NameSet := ∅
  options : Hierarchy.Options := {}
  deriving DecidableEq, Repr

namespace Hierarchy

def parent? (h : Hierarchy) (kind : Kind) : Option Kind := h.parents.get? kind

def isRoot (h : Hierarchy) (kind : Kind) : Bool := kind == h.root

def contains (h : Hierarchy) (kind : Kind) : Bool :=
  h.isRoot kind || h.parents.contains kind

def size (h : Hierarchy) : Nat := h.parents.size + 1

def latticeHeight (h : Hierarchy) : Nat := h.size + 1

def ascend (h : Hierarchy) : Nat → Kind → List Kind
  | 0, kind => [kind]
  | steps + 1, kind =>
    match h.parent? kind with
    | none => [kind]
    | some parent => kind :: h.ascend steps parent

/-- Everything reached from a kind by parent steps. A path that repeats no kind has at most as many
steps as there are parent entries, so the bound loses nothing, also on a cycle. -/
def lineage (h : Hierarchy) (kind : Kind) : List Kind :=
  h.ascend (h.parents.size + 1) kind

def isCoveredBy (h : Hierarchy) (kind cover : Kind) : Bool :=
  h.isRoot cover || (h.lineage kind).contains cover

def isTracked (h : Hierarchy) (kind : Kind) : Bool :=
  h.options.trackDefects || (h.lineage kind).all fun k => decide (k ∉ h.untracked)

def endsWithin (h : Hierarchy) : Nat → Kind → Bool
  | 0, kind => (h.parent? kind).isNone
  | steps + 1, kind =>
    match h.parent? kind with
    | none => true
    | some parent => h.endsWithin steps parent

def insert (h : Hierarchy) (decl : KindDecl) : Hierarchy :=
  let parent := decl.parent.getD h.root
  { h with
    parents := if parent = decl.name then h.parents else h.parents.insert decl.name parent
    untracked := if decl.tracked then h.untracked.erase decl.name else h.untracked.insert decl.name }

def declare (h : Hierarchy) (decls : List KindDecl) : Hierarchy :=
  decls.foldl (fun h decl => if decl.name = h.root then h else h.insert decl) h

def checkKind (h : Hierarchy) (kind : Kind) (context : String) : Except Error Unit :=
  if h.options.strictKinds && !h.contains kind then
    .error (.unknownKind kind h.category context)
  else .ok ()

def checkParents (h : Hierarchy) (decls : List KindDecl) : Except Error Unit :=
  decls.forM fun decl =>
    match decl.parent with
    | none => .ok ()
    | some parent => h.checkKind parent s!"parent of {decl.name}"

def cyclic? (h : Hierarchy) : Option Kind :=
  h.parents.keys.find? fun kind => !h.endsWithin (h.parents.size + 1) kind

def checkAcyclic (h : Hierarchy) : Except Error Unit :=
  match h.cyclic? with
  | none => .ok ()
  | some kind => .error (.kindCycle kind h.category)

def extend (h : Hierarchy) (decls : List KindDecl) : Except Error Hierarchy := do
  let extended := h.declare decls
  extended.checkParents decls
  extended.checkAcyclic
  return extended

def ofRoot (category : Category) (root : Kind) : Hierarchy := { category, root }

def builtinDecls : Category → List KindDecl
  | .raises => [
      { name := "CatchableError" },
      { name := "Defect", tracked := false },
      { name := "IOError", parent := some "CatchableError" },
      { name := "EOFError", parent := some "IOError" },
      { name := "OSError", parent := some "CatchableError" },
      { name := "ValueError", parent := some "CatchableError" },
      { name := "KeyError", parent := some "ValueError" },
      { name := "ResourceExhaustedError", parent := some "CatchableError" },
      { name := "AssertionDefect", parent := some "Defect" },
      { name := "IndexDefect", parent := some "Defect" },
      { name := "OverflowDefect", parent := some "Defect" }]
  | .tags => [
      { name := "IOEffect" },
      { name := "ReadIOEffect", parent := some "IOEffect" },
      { name := "WriteIOEffect", parent := some "IOEffect" },
      { name := "ExecIOEffect", parent := some "IOEffect" },
      { name := "ReadDirEffect", parent := some "ReadIOEffect" },
      { name := "WriteDirEffect", parent := some "WriteIOEffect" },
      { name := "ReadEnvEffect" },
      { name := "WriteEnvEffect" },
      { name := "TimeEffect" }]

def builtinRoot : Category → Kind
  | .raises => "Exception"
  | .tags => "RootEffect"

def builtin (category : Category) : Hierarchy :=
  (ofRoot category (builtinRoot category)).declare (builtinDecls category)

def withOptions (h : Hierarchy) (options : Options) : Hierarchy := { h with options }

end Hierarchy

structure Hierarchies where
  raises : Hierarchy
  tags : Hierarchy
  deriving DecidableEq, Repr

namespace Hierarchies

def get (h : Hierarchies) : Category → Hierarchy
  | .raises => h.raises
  | .tags => h.tags

def builtin : Hierarchies := ⟨.builtin .raises, .builtin .tags⟩

def ofDecls (options : Hierarchy.Options) (exceptionKinds tagKinds : List KindDecl) :
    Except Error Hierarchies := do
  let raises ← ((Hierarchy.builtin .raises).withOptions options).extend exceptionKinds
  let tags ← ((Hierarchy.builtin .tags).withOptions options).extend tagKinds
  return ⟨raises, tags⟩

def latticeHeight (h : Hierarchies) : Nat := h.raises.latticeHeight + h.tags.latticeHeight

end Hierarchies
end EffectAudit
