import EffectAudit.Program
/-! Programs made by hand. Nothing built here has a position in a source. -/
namespace EffectAudit

def KindDecl.underRoot (name : Kind) : KindDecl := { name, parent := none, tracked := true }

def KindDecl.under (parent name : Kind) : KindDecl := { name, parent := some parent, tracked := true }

def KindDecl.asUntracked (d : KindDecl) : KindDecl := { d with tracked := false }

namespace Expr

def callRoutine (id : RoutineId) (args : List Expr) : Expr := call (.routine id) args .zero

def callBinding (name : String) (args : List Expr) : Expr := call (.binding name) args .zero

end Expr

namespace Handler

def catching (kinds : List Kind) (body : List Stmt) : Handler := .mk kinds body

def catchAll (body : List Stmt) : Handler := .mk [] body

end Handler

namespace Stmt

def callOf (id : RoutineId) : Stmt := expr (.callRoutine id [])

def raiseKind (kind : Kind) : Stmt := raise (some kind) [] .zero

def raiseAgain : Stmt := raise none [] .zero

def mark : Stmt := marker none .zero

def markAs (label : String) : Stmt := marker (some label) .zero

def bind (name : String) (type : Option ProcType) (value : Expr) : Stmt :=
  define name type (some value) .zero

def set (target : String) (value : Expr) : Stmt := assign target value .zero

def ifElse (cond : Expr) (body : List Stmt) (otherwise : Option (List Stmt)) : Stmt :=
  branch [.mk cond body] otherwise

def tryExcept (body : List Stmt) (handlers : List Handler) : Stmt := protect body handlers none

end Stmt

def Param.ofValue (name : String) : Param := { name }

def Param.ofProc (name : String) (type : ProcType) : Param := { name, type := .proc type }

namespace Routine

def new (id : RoutineId) : Routine := { id, body := some [] }

def forward (r : Routine) : Routine := { r with body := none }

end Routine
end EffectAudit
