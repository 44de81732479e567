import EffectAudit.Hierarchy
import EffectAudit.Span
/-! One compilation unit as its front end hands it over: names are resolved, and of every type only
what concerns effects is left. -/
namespace EffectAudit

/-- The effect clauses of a routine or of a procedure type. A list that is absent constrains nothing;
an empty one declares that there is no effect. -/
structure Clauses where
  raises : Option (List Kind) := none
  tags : Option (List Kind) := none
  forbids : List Kind := []
  deriving DecidableEq, Repr

namespace Clauses

def declared (c : Clauses) : Category → Option (List Kind)
  | .raises => c.raises
  | .tags => c.tags

def isUnconstrained (c : Clauses) : Bool :=
  c.raises.isNone && c.tags.isNone && c.forbids.isEmpty

end Clauses

structure ProcType where
  effects : Clauses := {}
  deriving DecidableEq, Repr

def ProcType.unconstrained : ProcType := {}

inductive ParamType where
  | value
  | proc (type : ProcType)
  deriving DecidableEq, Repr

structure Param where
  name : String
  type : ParamType := .value
  deriving DecidableEq, Repr

def Param.procType? (p : Param) : Option ProcType :=
  match p.type with
  | .value => none
  | .proc type => some type

mutual

inductive Expr where
  | nil
  | literal (text : String)
  | name (name : String)
  | routine (id : RoutineId)
  | call (callee : Callee) (args : List Expr) (span : Span)
  deriving Repr

inductive Callee where
  | routine (id : RoutineId)
  | binding (name : String)
  | computed (value : Expr)
  deriving Repr

end

mutual

inductive Stmt where
  | expr (value : Expr)
  | define (name : String) (type : Option ProcType) (value : Option Expr) (span : Span)
  | assign (target : String) (value : Expr) (span : Span)
  | raise (kind : Option Kind) (args : List Expr) (span : Span)
  | branch (arms : List BranchArm) (otherwise : Option (List Stmt))
  | loop (cond : Expr) (body : List Stmt)
  | protect (body : List Stmt) (handlers : List Handler) (cleanup : Option (List Stmt))
  | block (body : List Stmt)
  | exit (value : Option Expr)
  | marker (label : Option String) (span : Span)
  deriving Repr

inductive BranchArm where
  | mk (cond : Expr) (body : List Stmt)
  deriving Repr

inductive Handler where
  | mk (kinds : List Kind) (body : List Stmt)
  deriving Repr

end

def Handler.kinds : Handler → List Kind
  | .mk kinds _ => kinds

inductive RoutineKind where
  | proc
  | func
  | iterator
  | method
  | converter
  deriving DecidableEq, Repr

def RoutineKind.isDispatched (k : RoutineKind) : Bool := k == .method

inductive Origin where
  | defined
  | foreign
  | imported
  deriving DecidableEq, Repr

structure Routine where
  id : RoutineId
  kind : RoutineKind := .proc
  origin : Origin := .defined
  params : List Param := []
  effects : Clauses := {}
  body : Option (List Stmt) := none
  span : Span := .zero
  deriving Repr

namespace Routine

def hasBody (r : Routine) : Bool := r.body.isSome

def param? (r : Routine) (name : String) : Option Param := r.params.find? (·.name == name)

def declared (r : Routine) (category : Category) : Option (List Kind) := r.effects.declared category

end Routine

structure Global where
  name : String
  type : ProcType := {}
  span : Span := .zero
  deriving DecidableEq, Repr

structure Program where
  unit : String
  exceptionKinds : List KindDecl := []
  tagKinds : List KindDecl := []
  routines : List Routine := []
  globals : List Global := []
  deriving Repr

namespace Program

def routine? (p : Program) (id : RoutineId) : Option Routine := p.routines.find? (·.id == id)

def global? (p : Program) (name : String) : Option Global := p.globals.find? (·.name == name)

def kindDecls (p : Program) : Category → List KindDecl
  | .raises => p.exceptionKinds
  | .tags => p.tagKinds

def hierarchies (p : Program) (options : Hierarchy.Options) : Except Error Hierarchies :=
  Hierarchies.ofDecls options p.exceptionKinds p.tagKinds

end Program
end EffectAudit
