import EffectAudit.Contribution
import EffectAudit.Site.Collect
/-! Effects read off the syntax tree. A piece of code adds what its parts add; a `try` takes off its
body, and off nothing else, what any of its handlers covers. The locals are followed in source order,
because a name means what the definitions and assignments before it made of it. Up to a marker only
the parts count that can run before it. No construct is numbered and no site is written down. -/
namespace EffectAudit

/- What is left of a set under all handlers of a `try` at once. Of `unknown` something is left unless a
handler catches everything. -/
def EffectSet.uncaught (h : Hierarchy) (handlers : List Handler) : EffectSet → EffectSet
  | .unknown =>
    if handlers.any fun handler => Coverage.ofHandler h handler.kinds = .all then ∅ else .unknown
  | .known kinds =>
    .known (kinds.filter fun kind =>
      handlers.all fun handler => !(Coverage.ofHandler h handler.kinds).covers h kind)

namespace Tree
open Collect

variable (u : Setting) (table : EffectTable) (category : Category)

mutual

def exprEffects (s : Scope) : Expr → EffectSet
  | .nil => ∅
  | .literal _ => ∅
  | .name name =>
    match mentionTarget u s name with
    | none => ∅
    | some target => Contribution.ofTarget u.hierarchies table category target
  | .routine id => table.referenceSet id category
  | .call callee args _ => (calleeEffects s callee).union (exprsEffects s args)

def calleeEffects (s : Scope) : Callee → EffectSet
  | .routine id => table.referenceSet id category
  | .binding name => Contribution.ofTarget u.hierarchies table category (callTarget u s name).2
  | .computed value => EffectSet.unknown.union (exprEffects s value)

def exprsEffects (s : Scope) : List Expr → EffectSet
  | [] => ∅
  | value :: rest => (exprEffects s value).union (exprsEffects s rest)

end

def optionalEffects (s : Scope) : Option Expr → EffectSet
  | none => ∅
  | some value => exprEffects u table category s value

def definedLocal (s : Scope) (type : Option ProcType) (value : Option Expr) : Local :=
  match type with
  | none => ⟨none, value.bind (originOf s)⟩
  | some expected => ⟨some expected, none⟩

def raiseEffects (caught : Coverage) (kind : Option Kind) : EffectSet :=
  match category, kind with
  | .tags, _ => ∅
  | .raises, some kind => .singleton u.hierarchies.raises kind
  | .raises, none => caught.toEffectSet u.hierarchies.raises

def throughHandlers (handlers : List Handler) (inside : EffectSet) : EffectSet :=
  match category with
  | .tags => inside
  | .raises => inside.uncaught u.hierarchies.raises handlers

mutual

def stmtEffects (caught : Coverage) (s : Scope) : Stmt → Scope × EffectSet
  | .expr value => (s, exprEffects u table category s value)
  | .define name type value _ =>
    (s.bind name (definedLocal s type value), optionalEffects u table category s value)
  | .assign name value _ => (s.reassign name, exprEffects u table category s value)
  | .raise kind args _ =>
    (s, (exprsEffects u table category s args).union (raiseEffects u category caught kind))
  | .branch arms otherwise =>
    let taken := armsEffects caught s arms
    let last := elseEffects caught taken.1 otherwise
    (last.1, taken.2.union last.2)
  | .loop cond body =>
    let inside := blockEffects caught s body
    (inside.1, (exprEffects u table category s cond).union inside.2)
  | .protect body handlers cleanup =>
    let inside := blockEffects caught s body
    let handled := handlersEffects inside.1 handlers
    let last := elseEffects caught handled.1 cleanup
    (last.1, ((throughHandlers u category handlers inside.2).union handled.2).union last.2)
  | .block body => blockEffects caught s body
  | .exit value => (s, optionalEffects u table category s value)
  | .marker _ _ => (s, ∅)

def blockEffects (caught : Coverage) (s : Scope) : List Stmt → Scope × EffectSet
  | [] => (s, ∅)
  | stmt :: rest =>
    let first := stmtEffects caught s stmt
    let others := blockEffects caught first.1 rest
    (others.1, first.2.union others.2)

def armsEffects (caught : Coverage) (s : Scope) : List BranchArm → Scope × EffectSet
  | [] => (s, ∅)
  | .mk cond body :: rest =>
    let first := blockEffects caught s body
    let others := armsEffects caught first.1 rest
    (others.1, ((exprEffects u table category s cond).union first.2).union others.2)

def handlersEffects (s : Scope) : List Handler → Scope × EffectSet
  | [] => (s, ∅)
  | .mk kinds body :: rest =>
    let first := blockEffects (Coverage.ofHandler u.hierarchies.raises kinds) s body
    let others := handlersEffects first.1 rest
    (others.1, first.2.union others.2)

def elseEffects (caught : Coverage) (s : Scope) : Option (List Stmt) → Scope × EffectSet
  | none => (s, ∅)
  | some body => blockEffects caught s body

end

def routineEffects : EffectSet :=
  (blockEffects u table category .all {} (u.routine.body.getD [])).2

structure Mark where
  label : Option String
  span : Span
  effects : EffectSet
  deriving DecidableEq, Repr

def Mark.after (set : EffectSet) (mark : Mark) : Mark := { mark with effects := set.union mark.effects }

def condsEffects (caught : Coverage) (s : Scope) : List BranchArm → EffectSet
  | [] => ∅
  | .mk cond body :: rest =>
    (exprEffects u table category s cond).union
      (condsEffects caught (blockEffects u table category caught s body).1 rest)

mutual

/- The markers of a statement in source order. Handlers are taken off a protected body once it is left,
so inside it nothing is taken off. -/
def stmtMarks (caught : Coverage) (s : Scope) : Stmt → List Mark
  | .expr _ => []
  | .define .. => []
  | .assign .. => []
  | .raise .. => []
  | .branch arms otherwise =>
    let after := (armsEffects u table category caught s arms).1
    armsMarks caught s arms ++
      (elseMarks caught after otherwise).map (·.after (condsEffects u table category caught s arms))
  | .loop cond body => (blockMarks caught s body).map (·.after (exprEffects u table category s cond))
  | .protect body handlers cleanup =>
    let inside := blockEffects u table category caught s body
    let escaped := throughHandlers u category handlers inside.2
    let handled := handlersEffects u table category inside.1 handlers
    blockMarks caught s body ++ (handlersMarks inside.1 handlers).map (·.after escaped) ++
      (elseMarks caught handled.1 cleanup).map (·.after (escaped.union handled.2))
  | .block body => blockMarks caught s body
  | .exit _ => []
  | .marker label span => [⟨label, span, ∅⟩]

def blockMarks (caught : Coverage) (s : Scope) : List Stmt → List Mark
  | [] => []
  | stmt :: rest =>
    let first := stmtEffects u table category caught s stmt
    stmtMarks caught s stmt ++ (blockMarks caught first.1 rest).map (·.after first.2)

def armsMarks (caught : Coverage) (s : Scope) : List BranchArm → List Mark
  | [] => []
  | .mk cond body :: rest =>
    let after := (blockEffects u table category caught s body).1
    (blockMarks caught s body ++ armsMarks caught after rest).map
      (·.after (exprEffects u table category s cond))

def handlersMarks (s : Scope) : List Handler → List Mark
  | [] => []
  | .mk kinds body :: rest =>
    let caught := Coverage.ofHandler u.hierarchies.raises kinds
    blockMarks caught s body ++ handlersMarks (blockEffects u table category caught s body).1 rest

def elseMarks (caught : Coverage) (s : Scope) : Option (List Stmt) → List Mark
  | none => []
  | some body => blockMarks caught s body

end

def routineMarks : List Mark := blockMarks u table category .all {} (u.routine.body.getD [])

end Tree
end EffectAudit
