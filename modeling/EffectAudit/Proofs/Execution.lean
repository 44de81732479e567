import EffectAudit.Proofs.Admission
/-! Executions of a unit, as far as exceptions go. Tests of conditions, the number of rounds of a loop
and the choice among handlers that cover an exception are left open, so a body has many executions. A
routine that is not there to be run, or that dispatch may replace, throws what its reference set
admits. -/
namespace EffectAudit.Execution

/- How a piece of code ends; `left` is a return on its way out of the routine. -/
inductive Ending where
  | done
  | left
  | threw (kind : Kind)
  deriving DecidableEq, Repr

def Ending.outside : Ending → Ending
  | left => done
  | ending => ending

inductive Code where
  | expr (value : Expr)
  | exprs (values : List Expr)
  | stmt (stmt : Stmt)
  | block (body : List Stmt)
  -- what is left of an `if`: the arms not yet tried, and the `else`
  | arms (arms : List BranchArm) (otherwise : Option (List Stmt))
  -- a `try` up to the end of its handler
  | attempt (body : List Stmt) (handlers : List Handler)
  | call (id : RoutineId)

/-- The first argument is the exception that the innermost enclosing handler of the routine is
handling. -/
inductive Runs (program : Program) (h : Hierarchy) (table : EffectTable) :
    Option Kind → Code → Ending → Prop where
  | nil {now} : Runs program h table now (.expr .nil) .done
  | literal {now text} : Runs program h table now (.expr (.literal text)) .done
  | name {now name} : Runs program h table now (.expr (.name name)) .done
  | routine {now id} : Runs program h table now (.expr (.routine id)) .done
  | argumentThrows {now callee args span kind}
      (before : Runs program h table now (.exprs args) (.threw kind)) :
      Runs program h table now (.expr (.call callee args span)) (.threw kind)
  | called {now id args span ending} (before : Runs program h table now (.exprs args) .done)
      (call : Runs program h table now (.call id) ending) :
      Runs program h table now (.expr (.call (.routine id) args span)) ending
  -- whatever a name or a computed value leads to is not known here
  | calledThrough {now callee args span} (indirect : ∀ id, callee ≠ .routine id) :
      Runs program h table now (.expr (.call callee args span)) .done
  | calledThroughThrows {now callee args span kind} (indirect : ∀ id, callee ≠ .routine id) :
      Runs program h table now (.expr (.call callee args span)) (.threw kind)
  | exprsNil {now} : Runs program h table now (.exprs []) .done
  | exprsThrows {now value rest kind} (first : Runs program h table now (.expr value) (.threw kind)) :
      Runs program h table now (.exprs (value :: rest)) (.threw kind)
  | exprsCons {now value rest ending} (first : Runs program h table now (.expr value) .done)
      (others : Runs program h table now (.exprs rest) ending) :
      Runs program h table now (.exprs (value :: rest)) ending
  -- the body of a routine starts outside every handler
  | body {now id r body ending} (found : program.routine? id = some r)
      (plain : r.kind.isDispatched = false) (there : r.body = some body)
      (run : Runs program h table none (.block body) ending) :
      Runs program h table now (.call id) ending.outside
  | elsewhere {now id r} (found : program.routine? id = some r)
      (away : r.kind.isDispatched = true ∨ r.body = none) :
      Runs program h table now (.call id) .done
  | elsewhereThrows {now id r kind} (found : program.routine? id = some r)
      (away : r.kind.isDispatched = true ∨ r.body = none)
      (admitted : (table.referenceSet id .raises).admits h kind = true) :
      Runs program h table now (.call id) (.threw kind)
  | value {now value ending} (run : Runs program h table now (.expr value) ending) :
      Runs program h table now (.stmt (.expr value)) ending
  | declare {now name type span} :
      Runs program h table now (.stmt (.define name type none span)) .done
  | define {now name type value span ending} (run : Runs program h table now (.expr value) ending) :
      Runs program h table now (.stmt (.define name type (some value) span)) ending
  | assign {now target value span ending} (run : Runs program h table now (.expr value) ending) :
      Runs program h table now (.stmt (.assign target value span)) ending
  | raiseArgument {now raised args span kind}
      (before : Runs program h table now (.exprs args) (.threw kind)) :
      Runs program h table now (.stmt (.raise raised args span)) (.threw kind)
  | raise {now args span kind} (before : Runs program h table now (.exprs args) .done) :
      Runs program h table now (.stmt (.raise (some kind) args span)) (.threw kind)
  | raiseAgain {handled args span} (before : Runs program h table (some handled) (.exprs args) .done) :
      Runs program h table (some handled) (.stmt (.raise none args span)) (.threw handled)
  | raiseLoose {args span kind} (before : Runs program h table none (.exprs args) .done) :
      Runs program h table none (.stmt (.raise none args span)) (.threw kind)
  | branch {now arms otherwise ending} (run : Runs program h table now (.arms arms otherwise) ending) :
      Runs program h table now (.stmt (.branch arms otherwise)) ending
  | testThrows {now cond body rest otherwise kind}
      (test : Runs program h table now (.expr cond) (.threw kind)) :
      Runs program h table now (.arms (.mk cond body :: rest) otherwise) (.threw kind)
  | taken {now cond body rest otherwise ending} (test : Runs program h table now (.expr cond) .done)
      (run : Runs program h table now (.block body) ending) :
      Runs program h table now (.arms (.mk cond body :: rest) otherwise) ending
  | skipped {now cond body rest otherwise ending} (test : Runs program h table now (.expr cond) .done)
      (run : Runs program h table now (.arms rest otherwise) ending) :
      Runs program h table now (.arms (.mk cond body :: rest) otherwise) ending
  | otherwise {now body ending} (run : Runs program h table now (.block body) ending) :
      Runs program h table now (.arms [] (some body)) ending
  | noArm {now} : Runs program h table now (.arms [] none) .done
  | loopTestThrows {now cond body kind} (test : Runs program h table now (.expr cond) (.threw kind)) :
      Runs program h table now (.stmt (.loop cond body)) (.threw kind)
  | loopEnds {now cond body} (test : Runs program h table now (.expr cond) .done) :
      Runs program h table now (.stmt (.loop cond body)) .done
  | loopLeft {now cond body ending} (test : Runs program h table now (.expr cond) .done)
      (run : Runs program h table now (.block body) ending) (stops : ending ≠ .done) :
      Runs program h table now (.stmt (.loop cond body)) ending
  | loopAgain {now cond body ending} (test : Runs program h table now (.expr cond) .done)
      (run : Runs program h table now (.block body) .done)
      (again : Runs program h table now (.stmt (.loop cond body)) ending) :
      Runs program h table now (.stmt (.loop cond body)) ending
  | uncaught {now body handlers ending} (run : Runs program h table now (.block body) ending)
      (free : ∀ kind, ending = .threw kind →
        ∀ handler ∈ handlers, ¬Coverage.Catches h handler.kinds kind) :
      Runs program h table now (.attempt body handlers) ending
  | caught {now body handlers kinds handler kind ending}
      (run : Runs program h table now (.block body) (.threw kind))
      (listed : .mk kinds handler ∈ handlers) (catches : Coverage.Catches h kinds kind)
      (handling : Runs program h table (some kind) (.block handler) ending) :
      Runs program h table now (.attempt body handlers) ending
  | attempt {now body handlers ending} (run : Runs program h table now (.attempt body handlers) ending) :
      Runs program h table now (.stmt (.protect body handlers none)) ending
  | cleaned {now body handlers cleanup ending}
      (run : Runs program h table now (.attempt body handlers) ending)
      (clean : Runs program h table now (.block cleanup) .done) :
      Runs program h table now (.stmt (.protect body handlers (some cleanup))) ending
  -- what the cleanup throws or returns takes the place of what was pending
  | replaced {now body handlers cleanup pending ending}
      (run : Runs program h table now (.attempt body handlers) pending)
      (clean : Runs program h table now (.block cleanup) ending) (stops : ending ≠ .done) :
      Runs program h table now (.stmt (.protect body handlers (some cleanup))) ending
  | block {now body ending} (run : Runs program h table now (.block body) ending) :
      Runs program h table now (.stmt (.block body)) ending
  | exit {now} : Runs program h table now (.stmt (.exit none)) .left
  | exitThrows {now value kind} (run : Runs program h table now (.expr value) (.threw kind)) :
      Runs program h table now (.stmt (.exit (some value))) (.threw kind)
  | exitWith {now value} (run : Runs program h table now (.expr value) .done) :
      Runs program h table now (.stmt (.exit (some value))) .left
  | marker {now label span} : Runs program h table now (.stmt (.marker label span)) .done
  | blockNil {now} : Runs program h table now (.block []) .done
  | blockStops {now stmt rest ending} (first : Runs program h table now (.stmt stmt) ending)
      (stops : ending ≠ .done) : Runs program h table now (.block (stmt :: rest)) ending
  | blockCons {now stmt rest ending} (first : Runs program h table now (.stmt stmt) .done)
      (others : Runs program h table now (.block rest) ending) :
      Runs program h table now (.block (stmt :: rest)) ending

def namesCallee : Callee → Bool
  | .routine _ => true
  | _ => false

mutual

def exprFirstOrder : Expr → Bool
  | .call callee args _ => namesCallee callee && exprsFirstOrder args
  | _ => true

def exprsFirstOrder : List Expr → Bool
  | [] => true
  | value :: rest => exprFirstOrder value && exprsFirstOrder rest

end

def optionalFirstOrder : Option Expr → Bool
  | none => true
  | some value => exprFirstOrder value

mutual

def stmtFirstOrder : Stmt → Bool
  | .expr value => exprFirstOrder value
  | .define _ _ value _ => optionalFirstOrder value
  | .assign _ value _ => exprFirstOrder value
  | .raise _ args _ => exprsFirstOrder args
  | .branch arms otherwise => armsFirstOrder arms && elseFirstOrder otherwise
  | .loop cond body => exprFirstOrder cond && blockFirstOrder body
  | .protect body handlers cleanup =>
    blockFirstOrder body && handlersFirstOrder handlers && elseFirstOrder cleanup
  | .block body => blockFirstOrder body
  | .exit value => optionalFirstOrder value
  | .marker _ _ => true

def blockFirstOrder : List Stmt → Bool
  | [] => true
  | stmt :: rest => stmtFirstOrder stmt && blockFirstOrder rest

def armsFirstOrder : List BranchArm → Bool
  | [] => true
  | .mk cond body :: rest => exprFirstOrder cond && blockFirstOrder body && armsFirstOrder rest

def handlersFirstOrder : List Handler → Bool
  | [] => true
  | .mk _ body :: rest => blockFirstOrder body && handlersFirstOrder rest

def elseFirstOrder : Option (List Stmt) → Bool
  | none => true
  | some body => blockFirstOrder body

end

def programFirstOrder (program : Program) : Bool :=
  program.routines.all fun r => elseFirstOrder r.body

def codeFirstOrder : Code → Bool
  | .expr value => exprFirstOrder value
  | .exprs values => exprsFirstOrder values
  | .stmt stmt => stmtFirstOrder stmt
  | .block body => blockFirstOrder body
  | .arms arms otherwise => armsFirstOrder arms && elseFirstOrder otherwise
  | .attempt body handlers => blockFirstOrder body && handlersFirstOrder handlers
  | .call _ => true

end EffectAudit.Execution
