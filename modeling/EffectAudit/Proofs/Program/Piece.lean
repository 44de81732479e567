import EffectAudit.Program
/-! Code cut into pieces. An expression comes down to its uses, the names, routines and calls in it in
evaluation order; a piece is whatever the statements of a body are made of, down to the statements that hold
no other. An `if` chain goes on in its `else`. What holds of a piece as soon as it holds of its parts holds
of every piece. -/
namespace EffectAudit

inductive Use where
  | name (name : String)
  | routine (id : RoutineId)
  | call (id : RoutineId) (args : List Expr) (span : Span)
  | callName (name : String) (span : Span)
  | callValue (span : Span)

mutual

def Expr.uses : Expr → List Use
  | .nil => []
  | .literal _ => []
  | .name name => [.name name]
  | .routine id => [.routine id]
  | .call callee args span => callee.uses args span ++ Expr.allUses args

def Callee.uses (args : List Expr) (span : Span) : Callee → List Use
  | .routine id => [.call id args span]
  | .binding name => [.callName name span]
  | .computed value => .callValue span :: value.uses

def Expr.allUses : List Expr → List Use
  | [] => []
  | value :: rest => value.uses ++ Expr.allUses rest

end

def Expr.optionalUses : Option Expr → List Use
  | none => []
  | some value => value.uses

inductive Piece where
  | stmt (code : Stmt)
  | block (body : List Stmt)
  | optional (body : Option (List Stmt))
  | arms (arms : List BranchArm) (otherwise : Option (List Stmt))
  | handlers (construct index : Nat) (handlers : List Handler)

def Stmt.isPlain : Stmt → Bool
  | .expr _ => true
  | .define .. => true
  | .assign .. => true
  | .raise .. => true
  | .exit _ => true
  | .marker .. => true
  | .branch .. => false
  | .loop .. => false
  | .protect .. => false
  | .block _ => false

@[elab_as_elim]
theorem Stmt.plainCases {motive : (code : Stmt) → code.isPlain = true → Prop}
    (expr : ∀ value, motive (.expr value) rfl)
    (define : ∀ name type value span, motive (.define name type value span) rfl)
    (assign : ∀ name value span, motive (.assign name value span) rfl)
    (raise : ∀ kind args span, motive (.raise kind args span) rfl)
    (exit : ∀ value, motive (.exit value) rfl) (marker : ∀ label span, motive (.marker label span) rfl)
    (code : Stmt) (simple : code.isPlain = true) : motive code simple := by
  cases code with
  | expr value => exact expr value
  | define name type value span => exact define name type value span
  | assign name value span => exact assign name value span
  | raise kind args span => exact raise kind args span
  | exit value => exact exit value
  | marker label span => exact marker label span
  | branch arms otherwise => exact absurd simple Bool.false_ne_true
  | loop cond body => exact absurd simple Bool.false_ne_true
  | protect body handlers cleanup => exact absurd simple Bool.false_ne_true
  | block body => exact absurd simple Bool.false_ne_true

namespace Piece

noncomputable def size : Piece → Nat
  | .stmt code => sizeOf code
  | .block body => sizeOf body
  | .optional body => sizeOf body
  | .arms chain otherwise => sizeOf chain + sizeOf otherwise
  | .handlers _ _ list => sizeOf list

@[elab_as_elim]
theorem induct {motive : Piece → Prop} (plain : ∀ code, code.isPlain = true → motive (.stmt code))
    (branch : ∀ arms otherwise, motive (.arms arms otherwise) → motive (.stmt (.branch arms otherwise)))
    (loop : ∀ cond body, motive (.block body) → motive (.stmt (.loop cond body)))
    (protect : ∀ body handlers cleanup, motive (.block body) →
      (∀ construct, motive (.handlers construct 0 handlers)) → motive (.optional cleanup) →
      motive (.stmt (.protect body handlers cleanup)))
    (nested : ∀ body, motive (.block body) → motive (.stmt (.block body)))
    (nil : motive (.block []))
    (cons : ∀ code rest, motive (.stmt code) → motive (.block rest) → motive (.block (code :: rest)))
    (absent : motive (.optional none))
    (present : ∀ body, motive (.block body) → motive (.optional (some body)))
    (skipped : ∀ otherwise, motive (.optional otherwise) → motive (.arms [] otherwise))
    (arm : ∀ cond body rest otherwise, motive (.block body) → motive (.arms rest otherwise) →
      motive (.arms (.mk cond body :: rest) otherwise))
    (unhandled : ∀ construct index, motive (.handlers construct index []))
    (handler : ∀ construct index kinds body rest, motive (.block body) →
      motive (.handlers construct (index + 1) rest) →
      motive (.handlers construct index (.mk kinds body :: rest)))
    (piece : Piece) : motive piece := by
  have sized : ∀ bound (piece : Piece), piece.size < bound → motive piece := by
    intro bound
    induction bound with
    | zero => intro piece small; exact absurd small (Nat.not_lt_zero _)
    | succ bound smaller =>
      intro piece small
      have part : ∀ part : Piece, part.size < piece.size → motive part :=
        fun part less => smaller part (by omega)
      cases piece with
      | stmt code =>
        cases code with
        | branch chain otherwise => exact branch _ _ (part _ (by simp [size]))
        | loop cond body => exact loop _ _ (part _ (by simp only [size, Stmt.loop.sizeOf_spec]; omega))
        | protect body list cleanup =>
          exact protect _ _ _ (part _ (by simp only [size, Stmt.protect.sizeOf_spec]; omega))
            (fun _ => part _ (by simp only [size, Stmt.protect.sizeOf_spec]; omega))
            (part _ (by simp only [size, Stmt.protect.sizeOf_spec]; omega))
        | block body => exact nested _ (part _ (by simp [size]))
        | _ => exact plain _ rfl
      | block body =>
        rcases body with _ | ⟨code, rest⟩
        · exact nil
        · exact cons _ _ (part _ (by simp only [size, List.cons.sizeOf_spec]; omega))
            (part _ (by simp only [size, List.cons.sizeOf_spec]; omega))
      | optional body =>
        rcases body with _ | body
        · exact absent
        · exact present _ (part _ (by simp [size]))
      | arms chain otherwise =>
        rcases chain with _ | ⟨⟨cond, body⟩, rest⟩
        · exact skipped _ (part _ (by simp [size]))
        · exact arm _ _ _ _
            (part _ (by simp only [size, List.cons.sizeOf_spec, BranchArm.mk.sizeOf_spec]; omega))
            (part _ (by simp only [size, List.cons.sizeOf_spec]; omega))
      | handlers construct index list =>
        rcases list with _ | ⟨⟨kinds, body⟩, rest⟩
        · exact unhandled _ _
        · exact handler _ _ _ _ _
            (part _ (by simp only [size, List.cons.sizeOf_spec, Handler.mk.sizeOf_spec]; omega))
            (part _ (by simp only [size, List.cons.sizeOf_spec]; omega))
  exact sized _ piece (Nat.lt_succ_self _)

end Piece
end EffectAudit
