import EffectAudit.Program.Encode
import EffectAudit.Proofs.Json.Plain
/-! A program is written with texts, counts, lists and records only. -/
namespace EffectAudit
open Json

theorem spanPlain (span : Span) : span.toJson.Plain := by
  simp [Span.toJson]

def Clauses.fields (c : Clauses) : List (String × Json) :=
  (c.raises.map fun kinds => ("raises", Json.strings kinds)).toList ++
    (c.tags.map fun kinds => ("tags", Json.strings kinds)).toList ++
    if c.forbids.isEmpty then [] else [("forbids", .strings c.forbids)]

theorem clausesObject (c : Clauses) : c.toJson = .object c.fields := by
  obtain ⟨raises, tags, forbids⟩ := c
  cases raises <;> cases tags <;> rfl

theorem clausesPlain (c : Clauses) : c.toJson.Plain := by
  obtain ⟨raises, tags, forbids⟩ := c
  cases raises <;> cases tags <;> cases forbids <;> simp [Clauses.toJson]

theorem procTypePlain (t : ProcType) : t.toJson.Plain := clausesPlain t.effects

theorem paramPlain (p : Param) : p.toJson.Plain := by
  obtain ⟨name, type⟩ := p
  cases type with
  | value => simp [Param.toJson, ParamType.toJson]
  | proc type => simp [Param.toJson, ParamType.toJson, Json.tagged, procTypePlain]

theorem kindDeclPlain (d : KindDecl) : d.toJson.Plain := by
  have parent : (Json.ofOption .string d.parent).Plain := plainOption fun name _ => plainString name
  simp [KindDecl.toJson, parent]

theorem globalPlain (g : Global) : g.toJson.Plain := by
  simp [Global.toJson, procTypePlain, spanPlain]

mutual

theorem exprPlain : (e : Expr) → e.toJson.Plain
  | .nil => by simp [Expr.toJson, Json.form]
  | .literal _ => by simp [Expr.toJson, Json.form]
  | .name _ => by simp [Expr.toJson, Json.form]
  | .routine _ => by simp [Expr.toJson, Json.form]
  | .call callee args span => by
    have called := calleePlain callee
    have given := exprsPlain args
    simp only [Expr.toJson, Json.form, plainObject, List.forall_mem_cons]
    exact ⟨plainString _, called, .array given, spanPlain span, by simp⟩

theorem calleePlain : (c : Callee) → c.toJson.Plain
  | .routine _ => by simp [Callee.toJson, Json.tagged]
  | .binding _ => by simp [Callee.toJson, Json.tagged]
  | .computed value => by
    have computed := exprPlain value
    simpa [Callee.toJson, Json.tagged] using computed

theorem exprsPlain : (es : List Expr) → ∀ item ∈ exprsJson es, item.Plain
  | [] => by simp [exprsJson]
  | e :: rest => by
    rw [exprsJson, List.forall_mem_cons]
    exact ⟨exprPlain e, exprsPlain rest⟩

end

mutual

theorem stmtPlain : (s : Stmt) → s.toJson.Plain
  | .expr value => by
    simp [Stmt.toJson, Json.form, exprPlain value]
  | .define name type value span => by
    have typed : (Json.ofOption ProcType.toJson type).Plain :=
      plainOption fun t _ => procTypePlain t
    have set : (Json.ofOption Expr.toJson value).Plain := plainOption fun e _ => exprPlain e
    simp [Stmt.toJson, Json.form, typed, set, spanPlain]
  | .assign target value span => by
    simp [Stmt.toJson, Json.form, exprPlain value, spanPlain]
  | .raise kind args span => by
    have named : (Json.ofOption .string kind).Plain := plainOption fun name _ => plainString name
    have given := exprsPlain args
    simp only [Stmt.toJson, Json.form, plainObject, List.forall_mem_cons]
    exact ⟨plainString _, named, .array given, spanPlain span, by simp⟩
  | .branch arms otherwise => by
    have each := armsPlain arms
    have last := elsePlain otherwise
    simp only [Stmt.toJson, Json.form, plainObject, List.forall_mem_cons]
    exact ⟨plainString _, .array each, last, by simp⟩
  | .loop cond body => by
    have inside := blockPlain body
    simp only [Stmt.toJson, Json.form, plainObject, List.forall_mem_cons]
    exact ⟨plainString _, exprPlain cond, .array inside, by simp⟩
  | .protect body handlers cleanup => by
    have inside := blockPlain body
    have each := handlersPlain handlers
    have last := elsePlain cleanup
    simp only [Stmt.toJson, Json.form, plainObject, List.forall_mem_cons]
    exact ⟨plainString _, .array inside, .array each, last, by simp⟩
  | .block body => by
    have inside := blockPlain body
    simp only [Stmt.toJson, Json.form, plainObject, List.forall_mem_cons]
    exact ⟨plainString _, .array inside, by simp⟩
  | .exit value => by
    have result : (Json.ofOption Expr.toJson value).Plain := plainOption fun e _ => exprPlain e
    simp [Stmt.toJson, Json.form, result]
  | .marker label span => by
    have named : (Json.ofOption .string label).Plain := plainOption fun name _ => plainString name
    simp [Stmt.toJson, Json.form, named, spanPlain]

theorem blockPlain : (body : List Stmt) → ∀ item ∈ blockJson body, item.Plain
  | [] => by simp [blockJson]
  | stmt :: rest => by
    rw [blockJson, List.forall_mem_cons]
    exact ⟨stmtPlain stmt, blockPlain rest⟩

theorem elsePlain : (otherwise : Option (List Stmt)) → (blockJson? otherwise).Plain
  | none => by simp [blockJson?]
  | some body => by
    rw [blockJson?]
    exact .array (blockPlain body)

theorem armsPlain : (arms : List BranchArm) → ∀ item ∈ armsJson arms, item.Plain
  | [] => by simp [armsJson]
  | .mk cond body :: rest => by
    have inside := blockPlain body
    rw [armsJson, List.forall_mem_cons]
    refine ⟨?_, armsPlain rest⟩
    simp only [plainObject, List.forall_mem_cons]
    exact ⟨exprPlain cond, .array inside, by simp⟩

theorem handlersPlain : (handlers : List Handler) → ∀ item ∈ handlersJson handlers, item.Plain
  | [] => by simp [handlersJson]
  | .mk kinds body :: rest => by
    have inside := blockPlain body
    rw [handlersJson, List.forall_mem_cons]
    refine ⟨?_, handlersPlain rest⟩
    simp only [plainObject, List.forall_mem_cons]
    exact ⟨plainStrings kinds, .array inside, by simp⟩

end

theorem routinePlain (r : Routine) : r.toJson.Plain := by
  have params : (Json.ofList Param.toJson r.params).Plain := plainList fun p _ => paramPlain p
  have effects := clausesPlain r.effects
  have body := elsePlain r.body
  simp only [Routine.toJson, plainObject, List.forall_mem_cons]
  exact ⟨plainString _, plainString _, plainString _, params, effects, body, spanPlain _, by simp⟩

theorem programPlain (p : Program) : p.toJson.Plain := by
  have exceptions : (Json.ofList KindDecl.toJson p.exceptionKinds).Plain :=
    plainList fun d _ => kindDeclPlain d
  have tags : (Json.ofList KindDecl.toJson p.tagKinds).Plain := plainList fun d _ => kindDeclPlain d
  have routines : (Json.ofList Routine.toJson p.routines).Plain := plainList fun r _ => routinePlain r
  have globals : (Json.ofList Global.toJson p.globals).Plain := plainList fun g _ => globalPlain g
  simp only [Program.toJson, plainObject, List.forall_mem_cons]
  exact ⟨plainString _, exceptions, tags, routines, globals, by simp⟩

end EffectAudit
