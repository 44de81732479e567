import Mathlib.Data.List.Forall2
import EffectAudit.Program.Read
import EffectAudit.Proofs.Json.Text
import EffectAudit.Proofs.Program.Written
/-! A program is read back from what it is written as, whatever it is nested like, as long as the
document may be that deep. Statements go through data that has forgotten its document, so what is read
from a value and what is read from the data is one proof, over any format that speaks the value. -/
namespace EffectAudit

namespace Field

theorem uniqueLookup {Node : Type} {entries : List (String × Node)}
    (distinct : (entries.map (·.1)).Nodup) (key : String) :
    unique? entries key = some (entries.lookup key) := by
  induction entries with
  | nil => rfl
  | cons entry rest ih =>
    rw [List.map_cons, List.nodup_cons] at distinct
    have more := ih distinct.2
    by_cases same : entry.1 = key
    · have none : rest.filter (·.1 == key) = [] := by
        rw [List.filter_eq_nil_iff]
        intro other member hit
        have name : other.1 = key := by simpa using hit
        exact distinct.1 (same ▸ name ▸ List.mem_map_of_mem member)
      unfold unique?
      rw [List.filter_cons_of_pos (by simpa using same), none, List.lookup_cons]
      simp [same]
    · unfold unique? at more ⊢
      rw [List.filter_cons_of_neg (by simpa using same), more, List.lookup_cons]
      have differ : (key == entry.1) = false := by simpa using Ne.symm same
      rw [differ]

end Field

theorem mapMSome {α β : Type} {read : α → Option β} {inputs : List α} {outputs : List β}
    (each : List.Forall₂ (fun a b => read a = some b) inputs outputs) :
    inputs.mapM read = some outputs := by
  induction each with
  | nil => rfl
  | cons first _ ih =>
    rw [List.mapM_cons, first, ih]
    rfl

section Spoken

variable {Node : Type} {f : Format Node} {spoken : Json → Node} (speaks : f.Speaks spoken)
include speaks

omit speaks in
theorem fieldsRead (keys : List String) {fields : List (String × Json)}
    (distinct : (fields.map (·.1)).Nodup) :
    keys.mapM (Field.unique? (fields.map fun field => (field.1, spoken field.2))) =
      some (keys.map fun key => (fields.lookup key).map spoken) := by
  have spokenDistinct : ((fields.map fun field => (field.1, spoken field.2)).map (·.1)).Nodup := by
    rwa [List.map_map]
  have found (key : String) : (fields.map fun field => (field.1, spoken field.2)).lookup key =
      (fields.lookup key).map spoken := by
    clear distinct spokenDistinct
    induction fields with
    | nil => rfl
    | cons field rest ih =>
      rw [List.map_cons, List.lookup_cons, List.lookup_cons, ih]
      split
      · rfl
      · rfl
  apply mapMSome
  rw [List.forall₂_map_right_iff, List.forall₂_same]
  intro key _
  rw [Field.uniqueLookup spokenDistinct, found]

theorem recordRead (keys : List String) {fields : List (String × Json)}
    (distinct : (fields.map (·.1)).Nodup) :
    f.record? keys (spoken (.object fields)) =
      some (keys.map fun key => (fields.lookup key).map spoken) := by
  rw [Format.record?, speaks.entries]
  exact fieldsRead keys distinct

theorem uint32Read (value : UInt32) :
    Field.required f.uint32? (some (spoken (.nat value.toNat))) = some value := by
  have small : value.toNat < UInt32.size := value.toNat_lt
  simp [Field.required, Format.uint32?, Format.natBelow, speaks.nat, small]

theorem spanRead (span : Span) : Decode.span? f (spoken span.toJson) = some span := by
  unfold Decode.span? Span.toJson
  rw [recordRead speaks _ (by simp)]
  simp [List.lookup_cons, uint32Read speaks]

theorem itemsRead {α : Type} {read : Node → Option α} {items : List Json} {values : List α}
    (each : List.Forall₂ (fun item value => read (spoken item) = some value) items values) :
    f.listOf read (spoken (.array items)) = some values := by
  rw [Format.listOf, speaks.list, Option.bind_some]
  apply mapMSome
  rw [List.forall₂_map_left_iff]
  exact each

theorem listRead {α : Type} {read : Node → Option α} {encode : α → Json} {items : List α}
    (each : ∀ item ∈ items, read (spoken (encode item)) = some item) :
    f.listOf read (spoken (.ofList encode items)) = some items := by
  apply itemsRead speaks
  rw [List.forall₂_map_left_iff, List.forall₂_same]
  exact each

theorem textsRead (texts : List String) : f.texts (spoken (.strings texts)) = some texts :=
  listRead speaks fun text _ => speaks.text text

theorem optionalRead {α : Type} {read : Node → Option α} {encode : α → Json} {value : Option α}
    (plain : ∀ a ∈ value, (encode a).Plain ∧ encode a ≠ .null)
    (each : ∀ a ∈ value, read (spoken (encode a)) = some a) :
    f.optional read (some (spoken (.ofOption encode value))) = some value := by
  cases value with
  | none => simp [Format.optional, Json.ofOption, speaks.absent]
  | some a =>
    obtain ⟨isPlain, given⟩ := plain a rfl
    simp [Format.optional, Json.ofOption, speaks.present isPlain given, each a rfl]

theorem optionalBlockRead {read : Node → Option (List Stmt)} {body : Option (List Stmt)}
    (each : ∀ stmts ∈ body, read (spoken (.array (blockJson stmts))) = some stmts) :
    f.optional read (some (spoken (blockJson? body))) = some body := by
  have shape : blockJson? body = .ofOption (fun stmts => .array (blockJson stmts)) body := by
    cases body with
    | none => rw [blockJson?, Json.ofOption]
    | some stmts => rw [blockJson?, Json.ofOption]
  rw [shape]
  exact optionalRead speaks (fun stmts _ => ⟨.array (blockPlain stmts), by simp⟩) each

theorem optionalTextsRead (texts : Option (List String)) :
    f.optional f.texts ((texts.map Json.strings).map spoken) = some texts := by
  cases texts with
  | none => rfl
  | some texts =>
    have given : Json.strings texts ≠ .null := by simp [Json.strings, Json.ofList]
    simp [Format.optional, speaks.present (Json.plainStrings texts) given, textsRead speaks]

theorem clausesRead (c : Clauses) :
    Decode.clausesOf? f (["raises", "tags", "forbids"].map fun key =>
      (c.fields.lookup key).map spoken) = some c := by
  obtain ⟨raises, tags, forbids⟩ := c
  have raised : (Clauses.fields ⟨raises, tags, forbids⟩).lookup "raises" = raises.map Json.strings := by
    cases raises <;> cases tags <;> cases forbids <;> simp [Clauses.fields, List.lookup_cons]
  have tagged : (Clauses.fields ⟨raises, tags, forbids⟩).lookup "tags" = tags.map Json.strings := by
    cases raises <;> cases tags <;> cases forbids <;> simp [Clauses.fields, List.lookup_cons]
  have forbidden : Field.withDefault [] f.texts
      (((Clauses.fields ⟨raises, tags, forbids⟩).lookup "forbids").map spoken) = some forbids := by
    cases raises <;> cases tags <;> cases forbids <;>
      simp [Clauses.fields, List.lookup_cons, Field.withDefault, textsRead speaks]
  simp only [List.map_cons, List.map_nil, Decode.clausesOf?, raised, tagged, forbidden,
    optionalTextsRead speaks, Option.bind_eq_bind, Option.bind_some, Option.pure_def]

end Spoken

theorem clausesDistinct (c : Clauses) : (c.fields.map (·.1)).Nodup := by
  obtain ⟨raises, tags, forbids⟩ := c
  cases raises <;> cases tags <;> cases forbids <;> simp [Clauses.fields]

theorem clausesShallow (c : Clauses) : ∀ field ∈ c.fields, field.2.Plain ∧ field.2.height ≤ 1 := by
  have flat (kinds : List Kind) : (Json.strings kinds).height ≤ 1 := by
    have texts : Json.heightList (kinds.map Json.string) ≤ 0 := by
      rw [Json.heightListLe]
      intro item member
      obtain ⟨kind, _, rfl⟩ := List.mem_map.mp member
      exact Nat.le_refl 0
    exact Nat.succ_le_succ texts
  obtain ⟨raises, tags, forbids⟩ := c
  cases raises <;> cases tags <;> cases forbids <;> simp [Clauses.fields, flat]

section Spoken

variable {Node : Type} {f : Format Node} {spoken : Json → Node} (speaks : f.Speaks spoken)
include speaks

theorem procTypeRead {depth : Nat} (shallow : depth + 2 ≤ Json.depthLimit) (t : ProcType) :
    Decode.procType? f depth (spoken t.toJson) = some t := by
  have distinct := clausesDistinct t.effects
  rw [ProcType.toJson, clausesObject, Decode.procType?, speaks.entries]
  refine Option.bind_eq_some_iff.mpr ⟨_, rfl, Option.bind_eq_some_iff.mpr
    ⟨t.effects.fields.map fun field => (field.1, field.2.asData), ?_, ?_⟩⟩
  · apply mapMSome
    rw [List.forall₂_map_left_iff, List.forall₂_map_right_iff, List.forall₂_same]
    intro field member
    obtain ⟨plain, low⟩ := clausesShallow t.effects field member
    dsimp only
    rw [speaks.data plain (by omega)]
    rfl
  · rw [fieldsRead _ distinct]
    simp only [Option.bind_eq_bind, Option.bind_some, clausesRead dataSpeaks, Option.pure_def]

end Spoken

theorem untagRead {key name : String} {fields : List (String × Json)}
    (others : ∀ field ∈ fields, field.1 ≠ key) :
    (Json.form key name fields).asData.untag? key =
      some (.text name, (Json.object fields).asData) := by
  have away : (Json.fieldsAsData fields).filter (·.1.isText key) = [] := by
    rw [List.filter_eq_nil_iff, Json.fieldsAsDataMap]
    intro entry member
    obtain ⟨field, listed, rfl⟩ := List.mem_map.mp member
    simpa [Data.isText] using others field listed
  have kept : (Json.fieldsAsData fields).filter (!·.1.isText key) = Json.fieldsAsData fields := by
    rw [List.filter_eq_self]
    intro entry member
    simpa using List.filter_eq_nil_iff.mp away entry member
  have own : (Data.text key).isText key = true := by simp [Data.isText]
  simp [Json.form, Json.asData, Json.fieldsAsData, Data.untag?, own, away, kept]

theorem roomInForm {key name : String} {fields : List (String × Json)} {room : Nat}
    (shallow : (Json.form key name fields).height ≤ room) :
    ∃ inner, room = inner + 1 ∧ ∀ field ∈ fields, field.2.height ≤ inner := by
  rw [Json.form, Json.height] at shallow
  refine ⟨room - 1, by omega, ?_⟩
  have inside := Json.heightFieldsLe.mp (Nat.le_sub_one_of_lt shallow)
  rw [List.forall_mem_cons] at inside
  exact inside.2

theorem roomInTag {key : String} {content : Json} {room : Nat}
    (shallow : (Json.tagged key content).height ≤ room) :
    ∃ inner, room = inner + 1 ∧ content.height ≤ inner := by
  rw [Json.tagged, Json.height] at shallow
  refine ⟨room - 1, by omega, ?_⟩
  exact Json.heightFieldsLe.mp (Nat.le_sub_one_of_lt shallow) _ (List.mem_singleton_self _)

theorem roomInArray {items : List Json} {room : Nat} (shallow : (Json.array items).height ≤ room) :
    ∀ item ∈ items, item.height ≤ room :=
  Json.heightListLe.mp (Nat.le_of_succ_le shallow)

theorem roomInRecord {fields : List (String × Json)} {room : Nat}
    (shallow : (Json.object fields).height ≤ room) : ∀ field ∈ fields, field.2.height ≤ room :=
  Json.heightFieldsLe.mp (Nat.le_of_succ_le shallow)

namespace Decode

theorem dataSpanRead (span : Span) : dataSpan? (some span.toJson.asData) = some span :=
  spanRead dataSpeaks span

mutual

theorem exprRead : (e : Expr) → ∀ {room : Nat}, e.toJson.height ≤ room →
    expr? room e.toJson.asData = some e
  | .nil, room, shallow => by
    obtain ⟨inner, rfl, _⟩ := roomInForm shallow
    rw [Expr.toJson, expr?, untagRead (by simp)]
    rfl
  | .literal text, room, shallow => by
    obtain ⟨inner, rfl, _⟩ := roomInForm shallow
    rw [Expr.toJson, expr?, untagRead (by simp)]
    simp [Data.name?, recordRead dataSpeaks, List.lookup_cons, Field.required, dataSpeaks.text]
  | .name name, room, shallow => by
    obtain ⟨inner, rfl, _⟩ := roomInForm shallow
    rw [Expr.toJson, expr?, untagRead (by simp)]
    simp [Data.name?, recordRead dataSpeaks, List.lookup_cons, Field.required, dataSpeaks.text]
  | .routine id, room, shallow => by
    obtain ⟨inner, rfl, _⟩ := roomInForm shallow
    rw [Expr.toJson, expr?, untagRead (by simp)]
    simp [Data.name?, recordRead dataSpeaks, List.lookup_cons, Field.required, dataSpeaks.text]
  | .call callee args span, room, shallow => by
    obtain ⟨inner, rfl, fields⟩ := roomInForm shallow
    simp only [List.forall_mem_cons] at fields
    have called := calleeRead callee fields.1
    have given := itemsRead dataSpeaks (exprsRead args (roomInArray fields.2.1))
    rw [Expr.toJson, expr?, untagRead (by simp)]
    simp [Data.name?, recordRead dataSpeaks, List.lookup_cons, Field.required, Field.withDefault, called,
      given, dataSpanRead]

theorem calleeRead : (c : Callee) → ∀ {room : Nat}, c.toJson.height ≤ room →
    callee? room c.toJson.asData = some c
  | .routine id, room, shallow => by
    obtain ⟨inner, rfl, _⟩ := roomInTag shallow
    rw [Callee.toJson, callee?, dataSpeaks.tagged]
    rfl
  | .binding name, room, shallow => by
    obtain ⟨inner, rfl, _⟩ := roomInTag shallow
    rw [Callee.toJson, callee?, dataSpeaks.tagged]
    rfl
  | .computed value, room, shallow => by
    obtain ⟨inner, rfl, content⟩ := roomInTag shallow
    have computed := exprRead value content
    rw [Callee.toJson, callee?, dataSpeaks.tagged]
    simp [computed]

theorem exprsRead : (es : List Expr) → ∀ {room : Nat},
    (∀ item ∈ exprsJson es, item.height ≤ room) →
    List.Forall₂ (fun item e => expr? room item.asData = some e) (exprsJson es) es
  | [], _, _ => .nil
  | e :: rest, room, shallow => by
    rw [exprsJson, List.forall_mem_cons] at shallow
    exact .cons (exprRead e shallow.1) (exprsRead rest shallow.2)

end

theorem stmtForm (s : Stmt) : ∃ name fields, s.toJson = .form "stmt" name fields ∧
    ∀ field ∈ fields, field.1 ≠ "stmt" := by
  cases s <;> exact ⟨_, _, by rw [Stmt.toJson], by simp⟩

theorem optionalExprRead {room : Nat} {value : Option Expr}
    (shallow : (Json.ofOption Expr.toJson value).height ≤ room) :
    data.optional (expr? room) (some (Json.ofOption Expr.toJson value).asData) = some value := by
  apply optionalRead dataSpeaks
  · intro e _
    exact ⟨exprPlain e, by cases e <;> simp [Expr.toJson, Json.form]⟩
  · intro e given
    rw [given] at shallow
    exact exprRead e shallow

theorem optionalTextRead (text : Option String) :
    data.optional data.text? (some (Json.ofOption Json.string text).asData) = some text :=
  optionalRead dataSpeaks (fun name _ => ⟨.string name, by simp⟩) fun name _ => dataSpeaks.text name

theorem optionalTypeRead (type : Option ProcType) :
    data.optional (procType? data 0) (some (Json.ofOption ProcType.toJson type).asData) = some type := by
  apply optionalRead dataSpeaks
  · intro t _
    exact ⟨procTypePlain t, by rw [ProcType.toJson, clausesObject]; simp⟩
  · intro t _
    exact procTypeRead dataSpeaks (by decide) t

theorem stmtOfForm {room : Nat} {name : String} {fields : List (String × Json)}
    (others : ∀ field ∈ fields, field.1 ≠ "stmt") :
    stmt? (room + 1) (Json.form "stmt" name fields).asData =
      stmtForm? room (data.listOf (stmt? room)) name (Json.object fields).asData := by
  rw [stmt?, untagRead others]
  rfl

theorem formRead {keys : List String} {fields : List (String × Json)} {stmt : Stmt}
    {taken : List (Option Data) → Option Stmt} (distinct : (fields.map (·.1)).Nodup)
    (read : taken (keys.map fun key => (fields.lookup key).map Json.asData) = some stmt) :
    (data.record? keys (Json.object fields).asData).bind taken = some stmt := by
  rw [recordRead dataSpeaks keys distinct]
  exact read

section Forms

variable {room : Nat} {block : Data → Option (List Stmt)}

theorem exprFormRead {value : Expr} (read : expr? room value.toJson.asData = some value) :
    stmtForm? room block "expr" (Json.object [("expr", value.toJson)]).asData = some (.expr value) := by
  unfold stmtForm?
  refine formRead ?_ ?_
  · simp
  · simp [List.lookup_cons, Field.required, read]

theorem defineFormRead {name : String} {type : Option ProcType} {value : Option Expr} {span : Span}
    (read : data.optional (expr? room) (some (Json.ofOption Expr.toJson value).asData) = some value) :
    stmtForm? room block "let" (Json.object [("name", .string name),
      ("proc_type", .ofOption ProcType.toJson type), ("value", .ofOption Expr.toJson value),
      ("span", span.toJson)]).asData = some (.define name type value span) := by
  unfold stmtForm?
  refine formRead ?_ ?_
  · simp
  · simp [List.lookup_cons, Field.required, dataSpeaks.text, read, optionalTypeRead, dataSpanRead]

theorem assignFormRead {target : String} {value : Expr} {span : Span}
    (read : expr? room value.toJson.asData = some value) :
    stmtForm? room block "assign" (Json.object [("target", .string target), ("value", value.toJson),
      ("span", span.toJson)]).asData = some (.assign target value span) := by
  unfold stmtForm?
  refine formRead ?_ ?_
  · simp
  · simp [List.lookup_cons, Field.required, dataSpeaks.text, read, dataSpanRead]

theorem raiseFormRead {kind : Option Kind} {args : List Expr} {span : Span}
    (given : data.listOf (expr? room) (Json.array (exprsJson args)).asData = some args) :
    stmtForm? room block "raise" (Json.object [("kind", .ofOption .string kind),
      ("args", .array (exprsJson args)), ("span", span.toJson)]).asData =
        some (.raise kind args span) := by
  unfold stmtForm?
  refine formRead ?_ ?_
  · simp
  · simp [List.lookup_cons, Field.withDefault, optionalTextRead, given, dataSpanRead]

theorem branchFormRead {arms : List BranchArm} {otherwise : Option (List Stmt)}
    (each : data.listOf (arm? room block) (Json.array (armsJson arms)).asData = some arms)
    (last : data.optional block (some (blockJson? otherwise).asData) = some otherwise) :
    stmtForm? room block "if" (Json.object [("arms", .array (armsJson arms)),
      ("else_body", blockJson? otherwise)]).asData = some (.branch arms otherwise) := by
  unfold stmtForm?
  refine formRead ?_ ?_
  · simp
  · simp [List.lookup_cons, Field.required, each, last]

theorem loopFormRead {cond : Expr} {body : List Stmt} (read : expr? room cond.toJson.asData = some cond)
    (inside : block (Json.array (blockJson body)).asData = some body) :
    stmtForm? room block "while" (Json.object [("cond", cond.toJson),
      ("body", .array (blockJson body))]).asData = some (.loop cond body) := by
  unfold stmtForm?
  refine formRead ?_ ?_
  · simp
  · simp [List.lookup_cons, Field.required, read, inside]

theorem protectFormRead {body : List Stmt} {handlers : List Handler} {cleanup : Option (List Stmt)}
    (inside : block (Json.array (blockJson body)).asData = some body)
    (each : data.listOf (handler? block) (Json.array (handlersJson handlers)).asData = some handlers)
    (last : data.optional block (some (blockJson? cleanup).asData) = some cleanup) :
    stmtForm? room block "try" (Json.object [("body", .array (blockJson body)),
      ("handlers", .array (handlersJson handlers)), ("finally", blockJson? cleanup)]).asData =
        some (.protect body handlers cleanup) := by
  unfold stmtForm?
  refine formRead ?_ ?_
  · simp
  · simp [List.lookup_cons, Field.required, Field.withDefault, inside, each, last]

theorem blockFormRead {body : List Stmt}
    (inside : block (Json.array (blockJson body)).asData = some body) :
    stmtForm? room block "block" (Json.object [("body", .array (blockJson body))]).asData =
      some (.block body) := by
  unfold stmtForm?
  refine formRead ?_ ?_
  · simp
  · simp [List.lookup_cons, Field.required, inside]

theorem exitFormRead {value : Option Expr}
    (read : data.optional (expr? room) (some (Json.ofOption Expr.toJson value).asData) = some value) :
    stmtForm? room block "return" (Json.object [("value", .ofOption Expr.toJson value)]).asData =
      some (.exit value) := by
  unfold stmtForm?
  refine formRead ?_ ?_
  · simp
  · simp [List.lookup_cons, read]

theorem markerFormRead {label : Option String} {span : Span} :
    stmtForm? room block "effects_marker" (Json.object [("label", .ofOption .string label),
      ("span", span.toJson)]).asData = some (.marker label span) := by
  unfold stmtForm?
  refine formRead ?_ ?_
  · simp
  · simp [List.lookup_cons, optionalTextRead, dataSpanRead]

end Forms

mutual

theorem stmtRead : (s : Stmt) → ∀ {room : Nat}, s.toJson.height ≤ room →
    stmt? room s.toJson.asData = some s
  | .expr value, room, shallow => by
    obtain ⟨inner, rfl, fields⟩ := roomInForm shallow
    simp only [List.forall_mem_cons] at fields
    have read := exprRead value fields.1
    rw [Stmt.toJson, stmtOfForm (by simp)]
    exact exprFormRead read
  | .define name type value span, room, shallow => by
    obtain ⟨inner, rfl, fields⟩ := roomInForm shallow
    simp only [List.forall_mem_cons] at fields
    have read := optionalExprRead fields.2.2.1
    rw [Stmt.toJson, stmtOfForm (by simp)]
    exact defineFormRead read
  | .assign target value span, room, shallow => by
    obtain ⟨inner, rfl, fields⟩ := roomInForm shallow
    simp only [List.forall_mem_cons] at fields
    have read := exprRead value fields.2.1
    rw [Stmt.toJson, stmtOfForm (by simp)]
    exact assignFormRead read
  | .raise kind args span, room, shallow => by
    obtain ⟨inner, rfl, fields⟩ := roomInForm shallow
    simp only [List.forall_mem_cons] at fields
    have given := itemsRead dataSpeaks (exprsRead args (roomInArray fields.2.1))
    rw [Stmt.toJson, stmtOfForm (by simp)]
    exact raiseFormRead given
  | .branch arms otherwise, room, shallow => by
    obtain ⟨inner, rfl, fields⟩ := roomInForm shallow
    simp only [List.forall_mem_cons] at fields
    have each := itemsRead dataSpeaks (armsRead arms (roomInArray fields.1))
    have last := elseRead otherwise fields.2.1
    rw [Stmt.toJson, stmtOfForm (by simp)]
    exact branchFormRead each last
  | .loop cond body, room, shallow => by
    obtain ⟨inner, rfl, fields⟩ := roomInForm shallow
    simp only [List.forall_mem_cons] at fields
    have read := exprRead cond fields.1
    have inside := itemsRead dataSpeaks (blockRead body (roomInArray fields.2.1))
    rw [Stmt.toJson, stmtOfForm (by simp)]
    exact loopFormRead read inside
  | .protect body handlers cleanup, room, shallow => by
    obtain ⟨inner, rfl, fields⟩ := roomInForm shallow
    simp only [List.forall_mem_cons] at fields
    have inside := itemsRead dataSpeaks (blockRead body (roomInArray fields.1))
    have each := itemsRead dataSpeaks (handlersRead handlers (roomInArray fields.2.1))
    have last := elseRead cleanup fields.2.2.1
    rw [Stmt.toJson, stmtOfForm (by simp)]
    exact protectFormRead inside each last
  | .block body, room, shallow => by
    obtain ⟨inner, rfl, fields⟩ := roomInForm shallow
    simp only [List.forall_mem_cons] at fields
    have inside := itemsRead dataSpeaks (blockRead body (roomInArray fields.1))
    rw [Stmt.toJson, stmtOfForm (by simp)]
    exact blockFormRead inside
  | .exit value, room, shallow => by
    obtain ⟨inner, rfl, fields⟩ := roomInForm shallow
    simp only [List.forall_mem_cons] at fields
    have read := optionalExprRead fields.1
    rw [Stmt.toJson, stmtOfForm (by simp)]
    exact exitFormRead read
  | .marker label span, room, shallow => by
    obtain ⟨inner, rfl, fields⟩ := roomInForm shallow
    rw [Stmt.toJson, stmtOfForm (by simp)]
    exact markerFormRead

theorem blockRead : (body : List Stmt) → ∀ {room : Nat},
    (∀ item ∈ blockJson body, item.height ≤ room) →
    List.Forall₂ (fun item stmt => stmt? room item.asData = some stmt) (blockJson body) body
  | [], _, _ => .nil
  | stmt :: rest, room, shallow => by
    rw [blockJson, List.forall_mem_cons] at shallow
    exact .cons (stmtRead stmt shallow.1) (blockRead rest shallow.2)

theorem elseRead : (otherwise : Option (List Stmt)) → ∀ {room : Nat},
    (blockJson? otherwise).height ≤ room →
    data.optional (data.listOf (stmt? room)) (some (blockJson? otherwise).asData) = some otherwise
  | none, _, _ => rfl
  | some body, room, shallow => by
    have inside := itemsRead dataSpeaks (blockRead body (roomInArray shallow))
    refine optionalBlockRead dataSpeaks fun stmts given => ?_
    cases given
    exact inside

theorem armsRead : (arms : List BranchArm) → ∀ {room : Nat},
    (∀ item ∈ armsJson arms, item.height ≤ room) →
    List.Forall₂ (fun item arm => arm? room (data.listOf (stmt? room)) item.asData = some arm)
      (armsJson arms) arms
  | [], _, _ => .nil
  | .mk cond body :: rest, room, shallow => by
    rw [armsJson, List.forall_mem_cons] at shallow
    have fields := roomInRecord shallow.1
    simp only [List.forall_mem_cons] at fields
    have read := exprRead cond fields.1
    have inside := itemsRead dataSpeaks (blockRead body (roomInArray fields.2.1))
    refine .cons ?_ (armsRead rest shallow.2)
    simp [arm?, recordRead dataSpeaks, List.lookup_cons, Field.required, read, inside]

theorem handlersRead : (handlers : List Handler) → ∀ {room : Nat},
    (∀ item ∈ handlersJson handlers, item.height ≤ room) →
    List.Forall₂ (fun item handler => handler? (data.listOf (stmt? room)) item.asData = some handler)
      (handlersJson handlers) handlers
  | [], _, _ => .nil
  | .mk kinds body :: rest, room, shallow => by
    rw [handlersJson, List.forall_mem_cons] at shallow
    have fields := roomInRecord shallow.1
    simp only [List.forall_mem_cons] at fields
    have inside := itemsRead dataSpeaks (blockRead body (roomInArray fields.2.1))
    refine .cons ?_ (handlersRead rest shallow.2)
    simp [handler?, recordRead dataSpeaks, List.lookup_cons, Field.withDefault, textsRead dataSpeaks,
      inside]

end

theorem outerStmtRead (s : Stmt) {depth : Nat} (shallow : s.toJson.height + depth ≤ Json.depthLimit) :
    outerStmt? Json.format depth s.toJson = some s := by
  have content : Json.format.formData? "stmt" depth s.toJson = some s.toJson.asData :=
    (if_pos shallow).trans (Json.plainData (stmtPlain s))
  have read := stmtRead s (Nat.le_succ s.toJson.height)
  obtain ⟨name, fields, shape, others⟩ := stmtForm s
  rw [shape] at content read ⊢
  rw [stmtOfForm others] at read
  rw [outerStmt?, content]
  simp only [Option.bind_eq_bind, Option.bind_some, untagRead others, Data.format, Data.name?,
    Json.asDataHeight]
  exact read

theorem jsonRecordRead (keys : List String) {fields : List (String × Json)}
    (distinct : (fields.map (·.1)).Nodup) :
    Json.format.record? keys (.object fields) = some (keys.map fun key => fields.lookup key) := by
  simpa using recordRead jsonSpeaks keys distinct

theorem kindDeclRead (d : KindDecl) : kindDecl? Json.format d.toJson = some d := by
  have named : Json.format.text? (.string d.name) = some d.name := rfl
  have parent : Json.format.optional Json.format.text? (some (Json.ofOption Json.string d.parent)) =
      some d.parent :=
    optionalRead jsonSpeaks (fun name _ => ⟨.string name, by simp⟩) fun name _ => jsonSpeaks.text name
  have tracked : Json.format.bool? (.bool d.tracked) = some d.tracked := rfl
  simp [kindDecl?, KindDecl.toJson, jsonRecordRead, List.lookup_cons, Field.required, Field.withDefault,
    named, parent, tracked]

theorem paramRead {depth : Nat} (shallow : depth + 4 ≤ Json.depthLimit) (p : Param) :
    param? Json.format depth p.toJson = some p := by
  have named : Json.format.text? (.string p.name) = some p.name := rfl
  have typed : paramType? Json.format (depth + 1) p.type.toJson = some p.type := by
    cases p.type with
    | value => rfl
    | proc type =>
      have read : procType? Json.format (depth + 1 + 1) type.toJson = some type :=
        procTypeRead jsonSpeaks shallow type
      change (procType? Json.format (depth + 1 + 1) type.toJson).map ParamType.proc = _
      rw [read, Option.map_some]
  simp [param?, Param.toJson, jsonRecordRead, List.lookup_cons, Field.required, Field.withDefault, named,
    typed]

theorem globalRead {depth : Nat} (shallow : depth + 3 ≤ Json.depthLimit) (g : Global) :
    global? Json.format depth g.toJson = some g := by
  have named : Json.format.text? (.string g.name) = some g.name := rfl
  have typed : procType? Json.format (depth + 1) g.type.toJson = some g.type :=
    procTypeRead jsonSpeaks shallow g.type
  have placed : span? Json.format g.span.toJson = some g.span := spanRead jsonSpeaks g.span
  simp [global?, Global.toJson, jsonRecordRead, List.lookup_cons, Field.required, Field.withDefault,
    named, typed, placed]

theorem objectHeight {fields : List (String × Json)} {depth : Nat}
    (shallow : (Json.object fields).height + depth ≤ Json.depthLimit) :
    ∀ field ∈ fields, field.2.height + (depth + 1) ≤ Json.depthLimit := by
  intro field member
  have low := Json.heightFieldsLe.mp (Nat.le_refl (Json.heightFields fields)) field member
  rw [Json.height] at shallow
  omega

theorem arrayHeight {items : List Json} {depth : Nat}
    (shallow : (Json.array items).height + depth ≤ Json.depthLimit) :
    ∀ item ∈ items, item.height + (depth + 1) ≤ Json.depthLimit := by
  intro item member
  have low := Json.heightListLe.mp (Nat.le_refl (Json.heightList items)) item member
  rw [Json.height] at shallow
  omega

theorem outerBlockRead (body : List Stmt) {depth : Nat}
    (shallow : ∀ item ∈ blockJson body, item.height + depth ≤ Json.depthLimit) :
    List.Forall₂ (fun item stmt => outerStmt? Json.format depth item = some stmt) (blockJson body)
      body := by
  induction body with
  | nil => exact .nil
  | cons stmt rest ih =>
    rw [blockJson, List.forall_mem_cons] at shallow
    exact .cons (outerStmtRead stmt shallow.1) (ih shallow.2)

theorem routineRead {depth : Nat} (r : Routine) (few : depth + 6 ≤ Json.depthLimit)
    (shallow : r.toJson.height + depth ≤ Json.depthLimit) :
    routine? Json.format depth r.toJson = some r := by
  have named : Json.format.text? (.string r.id) = some r.id := rfl
  have kind : routineKind? Json.format (.string r.kind.name) = some r.kind := by
    cases r.kind <;> rfl
  have origin : origin? Json.format (.string r.origin.name) = some r.origin := by
    cases r.origin <;> rfl
  have params : Json.format.listOf (param? Json.format (depth + 2)) (.ofList Param.toJson r.params) =
      some r.params := listRead jsonSpeaks fun p _ => paramRead few p
  have effects : clauses? Json.format r.effects.toJson = some r.effects := by
    rw [clausesObject, clauses?, jsonRecordRead _ (clausesDistinct _)]
    simpa using clausesRead jsonSpeaks r.effects
  have body : Json.format.optional (Json.format.listOf (outerStmt? Json.format (depth + 2)))
      (some (blockJson? r.body)) = some r.body := by
    have low := objectHeight shallow ("body", blockJson? r.body) (by simp)
    refine optionalBlockRead jsonSpeaks fun stmts given => ?_
    rw [given] at low
    exact itemsRead jsonSpeaks (outerBlockRead stmts (arrayHeight low))
  have placed : span? Json.format r.span.toJson = some r.span := spanRead jsonSpeaks r.span
  simp [routine?, Routine.toJson, jsonRecordRead, List.lookup_cons, Field.required, Field.withDefault,
    named, kind, origin, params, effects, body, placed]

theorem programRead (p : Program) (shallow : p.toJson.height ≤ Json.depthLimit) :
    program? Json.format p.toJson = some p := by
  have named : Json.format.text? (.string p.unit) = some p.unit := rfl
  have exceptions : Json.format.listOf (kindDecl? Json.format)
      (.ofList KindDecl.toJson p.exceptionKinds) = some p.exceptionKinds :=
    listRead jsonSpeaks fun d _ => kindDeclRead d
  have tags : Json.format.listOf (kindDecl? Json.format) (.ofList KindDecl.toJson p.tagKinds) =
      some p.tagKinds := listRead jsonSpeaks fun d _ => kindDeclRead d
  have routines : Json.format.listOf (routine? Json.format 2) (.ofList Routine.toJson p.routines) =
      some p.routines := by
    have whole : p.toJson.height + 0 ≤ Json.depthLimit := shallow
    have low := objectHeight whole ("routines", .ofList Routine.toJson p.routines) (by simp)
    refine listRead jsonSpeaks fun r member => ?_
    exact routineRead r (by decide) (arrayHeight low _ (List.mem_map_of_mem member))
  have globals : Json.format.listOf (global? Json.format 2) (.ofList Global.toJson p.globals) =
      some p.globals := listRead jsonSpeaks fun g _ => globalRead (by decide) g
  simp [program?, Program.toJson, jsonRecordRead, List.lookup_cons, Field.required, Field.withDefault,
    named, exceptions, tags, routines, globals]

end Decode

theorem programsSurviveWriting (p : Program) (named : Text.isBlank p.unit = false)
    (shallow : p.toJson.height < 128) :
    Program.read p.toJson.compact .json = .ok p ∧
      ∀ text, Json.parse? text = some p.toJson → Program.read text .json = .ok p := by
  have decoded := Decode.programRead p (Nat.le_of_lt_succ shallow)
  have spelled (text : String) (parsed : Json.parse? text = some p.toJson) :
      Program.read text .json = .ok p := by
    have found : Program.ofText? text .json = some p := by
      rw [Program.ofText?, parsed, Option.bind_some, decoded]
    rw [Program.read, found]
    exact if_neg (by rw [named]; decide)
  exact ⟨spelled _ (Json.parseCompact (programPlain p)), spelled⟩

def archive : Program :=
  { unit := "archive"
    exceptionKinds := [⟨"Full", some "IOError", true⟩, ⟨"Odd \"\n", none, false⟩]
    globals := [{ name := "hook", type := ⟨{ raises := some [], forbids := ["IOEffect"] }⟩ }]
    routines := [
      { id := "store"
        kind := .method
        params := [⟨"item", .value⟩, ⟨"step", .proc ⟨{ tags := some ["WriteIOEffect"] }⟩⟩]
        effects := { raises := some ["Full"], tags := some [] }
        body := some [
          .define "f" (some ⟨{}⟩) none .zero,
          .branch [.mk (.name "item") [
            .protect [.expr (.call (.computed (.call (.routine "pick") [.nil] .zero)) [] ⟨1, 2, 3, 4⟩)]
              [.mk [] [.raise none [] .zero]] (some [])]] none] },
      { id := "pick", origin := .foreign }] }

theorem archiveReadBack :
    archive.toJson.height = 16 ∧ Program.read archive.toJson.compact .json = .ok archive :=
  ⟨by decide +kernel, (programsSurviveWriting archive (by decide +kernel) (by decide +kernel)).1⟩

end EffectAudit
