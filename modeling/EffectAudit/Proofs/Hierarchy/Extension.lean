import Mathlib.Data.String.Basic
import EffectAudit.Proofs.Hierarchy.Declared
/-! What an extension makes of a hierarchy and when it is refused. Of several declarations of a kind the
last one counts, whatever order kinds and parents come in. The parents are checked first, in the order of
the list; then the kinds are followed upwards, in the order of their bytes. -/
namespace EffectAudit

def nameBytes (name : String) : List UInt8 := name.toUTF8.data.toList

theorem nameBytesSpelled (name : String) :
    nameBytes name = name.toList.flatMap String.utf8EncodeChar := by
  unfold nameBytes
  rw [String.toUTF8_eq_toByteArray, ← String.utf8Encode_toList, List.utf8Encode, List.data_toByteArray]

theorem nameBytesInjective {a b : String} (same : nameBytes a = nameBytes b) : a = b := by
  unfold nameBytes at same
  have data : a.toUTF8 = b.toUTF8 := ByteArray.ext (Array.toList_inj.mp same)
  exact String.toByteArray_inj.mp data

theorem byteLt {m n : Nat} {x y : List UInt8} (small : m < 256) (little : n < 256) :
    UInt8.ofNat m :: x < UInt8.ofNat n :: y ↔ m < n ∨ m = n ∧ x < y := by
  rw [List.cons_lt_cons_iff, UInt8.lt_iff_toNat_lt, ← UInt8.toNat_inj, UInt8.toNat_ofNat_of_lt' small,
    UInt8.toNat_ofNat_of_lt' little]

/- The first byte grows with the number of bytes, and the bytes are the digits of the code point, the
highest first. -/
theorem encodedLt {a b : Char} (lt : a < b) (x y : List UInt8) :
    String.utf8EncodeChar a ++ x < String.utf8EncodeChar b ++ y := by
  have lower : a.val.toNat < b.val.toNat := lt
  have limit : b.val.toNat < 1114112 := by
    have valid := b.valid
    simp only [UInt32.isValidChar, Nat.isValidChar] at valid
    omega
  unfold String.utf8EncodeChar
  generalize a.val.toNat = v at lower ⊢
  generalize b.val.toNat = w at lower limit ⊢
  have second : v / 4096 = v / 64 / 64 := by omega
  have third : v / 262144 = v / 64 / 64 / 64 := by omega
  have second' : w / 4096 = w / 64 / 64 := by omega
  have third' : w / 262144 = w / 64 / 64 / 64 := by omega
  dsimp only
  rw [second, third, second', third']
  split_ifs <;>
    simp (disch := omega) only [List.cons_append, List.nil_append, byteLt, Nat.mod_eq_of_lt] <;> omega

theorem nameBytesLt {a b : String} (lt : a < b) : nameBytes a < nameBytes b := by
  have spelled {cs ds : List Char} (lt : cs < ds) :
      cs.flatMap String.utf8EncodeChar < ds.flatMap String.utf8EncodeChar := by
    induction cs generalizing ds with
    | nil =>
      cases ds with
      | nil => exact absurd lt (List.lt_irrefl _)
      | cons d more =>
        rw [List.flatMap_cons]
        cases spelt : String.utf8EncodeChar d with
        | nil => exact absurd spelt String.utf8EncodeChar_ne_nil
        | cons byte rest => exact List.nil_lt_cons _ _
    | cons c rest ih =>
      cases ds with
      | nil => exact absurd lt (List.not_lt_nil _)
      | cons d more =>
        rw [List.flatMap_cons, List.flatMap_cons]
        rcases List.cons_lt_cons_iff.mp lt with first | ⟨rfl, later⟩
        · exact encodedLt first _ _
        · exact List.append_left_lt (ih later)
  rw [nameBytesSpelled, nameBytesSpelled]
  exact spelled (String.lt_iff_toList_lt.mp lt)

namespace Hierarchy

variable {h : Hierarchy}

def lastDecl? (decls : List KindDecl) (name : Kind) : Option KindDecl :=
  decls.reverse.find? fun decl => decl.name == name && decl.parent != some name

theorem declareFixed (h : Hierarchy) (decls : List KindDecl) :
    (h.declare decls).root = h.root ∧ (h.declare decls).category = h.category ∧
      (h.declare decls).options = h.options :=
  declareKeeps (P := fun g => g.root = h.root ∧ g.category = h.category ∧ g.options = h.options)
    (fun _ _ _ same => same) ⟨rfl, rfl, rfl⟩

theorem insertParent (decl : KindDecl) (name : Kind) :
    (h.insert decl).parent? name =
      if decl.name = name ∧ decl.parent.getD h.root ≠ name then some (decl.parent.getD h.root)
      else h.parent? name := by
  unfold insert parent?
  dsimp only
  by_cases own : decl.parent.getD h.root = decl.name
  · rw [if_pos own, if_neg]
    intro given
    exact given.2 (own.trans given.1)
  · rw [if_neg own, NameMap.getInsert]
    by_cases same : name = decl.name
    · subst same
      rw [if_pos rfl, if_pos ⟨rfl, own⟩]
    · rw [if_neg same, if_neg (fun given => same given.1.symm)]

theorem declaredParent (h : Hierarchy) (decls : List KindDecl) (name : Kind) :
    (h.declare decls).parent? name =
      if name = h.root then h.parent? name
      else ((lastDecl? decls name).map (·.parent.getD h.root)).or (h.parent? name) := by
  induction decls using List.reverseRecOn with
  | nil => simp [declare, lastDecl?]
  | append_singleton decls decl ih =>
    have root := (declareFixed h decls).1
    have step : h.declare (decls ++ [decl]) =
        if decl.name = h.root then h.declare decls else (h.declare decls).insert decl := by
      rw [← root]
      unfold declare
      rw [List.foldl_append, List.foldl_cons, List.foldl_nil]
    have last : lastDecl? (decls ++ [decl]) name =
        if decl.name == name && decl.parent != some name then some decl else lastDecl? decls name := by
      unfold lastDecl?
      rw [List.reverse_append, List.reverse_singleton, List.singleton_append, List.find?_cons]
      cases decl.name == name && decl.parent != some name <;> rfl
    rw [step, last]
    by_cases top : name = h.root
    · rw [if_pos top] at ih ⊢
      split
      · exact ih
      · next other => rw [insertParent, if_neg (fun given => other (given.1.trans top)), ih]
    · rw [if_neg top] at ih ⊢
      by_cases own : decl.name = name
      · -- Without a parent the kind goes under the root, so only a parent that is given is its own.
        have itself : decl.parent.getD h.root = name ↔ decl.parent = some name := by
          cases decl.parent with
          | none => simp [Ne.symm top]
          | some parent => simp
        rw [if_neg (by rw [own]; exact top), insertParent, root, ih]
        by_cases circular : decl.parent = some name
        · simp [circular]
        · have proper : ¬decl.parent.getD h.root = name := fun same => circular (itself.mp same)
          simp [own, circular, proper]
      · have skipped : (decl.name == name && decl.parent != some name) = false := by simp [own]
        have kept : (h.declare (decls ++ [decl])).parent? name = (h.declare decls).parent? name := by
          rw [step]
          split
          · rfl
          · rw [insertParent, if_neg (fun given => own given.1)]
        rw [← step, kept, skipped, ih]
        rfl

def Endless (h : Hierarchy) (kind : Kind) : Prop :=
  ∃ path : Nat → Kind, path 0 = kind ∧ ∀ step, h.parent? (path step) = some (path (step + 1))

theorem endlessClimb {kind : Kind} : h.Endless kind ↔ ∀ steps, ∃ x, h.climb steps kind = some x := by
  constructor
  · intro given steps
    obtain ⟨path, start, onward⟩ := given
    refine ⟨path steps, ?_⟩
    induction steps with
    | zero => rw [climb, start]
    | succ steps ih => rw [climb, ih, Option.bind_some, onward]
  · intro all
    choose path reached using all
    refine ⟨path, ?_, ?_⟩
    · exact Option.some.inj ((reached 0).symm.trans rfl)
    · intro step
      have next := reached (step + 1)
      rwa [climb, reached step, Option.bind_some] at next

theorem endlessIff {kind : Kind} :
    h.Endless kind ↔ h.endsWithin (h.parents.size + 1) kind = false := by
  rw [Bool.eq_false_iff, ne_eq, endsWithinIff, endlessClimb]
  constructor
  · intro all none
    obtain ⟨x, reached⟩ := all (h.parents.size + 2)
    rw [none] at reached
    contradiction
  · intro long
    obtain ⟨x, reached⟩ := Option.ne_none_iff_exists'.mp long
    obtain ⟨low, high, lt, le, same⟩ := climbRepeats reached (by omega)
    intro steps
    induction steps using Nat.strong_induction_on with
    | _ steps ih =>
      by_cases short : steps ≤ h.parents.size + 2
      · obtain ⟨rest, split⟩ := Nat.exists_eq_add_of_le short
        rw [split, climbAdd] at reached
        obtain ⟨y, there, _⟩ := Option.bind_eq_some_iff.mp reached
        exact ⟨y, there⟩
      · obtain ⟨y, there⟩ := ih (low + (steps - high)) (by omega)
        refine ⟨y, ?_⟩
        rw [climbAdd, same, ← climbAdd, show high + (steps - high) = steps by omega] at there
        exact there

def orphans (h : Hierarchy) (decl : KindDecl) : Bool := decl.parent.any fun parent => !h.contains parent

def ParentsKnown (h : Hierarchy) (decls : List KindDecl) : Prop :=
  h.options.strictKinds = true → ∀ decl ∈ decls, h.orphans decl = false

inductive Verdict (after : Hierarchy) (decls : List KindDecl) : Except Error Hierarchy → Prop where
  | unknownParent {decl : KindDecl} {parent : Kind} (strict : after.options.strictKinds = true)
      (first : decls.find? after.orphans = some decl) (named : decl.parent = some parent) :
      Verdict after decls (.error (.unknownKind parent after.category s!"parent of {decl.name}"))
  | cycle {kind : Kind} (known : after.ParentsKnown decls) (endless : after.Endless kind)
      (smallest : ∀ other, after.Endless other → nameBytes kind ≤ nameBytes other) :
      Verdict after decls (.error (.kindCycle kind after.category))
  | accepted (known : after.ParentsKnown decls) (ends : ∀ kind, ¬after.Endless kind) :
      Verdict after decls (.ok after)

theorem checkParentsCons (h : Hierarchy) (decl : KindDecl) (rest : List KindDecl) :
    h.checkParents (decl :: rest) =
      if h.options.strictKinds = true ∧ h.orphans decl = true then
        .error (.unknownKind (decl.parent.getD h.root) h.category s!"parent of {decl.name}")
      else h.checkParents rest := by
  have both (check : KindDecl → Except Error Unit) :
      (decl :: rest).forM check = (check decl >>= fun _ => rest.forM check) := rfl
  unfold checkParents orphans
  rw [both]
  cases decl.parent with
  | none => simp [bind, Except.bind]
  | some parent =>
    by_cases strict : h.options.strictKinds = true <;> by_cases known : h.contains parent = true <;>
      simp [checkKind, strict, known, bind, Except.bind]

theorem checkParentsCases (h : Hierarchy) (decls : List KindDecl) :
    (h.ParentsKnown decls ∧ h.checkParents decls = .ok ()) ∨
      ∃ decl parent, h.options.strictKinds = true ∧ decls.find? h.orphans = some decl ∧
        decl.parent = some parent ∧
        h.checkParents decls = .error (.unknownKind parent h.category s!"parent of {decl.name}") := by
  induction decls with
  | nil => exact .inl ⟨by simp [ParentsKnown], rfl⟩
  | cons decl rest ih =>
    rw [checkParentsCons]
    by_cases bad : h.options.strictKinds = true ∧ h.orphans decl = true
    · right
      obtain ⟨parent, named⟩ : ∃ parent, decl.parent = some parent := by
        cases named : decl.parent with
        | none => simp [orphans, named] at bad
        | some parent => exact ⟨parent, rfl⟩
      refine ⟨decl, parent, bad.1, List.find?_cons_of_pos bad.2, named, ?_⟩
      rw [if_pos bad, named, Option.getD_some]
    · rw [if_neg bad]
      have own (strict : h.options.strictKinds = true) : h.orphans decl = false :=
        Bool.eq_false_iff.mpr fun orphan => bad ⟨strict, orphan⟩
      rcases ih with ⟨known, passed⟩ | ⟨first, parent, strict, found, named, failed⟩
      · exact .inl ⟨fun strict => List.forall_mem_cons.mpr ⟨own strict, known strict⟩, passed⟩
      · refine .inr ⟨first, parent, strict, ?_, named, failed⟩
        rw [List.find?_cons_of_neg (by simp [own strict]), found]

theorem cyclicSome {kind : Kind} (found : h.cyclic? = some kind) :
    h.Endless kind ∧ ∀ other, h.Endless other → nameBytes kind ≤ nameBytes other := by
  obtain ⟨caught, before, rest, listed, passed⟩ := List.find?_eq_some_iff_append.mp found
  refine ⟨endlessIff.mpr (by simpa using caught), ?_⟩
  intro other endless
  have sorted : (before ++ kind :: rest).Pairwise (· < ·) := by
    rw [← listed]
    exact List.pairwise_map.mpr h.parents.sorted
  have entry : other ∈ before ++ kind :: rest := by
    rw [← listed]
    obtain ⟨path, start, onward⟩ := endless
    exact NameMap.memKeys (start ▸ onward 0)
  rcases List.mem_append.mp entry with earlier | later
  · have ends := passed other earlier
    rw [endlessIff.mp endless] at ends
    contradiction
  · rcases List.mem_cons.mp later with same | after
    · rw [same]
      exact List.le_refl _
    · have lt : kind < other := (List.pairwise_cons.mp (List.pairwise_append.mp sorted).2.1).1 other after
      exact List.not_lt.mp (List.lt_asymm (nameBytesLt lt))

theorem checkAcyclicCases (h : Hierarchy) :
    ((∀ kind, ¬h.Endless kind) ∧ h.checkAcyclic = .ok ()) ∨
      ∃ kind, h.Endless kind ∧ (∀ other, h.Endless other → nameBytes kind ≤ nameBytes other) ∧
        h.checkAcyclic = .error (.kindCycle kind h.category) := by
  unfold checkAcyclic
  cases found : h.cyclic? with
  | none =>
    refine .inl ⟨fun kind endless => ?_, rfl⟩
    obtain ⟨x, reached⟩ := endlessClimb.mp endless (h.parents.size + 2)
    rw [cyclicNone.mp found kind] at reached
    contradiction
  | some kind => exact .inr ⟨kind, (cyclicSome found).1, (cyclicSome found).2, rfl⟩

theorem extendVerdict (h : Hierarchy) (decls : List KindDecl) :
    Verdict (h.declare decls) decls (h.extend decls) := by
  have run : h.extend decls = ((h.declare decls).checkParents decls >>= fun _ =>
      (h.declare decls).checkAcyclic >>= fun _ => .ok (h.declare decls)) := rfl
  rw [run]
  rcases checkParentsCases (h.declare decls) decls with ⟨known, passed⟩ |
    ⟨decl, parent, strict, first, named, failed⟩
  · rw [passed]
    rcases checkAcyclicCases (h.declare decls) with ⟨ends, fine⟩ | ⟨kind, endless, smallest, caught⟩
    · rw [fine]
      exact .accepted known ends
    · rw [caught]
      exact .cycle known endless smallest
  · rw [failed]
    exact .unknownParent strict first named

theorem verdictUnique {after : Hierarchy} {decls : List KindDecl} {one two : Except Error Hierarchy}
    (left : Verdict after decls one) (right : Verdict after decls two) : one = two := by
  have orphan {decl : KindDecl} (strict : after.options.strictKinds = true)
      (first : decls.find? after.orphans = some decl) (known : after.ParentsKnown decls) : False := by
    have fine := known strict decl (List.mem_of_find?_eq_some first)
    rw [List.find?_some first] at fine
    contradiction
  cases left with
  | unknownParent strict first named =>
    cases right with
    | unknownParent strict' first' named' =>
      cases first.symm.trans first'
      cases named.symm.trans named'
      rfl
    | cycle known endless smallest => exact (orphan strict first known).elim
    | accepted known ends => exact (orphan strict first known).elim
  | @cycle kind known endless smallest =>
    cases right with
    | unknownParent strict first named => exact (orphan strict first known).elim
    | @cycle kind' known' endless' smallest' =>
      have same : kind = kind' :=
        nameBytesInjective (List.le_antisymm (smallest kind' endless') (smallest' kind endless))
      rw [same]
    | accepted known' ends => exact absurd endless (ends kind)
  | accepted known ends =>
    cases right with
    | unknownParent strict first named => exact (orphan strict first known).elim
    | @cycle kind known' endless smallest => exact absurd endless (ends kind)
    | accepted known' ends' => rfl

theorem extensionRefusedExactly (h : Hierarchy) (decls : List KindDecl) :
    (∀ name, (h.declare decls).parent? name =
        if name = h.root then h.parent? name
        else ((lastDecl? decls name).map (·.parent.getD h.root)).or (h.parent? name)) ∧
      ((h.declare decls).root = h.root ∧ (h.declare decls).category = h.category ∧
        (h.declare decls).options = h.options) ∧
      ∀ result, h.extend decls = result ↔ Verdict (h.declare decls) decls result := by
  refine ⟨declaredParent h decls, declareFixed h decls, ?_⟩
  intro result
  constructor
  · intro same
    rw [← same]
    exact extendVerdict h decls
  · exact verdictUnique (extendVerdict h decls)

end Hierarchy
end EffectAudit
