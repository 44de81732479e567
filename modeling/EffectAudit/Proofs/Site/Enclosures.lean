import EffectAudit.Proofs.Site.Numbering
/-! What is around a marker, read off the tree. The walk notes at every marker the arms it has entered.
At a marker outside every `if`, loop and `try` there are none, and at one outside every protected body
none of them is a protected body. -/
namespace EffectAudit

structure Enclosure where
  -- in a part of an `if`, of a loop or of a `try`
  nested : Bool := false
  -- in the body that a `try` protects
  sheltered : Bool := false
  deriving DecidableEq, Repr

namespace Enclosure

def nest (e : Enclosure) : Enclosure := { e with nested := true }

def shelter (_ : Enclosure) : Enclosure := ⟨true, true⟩

end Enclosure

mutual

def Stmt.enclosures : Stmt → List Enclosure
  | .expr _ => []
  | .define .. => []
  | .assign .. => []
  | .raise .. => []
  | .branch arms otherwise =>
    (BranchArm.allEnclosures arms ++ Stmt.optionalEnclosures otherwise).map (·.nest)
  | .loop _ body => (Stmt.allEnclosures body).map (·.nest)
  | .protect body handlers cleanup =>
    (Stmt.allEnclosures body).map (·.shelter) ++
      (Handler.allEnclosures handlers ++ Stmt.optionalEnclosures cleanup).map (·.nest)
  | .block body => Stmt.allEnclosures body
  | .exit _ => []
  | .marker .. => [{}]

def Stmt.allEnclosures : List Stmt → List Enclosure
  | [] => []
  | stmt :: rest => stmt.enclosures ++ Stmt.allEnclosures rest

def Stmt.optionalEnclosures : Option (List Stmt) → List Enclosure
  | none => []
  | some body => Stmt.allEnclosures body

def BranchArm.allEnclosures : List BranchArm → List Enclosure
  | [] => []
  | .mk _ body :: rest => Stmt.allEnclosures body ++ BranchArm.allEnclosures rest

def Handler.allEnclosures : List Handler → List Enclosure
  | [] => []
  | .mk _ body :: rest => Stmt.allEnclosures body ++ Handler.allEnclosures rest

end

def Routine.enclosures (r : Routine) : List Enclosure := Stmt.allEnclosures (r.body.getD [])

def Piece.enclosures : Piece → List Enclosure
  | .stmt code => code.enclosures
  | .block body => Stmt.allEnclosures body
  | .optional body => Stmt.optionalEnclosures body
  | .arms chain otherwise =>
    (BranchArm.allEnclosures chain ++ Stmt.optionalEnclosures otherwise).map (·.nest)
  | .handlers _ _ list => (Handler.allEnclosures list).map (·.nest)

def Site.Event.markerContext? : Site.Event → Option Site.Context
  | .marker _ context _ => some context
  | _ => none

namespace Collect

def SameShelter (outer inner : Site.Context) : Prop :=
  ∀ ref ∈ inner.arms, ref.arm = .tryBody → ref ∈ outer.arms

structure Fits (outer context : Site.Context) (e : Enclosure) : Prop where
  bare : e.nested = false → context.arms = outer.arms
  unsheltered : e.sheltered = false → SameShelter outer context

def MarkersFit (outer : Site.Context) (events : List Site.Event) (around : List Enclosure) : Prop :=
  List.Forall₂ (Fits outer) (events.filterMap Site.Event.markerContext?) around

section Fits

variable {outer inner : Site.Context} {first second events : List Site.Event}
  {one two around : List Enclosure}

theorem sameShelterEnter {construct : Nat} {arm : Arm} (other : arm ≠ .tryBody) :
    SameShelter outer (outer.enter construct arm) := by
  intro ref member body
  rcases List.mem_append.mp member with inside | own
  · exact inside
  · rw [List.mem_singleton.mp own] at body
    exact absurd body other

theorem sameShelterTrans {middle : Site.Context} (near : SameShelter outer middle)
    (far : SameShelter middle inner) : SameShelter outer inner :=
  fun ref member body => near ref (far ref member body) body

theorem fitNone {context : Site.Context} (plain : EventsAt context events) : MarkersFit outer events [] := by
  have none : events.filterMap Site.Event.markerContext? = [] := by
    rw [List.filterMap_eq_nil_iff]
    intro event member
    have other := (plain event member).2
    cases event with
    | marker label context span => contradiction
    | edge kind target context span => rfl
    | raise raised context span => rfl
    | binding target expected value span => rfl
  unfold MarkersFit
  rw [none]
  exact .nil

theorem fitAppend (left : MarkersFit outer first one) (right : MarkersFit outer second two) :
    MarkersFit outer (first ++ second) (one ++ two) := by
  unfold MarkersFit
  rw [List.filterMap_append]
  exact List.rel_append left right

theorem fitNest (shelter : SameShelter outer inner) (inside : MarkersFit inner events around) :
    MarkersFit outer events (around.map (·.nest)) := by
  refine List.forall₂_map_right_iff.mpr (inside.imp ?_)
  intro context e fits
  refine ⟨by simp [Enclosure.nest], ?_⟩
  intro free
  exact sameShelterTrans shelter (fits.unsheltered free)

theorem fitShelter (inside : MarkersFit inner events around) :
    MarkersFit outer events (around.map (·.shelter)) := by
  refine List.forall₂_map_right_iff.mpr (inside.imp ?_)
  intro context e fits
  exact ⟨by simp [Enclosure.shelter], by simp [Enclosure.shelter]⟩

end Fits

theorem plainFits {u : Setting} {place : Place} {s : Scope} {code : Stmt} (simple : code.isPlain = true) :
    MarkersFit place.context (closingEvents u place s code) code.enclosures := by
  cases code, simple using Stmt.plainCases with
  | marker label span => exact .cons ⟨fun _ => rfl, fun _ _ member _ => member⟩ .nil
  | expr value => exact fitNone (closingAt (by simp))
  | define name type value span => exact fitNone (closingAt (by simp))
  | assign name value span => exact fitNone (closingAt (by simp))
  | raise kind args span => exact fitNone (closingAt (by simp))
  | exit value => exact fitNone (closingAt (by simp))

theorem walkFits {u : Setting} {place : Place} {s s' : Scope} {piece : Piece} {events : List Site.Event}
    (walk : Walk u place s piece s' events) : MarkersFit place.context events piece.enclosures := by
  induction walk with
  | plain simple admitted noted => exact fitAppend (fitNone (notesAt noted)) (plainFits simple)
  | branch chain ih =>
    rw [Piece.enclosures, Stmt.enclosures]
    exact ih
  | loop tested inside ih =>
    rw [Piece.enclosures, Stmt.enclosures]
    exact fitAppend (fitNone (notesAt tested)) (fitNest (sameShelterEnter (by simp)) ih)
  | protect admitted tried handled cleaned attempt handler last =>
    rw [Piece.enclosures, Stmt.enclosures, List.map_append, ← List.append_assoc]
    exact fitAppend (fitAppend (fitShelter attempt) handler) (fitNest (sameShelterEnter (by simp)) last)
  | nested inside ih =>
    rw [Piece.enclosures, Stmt.enclosures]
    exact ih
  | nil => exact .nil
  | cons one more first rest => exact fitAppend first rest
  | absent => exact .nil
  | present inside ih => exact ih
  | skipped last ih => exact fitNest (fun _ member _ => member) ih
  | @arm place s s₁ s₂ cond body rest otherwise test own others tested taken more first later =>
    have entered (index : Nat) : SameShelter place.context
        (place.context.enter s.nextConstruct (.branch index)) := sameShelterEnter (by simp)
    have skipped := fitNest (entered 1) later
    rw [Piece.enclosures, List.map_map] at skipped
    rw [Piece.enclosures, BranchArm.allEnclosures, List.append_assoc (Stmt.allEnclosures body),
      List.map_append]
    exact fitAppend (fitAppend (fitNone (notesAt tested)) (fitNest (entered 0) first)) skipped
  | unhandled => exact .nil
  | handler one more first rest =>
    rw [Piece.enclosures, Handler.allEnclosures, List.map_append]
    exact fitAppend (fitNest (sameShelterEnter (by simp)) first) rest

end Collect
end EffectAudit
