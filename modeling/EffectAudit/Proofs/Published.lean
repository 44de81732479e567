import Mathlib.Data.List.Basic
import EffectAudit.Published
/-! Published effects are a table read from outside: a name is found exactly when the table has it, and
stands for what callers see. -/
namespace EffectAudit

theorem NameMap.findOfMem {β : Type} {entries : List (String × β)}
    (sorted : entries.Pairwise (·.1 < ·.1)) {name : String} {value : β}
    (member : (name, value) ∈ entries) : NameMap.find name entries = some value := by
  induction entries with
  | nil => simp at member
  | cons head rest ih =>
    obtain ⟨key, old⟩ := head
    rw [List.pairwise_cons] at sorted
    unfold NameMap.find
    rcases List.mem_cons.mp member with same | later
    · cases same
      simp
    · have other : key ≠ name := String.ne_of_lt (sorted.1 (name, value) later)
      rw [if_neg other]
      exact ih sorted.2 later

theorem NameMap.foldInsertGet {α β : Type} {entries : List (String × α)}
    (sorted : entries.Pairwise (·.1 < ·.1)) (value : α → β) (m : NameMap β) (name : String) :
    (entries.foldl (fun m e => m.insert e.1 (value e.2)) m).get? name =
      ((NameMap.find name entries).map value).or (m.get? name) := by
  induction entries generalizing m with
  | nil => rfl
  | cons head rest ih =>
    obtain ⟨key, own⟩ := head
    rw [List.pairwise_cons] at sorted
    have first : NameMap.find name ((key, own) :: rest) =
        if key = name then some own else NameMap.find name rest := rfl
    rw [List.foldl_cons, ih sorted.2, NameMap.getInsert, first]
    by_cases here : key = name
    · subst here
      rw [NameMap.findBelow sorted.1, if_pos rfl, if_pos rfl]
      rfl
    · rw [if_neg here, if_neg (fun same => here same.symm)]

namespace PublishedEffects

def entryOf (e : RoutineEffects) : PublishedEntry := ⟨e.raises.resolved, e.tags.resolved⟩

theorem foldInsertGet {entries : List (String × RoutineEffects)}
    (sorted : entries.Pairwise (·.1 < ·.1)) (named : ∀ e ∈ entries, e.2.routine = e.1)
    (p : PublishedEffects) (id : RoutineId) :
    ((entries.map (·.2)).foldl (fun p e => p.insert e.routine (entryOf e)) p).get? id =
      ((NameMap.find id entries).map entryOf).or (p.get? id) := by
  have own : (entries.map (·.2)).foldl (fun p e => p.insert e.routine (entryOf e)) p =
      entries.foldl (fun p e => p.insert e.1 (entryOf e.2)) p := by
    rw [List.foldl_map]
    apply List.foldl_ext
    intro p e member
    rw [named e member]
  have inside : (entries.foldl (fun p e => p.insert e.1 (entryOf e.2)) p).routines =
      entries.foldl (fun m e => m.insert e.1 (entryOf e.2)) p.routines :=
    (List.foldl_hom routines fun _ _ => rfl).symm
  rw [own, get?, inside, NameMap.foldInsertGet sorted]
  rfl

theorem ofTableGet {t : EffectTable} (named : ∀ id e, t.get? id = some e → e.routine = id)
    (unit : String) (id : RoutineId) :
    (ofTable unit t).get? id = (t.get? id).map entryOf := by
  have fold := foldInsertGet t.routines.sorted
    (fun e member => named e.1 e.2 (NameMap.findOfMem t.routines.sorted member)) (new unit) id
  have nothing : (new unit).get? id = none := rfl
  rw [nothing, Option.or_none] at fold
  exact fold

end PublishedEffects

theorem Registry.lookupTable {t : EffectTable} (named : ∀ id e, t.get? id = some e → e.routine = id)
    (unit : String) (id : RoutineId) (category : Category) :
    (Registry.mk [.ofTable unit t]).lookup? id category =
      (t.get? id).map fun e => (e.get category).resolved := by
  unfold Registry.lookup?
  rw [List.findSome?_cons, PublishedEffects.ofTableGet named]
  cases t.get? id with
  | none => rfl
  | some e => cases category <;> rfl

end EffectAudit
