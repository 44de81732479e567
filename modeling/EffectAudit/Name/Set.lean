/-! Finite sets of names, listed by code point. The order is part of the type, so two sets with
the same members are equal and a listing needs no sorting. -/
namespace EffectAudit

structure NameSet where
  toList : List String
  sorted : toList.Pairwise (· < ·)
  deriving DecidableEq, Repr

namespace NameSet

def insertSorted (name : String) : List String → List String
  | [] => [name]
  | head :: rest =>
    if name < head then name :: head :: rest
    else if name = head then head :: rest
    else head :: insertSorted name rest

theorem memInsertSorted {name x : String} {names : List String} :
    x ∈ insertSorted name names ↔ x = name ∨ x ∈ names := by
  induction names with
  | nil => simp [insertSorted]
  | cons head rest ih => grind [insertSorted]

theorem insertSortedPairwise {name : String} {names : List String}
    (h : names.Pairwise (· < ·)) : (insertSorted name names).Pairwise (· < ·) := by
  induction names with
  | nil => simp [insertSorted]
  | cons head rest ih =>
    rw [List.pairwise_cons] at h
    unfold insertSorted
    split
    · grind [List.pairwise_cons]
    · split
      · exact List.pairwise_cons.mpr h
      · refine List.pairwise_cons.mpr ⟨?_, ih h.2⟩
        intro x hx
        rcases memInsertSorted.mp hx with same | inside
        · subst same; grind
        · exact h.1 x inside

def mergeName (name : String) (rest : List String → List String) : List String → List String
  | [] => name :: rest []
  | head :: tail =>
    if name < head then name :: rest (head :: tail)
    else if name = head then name :: rest tail
    else head :: mergeName name rest tail

def mergeSorted : List String → List String → List String
  | [], b => b
  | name :: rest, b => mergeName name (mergeSorted rest) b

theorem memMergeSorted {x : String} {a b : List String} :
    x ∈ mergeSorted a b ↔ x ∈ a ∨ x ∈ b := by
  induction a generalizing b with
  | nil => simp [mergeSorted]
  | cons name rest ih =>
    simp only [mergeSorted]
    induction b with
    | nil => simp [mergeName, ih]
    | cons head tail ihb =>
      unfold mergeName
      grind

theorem mergeSortedPairwise {a b : List String} (ha : a.Pairwise (· < ·))
    (hb : b.Pairwise (· < ·)) : (mergeSorted a b).Pairwise (· < ·) := by
  induction a generalizing b with
  | nil => exact hb
  | cons name rest ih =>
    rw [List.pairwise_cons] at ha
    have above {x : String} {b : List String} (h : x ∈ mergeSorted (name :: rest) b) :
        x = name ∨ x ∈ rest ∨ x ∈ b := by
      simpa [or_assoc] using memMergeSorted.mp h
    simp only [mergeSorted] at above ⊢
    induction b with
    | nil =>
      refine List.pairwise_cons.mpr ⟨?_, ih ha.2 .nil⟩
      intro x hx
      grind [memMergeSorted]
    | cons head tail ihb =>
      have hb' := List.pairwise_cons.mp hb
      unfold mergeName
      split
      · refine List.pairwise_cons.mpr ⟨?_, ih ha.2 hb⟩
        intro x hx
        rcases memMergeSorted.mp hx with inside | inside <;> grind
      · split
        · refine List.pairwise_cons.mpr ⟨?_, ih ha.2 hb'.2⟩
          intro x hx
          rcases memMergeSorted.mp hx with inside | inside <;> grind
        · refine List.pairwise_cons.mpr ⟨?_, ihb hb'.2⟩
          intro x hx
          rcases above hx with same | inside | inside <;> grind

def empty : NameSet := ⟨[], .nil⟩

instance : EmptyCollection NameSet := ⟨empty⟩
instance : Inhabited NameSet := ⟨empty⟩
instance : Membership String NameSet := ⟨fun s name => name ∈ s.toList⟩

instance (name : String) (s : NameSet) : Decidable (name ∈ s) :=
  inferInstanceAs (Decidable (name ∈ s.toList))

theorem memIff {name : String} {s : NameSet} : name ∈ s ↔ name ∈ s.toList := Iff.rfl

def isEmpty (s : NameSet) : Bool := s.toList.isEmpty

def insert (s : NameSet) (name : String) : NameSet :=
  ⟨insertSorted name s.toList, insertSortedPairwise s.sorted⟩

def ofList (names : List String) : NameSet :=
  names.foldl insert empty

def union (s t : NameSet) : NameSet :=
  ⟨mergeSorted s.toList t.toList, mergeSortedPairwise s.sorted t.sorted⟩

def filter (p : String → Bool) (s : NameSet) : NameSet :=
  ⟨s.toList.filter p, s.sorted.sublist List.filter_sublist⟩

def erase (s : NameSet) (name : String) : NameSet :=
  s.filter (· != name)

@[simp] theorem notMemEmpty (name : String) : name ∉ (∅ : NameSet) :=
  List.not_mem_nil

@[simp] theorem memInsert {name x : String} {s : NameSet} :
    x ∈ s.insert name ↔ x = name ∨ x ∈ s :=
  memInsertSorted

@[simp] theorem memFilter {p : String → Bool} {x : String} {s : NameSet} :
    x ∈ s.filter p ↔ x ∈ s ∧ p x = true :=
  List.mem_filter

theorem memInsertAll {names : List String} {s : NameSet} {x : String} :
    x ∈ names.foldl insert s ↔ x ∈ s ∨ x ∈ names := by
  induction names generalizing s with
  | nil => simp
  | cons head rest ih => simp only [List.foldl_cons, ih, memInsert, List.mem_cons]; grind

@[simp] theorem memUnion {s t : NameSet} {x : String} : x ∈ s.union t ↔ x ∈ s ∨ x ∈ t :=
  memMergeSorted

@[simp] theorem memOfList {names : List String} {x : String} : x ∈ ofList names ↔ x ∈ names := by
  simp only [ofList, memInsertAll]
  exact or_iff_right List.not_mem_nil

theorem toListEqual {a b : List String} (ha : a.Pairwise (· < ·)) (hb : b.Pairwise (· < ·))
    (h : ∀ x, x ∈ a ↔ x ∈ b) : a = b := by
  induction a generalizing b with
  | nil =>
    cases b with
    | nil => rfl
    | cons y ys => exact absurd ((h y).mpr (List.mem_cons_self ..)) List.not_mem_nil
  | cons x xs ih =>
    cases b with
    | nil => exact absurd ((h x).mp (List.mem_cons_self ..)) List.not_mem_nil
    | cons y ys =>
      rw [List.pairwise_cons] at ha hb
      have same : x = y := by
        have hx := (h x).mp (List.mem_cons_self ..)
        have hy := (h y).mpr (List.mem_cons_self ..)
        grind
      subst same
      congr 1
      apply ih ha.2 hb.2
      intro z
      have hz := h z
      grind

@[ext] theorem ext {s t : NameSet} (h : ∀ x, x ∈ s ↔ x ∈ t) : s = t := by
  cases s with
  | mk a ha =>
    cases t with
    | mk b hb =>
      have same : a = b := toListEqual ha hb h
      subst same
      rfl

end NameSet
end EffectAudit
