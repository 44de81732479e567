/-! Finite maps from names, listed by code point of the name. As for `NameSet` the order is part of
the type: maps with the same look-ups are equal. -/
namespace EffectAudit

structure NameMap (β : Type) where
  entries : List (String × β)
  sorted : entries.Pairwise (·.1 < ·.1)
  deriving DecidableEq, Repr

namespace NameMap

variable {β : Type}

def find (name : String) : List (String × β) → Option β
  | [] => none
  | (key, value) :: rest => if key = name then some value else find name rest

def insertSorted (name : String) (value : β) : List (String × β) → List (String × β)
  | [] => [(name, value)]
  | (key, old) :: rest =>
    if name < key then (name, value) :: (key, old) :: rest
    else if name = key then (name, value) :: rest
    else (key, old) :: insertSorted name value rest

theorem insertSortedKey {name : String} {value : β} {entries : List (String × β)}
    {e : String × β} (h : e ∈ insertSorted name value entries) : e.1 = name ∨ e ∈ entries := by
  induction entries with
  | nil => simp [insertSorted] at h; simp [h]
  | cons head rest ih =>
    obtain ⟨key, old⟩ := head
    unfold insertSorted at h
    grind

theorem insertSortedPairwise {name : String} {value : β} {entries : List (String × β)}
    (h : entries.Pairwise (·.1 < ·.1)) : (insertSorted name value entries).Pairwise (·.1 < ·.1) := by
  induction entries with
  | nil => simp [insertSorted]
  | cons head rest ih =>
    obtain ⟨key, old⟩ := head
    rw [List.pairwise_cons] at h
    unfold insertSorted
    split
    · grind [List.pairwise_cons]
    · split
      · next same => subst same; exact List.pairwise_cons.mpr h
      · refine List.pairwise_cons.mpr ⟨?_, ih h.2⟩
        intro e he
        rcases insertSortedKey he with same | inside
        · simp only [same]; grind
        · exact h.1 e inside

def empty : NameMap β := ⟨[], .nil⟩

instance : EmptyCollection (NameMap β) := ⟨empty⟩
instance : Inhabited (NameMap β) := ⟨empty⟩

def get? (m : NameMap β) (name : String) : Option β := find name m.entries

def contains (m : NameMap β) (name : String) : Bool := (m.get? name).isSome

def insert (m : NameMap β) (name : String) (value : β) : NameMap β :=
  ⟨insertSorted name value m.entries, insertSortedPairwise m.sorted⟩

def modify (m : NameMap β) (name : String) (f : β → β) : NameMap β :=
  match m.get? name with
  | none => m
  | some value => m.insert name (f value)

def keys (m : NameMap β) : List String := m.entries.map (·.1)

def values (m : NameMap β) : List β := m.entries.map (·.2)

def size (m : NameMap β) : Nat := m.entries.length

def isEmpty (m : NameMap β) : Bool := m.entries.isEmpty

def ofList (entries : List (String × β)) : NameMap β :=
  entries.foldl (fun m e => m.insert e.1 e.2) empty

theorem insertSortedFind {name x : String} {value : β} {entries : List (String × β)} :
    find x (insertSorted name value entries) = if x = name then some value else find x entries := by
  induction entries with
  | nil => grind [insertSorted, find]
  | cons head rest ih =>
    obtain ⟨key, old⟩ := head
    unfold insertSorted
    grind [find]

@[simp] theorem getEmpty (name : String) : (∅ : NameMap β).get? name = none := rfl

theorem getInsert {m : NameMap β} {name x : String} {value : β} :
    (m.insert name value).get? x = if x = name then some value else m.get? x :=
  insertSortedFind

theorem getModify {m : NameMap β} {name x : String} {f : β → β} :
    (m.modify name f).get? x = if x = name then (m.get? x).map f else m.get? x := by
  unfold modify
  split
  · next absent => grind
  · next value present => rw [getInsert]; grind

theorem findBelow {name : String} {entries : List (String × β)}
    (above : ∀ e ∈ entries, name < e.1) : find name entries = none := by
  induction entries with
  | nil => rfl
  | cons head rest ih =>
    obtain ⟨key, old⟩ := head
    have first : name < key := above (key, old) (List.mem_cons_self ..)
    have others := ih fun e he => above e (List.mem_cons_of_mem _ he)
    grind [find]

theorem entriesEqual {a b : List (String × β)} (ha : a.Pairwise (·.1 < ·.1))
    (hb : b.Pairwise (·.1 < ·.1)) (h : ∀ x, find x a = find x b) : a = b := by
  induction a generalizing b with
  | nil =>
    cases b with
    | nil => rfl
    | cons head rest => have := h head.1; simp [find] at this
  | cons head rest ih =>
    cases b with
    | nil => have := h head.1; simp [find] at this
    | cons other tail =>
      obtain ⟨key, value⟩ := head
      obtain ⟨key', value'⟩ := other
      rw [List.pairwise_cons] at ha hb
      have absent : find key rest = none := findBelow ha.1
      have absent' : find key' tail = none := findBelow hb.1
      have left := h key
      have right := h key'
      have same : key = key' := by
        by_cases lt : key < key'
        · have : find key tail = none :=
            findBelow fun e he => String.lt_trans lt (hb.1 e he)
          grind [find]
        · by_cases gt : key' < key
          · have : find key' rest = none :=
              findBelow fun e he => String.lt_trans gt (ha.1 e he)
            grind [find]
          · exact String.le_antisymm (String.not_lt.mp gt) (String.not_lt.mp lt)
      subst same
      have : value = value' := by simpa [find] using left
      subst this
      congr 1
      apply ih ha.2 hb.2
      intro x
      have look := h x
      by_cases atKey : key = x
      · subst atKey; rw [absent, absent']
      · simpa [find, atKey] using look

@[ext] theorem ext {m n : NameMap β} (h : ∀ x, m.get? x = n.get? x) : m = n := by
  cases m with
  | mk a ha =>
    cases n with
    | mk b hb =>
      have same : a = b := entriesEqual ha hb h
      subst same
      rfl

end NameMap
end EffectAudit
