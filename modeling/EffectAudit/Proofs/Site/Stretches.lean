import EffectAudit.Proofs.Site.Leaves
/-! How the sites of one construct lie among the others. The walk finishes a construct before it goes on,
so what the construct encloses is one stretch of the walk: once it has been left, no later site is
inside it. Around any one site every construct stands once, outer ones with smaller numbers. -/
namespace EffectAudit
namespace Collect

def Encloses (construct : Nat) (context : Site.Context) : Prop :=
  ∃ ref ∈ context.arms, ref.construct = construct

def Rising (context : Site.Context) : Prop :=
  context.arms.Pairwise fun outer inner => outer.construct < inner.construct

theorem risingUnique {context : Site.Context} (rising : Rising context) {a b : ArmRef}
    (one : a ∈ context.arms) (two : b ∈ context.arms) (same : a.construct = b.construct) : a = b := by
  have distinct : (context.arms.map (·.construct)).Nodup :=
    List.pairwise_map.mpr (rising.imp Nat.ne_of_lt)
  exact List.inj_on_of_nodup_map distinct one two same

theorem enclosesLeaf {construct : Nat} {h : Hierarchy} {leaf : Leaf} :
    Encloses construct (leaf.context h) ↔ construct ∈ leaf.track := by
  simp [Encloses, Leaf.context, Leaf.track, Step.arm]

theorem risingLeaf {h : Hierarchy} {leaf : Leaf} :
    Rising (leaf.context h) ↔ leaf.track.Pairwise (· < ·) := by
  simp [Rising, Leaf.context, Leaf.track, Step.arm, List.pairwise_map]

def homes : List Leaf → List (List Site.Event) → List Leaf
  | leaf :: leaves, events :: parts => events.map (fun _ => leaf) ++ homes leaves parts
  | _, _ => []

theorem homesMember {leaves : List Leaf} {parts : List (List Site.Event)} {leaf : Leaf}
    (member : leaf ∈ homes leaves parts) : leaf ∈ leaves := by
  fun_induction homes leaves parts with
  | case1 first leaves events parts ih =>
    rcases List.mem_append.mp member with own | later
    · obtain ⟨_, _, rfl⟩ := List.mem_map.mp own
      exact List.mem_cons_self ..
    · exact List.mem_cons_of_mem _ (ih later)
  | case2 => simp at member

theorem homesNone (leaves : List Leaf) : homes leaves [] = [] := by
  cases leaves with
  | nil => rfl
  | cons leaf leaves => rfl

theorem homesAppend (first second : List Leaf) (parts : List (List Site.Event)) :
    homes (first ++ second) parts = homes first parts ++ homes second (parts.drop first.length) := by
  induction first generalizing parts with
  | nil => rfl
  | cons leaf first ih =>
    cases parts with
    | nil => simp [homesNone]
    | cons events parts => simp [homes, ih]

theorem homesTogether {construct : Nat} {leaves : List Leaf}
    (together : Together construct (leaves.map Leaf.track)) (parts : List (List Site.Event)) :
    Together construct ((homes leaves parts).map Leaf.track) := by
  obtain ⟨before, inside, after, whole, out, within, left⟩ := together
  obtain ⟨front, late, rfl, fronted, rfl⟩ := List.map_eq_append_iff.mp whole
  obtain ⟨early, middle, rfl, rfl, rfl⟩ := List.map_eq_append_iff.mp fronted
  rw [List.forall_mem_map] at out within left
  refine ⟨_, _, _, by rw [homesAppend, homesAppend, List.map_append, List.map_append], ?_⟩
  simp only [List.forall_mem_map]
  exact ⟨fun leaf member => out leaf (homesMember member),
    fun leaf member => within leaf (homesMember member), fun leaf member => left leaf (homesMember member)⟩

theorem togetherBetween {construct : Nat} {tracks : List (List Nat)} (together : Together construct tracks)
    {i j k : Nat} (upward : i ≤ j ∧ j ≤ k) {start middle stop : List Nat}
    (one : tracks[i]? = some start) (two : tracks[j]? = some middle) (three : tracks[k]? = some stop)
    (opened : construct ∈ start) (still : construct ∈ stop) : construct ∈ middle := by
  obtain ⟨before, inside, after, rfl, out, within, left⟩ := together
  have late : before.length ≤ i := by
    by_contra early
    rw [List.append_assoc, List.getElem?_append_left (by omega)] at one
    exact out start (List.mem_of_getElem? one) opened
  have early : k < (before ++ inside).length := by
    by_contra late
    rw [List.getElem?_append_right (by omega)] at three
    exact left stop (List.mem_of_getElem? three) still
  rw [List.getElem?_append_left (by omega), List.getElem?_append_right (by omega)] at two
  exact within middle (List.mem_of_getElem? two)

section Homes

variable {u : Setting} {leaves : List Leaf} {parts : List (List Site.Event)}

theorem homesFit (gives : List.Forall₂ (Gives u {}) leaves parts) :
    List.Forall₂ (fun leaf event => ∀ c, event.context? = some c → c = leaf.context u.hierarchies.raises)
      (homes leaves parts) parts.flatten := by
  induction gives with
  | nil => exact .nil
  | cons one _ ih =>
    refine List.rel_append ?_ ih
    rw [List.forall₂_map_left_iff, List.forall₂_same]
    exact one.there

theorem eventHome (gives : List.Forall₂ (Gives u {}) leaves parts) {index : Nat} {event : Site.Event}
    (there : parts.flatten[index]? = some event) :
    ∃ leaf, (homes leaves parts)[index]? = some leaf ∧
      ∀ c, event.context? = some c → c = leaf.context u.hierarchies.raises := by
  have related := relatedAt (homesFit gives) index
  rw [there] at related
  generalize (homes leaves parts)[index]? = found at related ⊢
  cases related with
  | some fit => exact ⟨_, rfl, fit⟩

end Homes

theorem homesBetween {body : List Stmt} {next : Nat} (parts : List (List Site.Event)) {i j k : Nat}
    (upward : i ≤ j ∧ j ≤ k) {start middle stop : Leaf}
    (one : (homes (Stmt.allLeaves next body).2 parts)[i]? = some start)
    (two : (homes (Stmt.allLeaves next body).2 parts)[j]? = some middle)
    (three : (homes (Stmt.allLeaves next body).2 parts)[k]? = some stop) {construct : Nat} {h : Hierarchy}
    (opened : Encloses construct (start.context h)) (still : Encloses construct (stop.context h)) :
    Encloses construct (middle.context h) := by
  rw [enclosesLeaf] at opened still ⊢
  refine togetherBetween (homesTogether ((blockNested next body).together construct) parts) upward ?_ ?_ ?_
    opened still
  · rw [List.getElem?_map, one, Option.map_some]
  · rw [List.getElem?_map, two, Option.map_some]
  · rw [List.getElem?_map, three, Option.map_some]

theorem homesRising {body : List Stmt} {next : Nat} {leaf : Leaf}
    (member : leaf ∈ (Stmt.allLeaves next body).2) (h : Hierarchy) : Rising (leaf.context h) :=
  risingLeaf.mpr ((blockNested next body).rising _ (List.mem_map_of_mem member))

section Bodies

variable {u : Setting} {body : List Stmt} {after : Scope} {events : List Site.Event}

theorem bodyRising (walk : Walk u {} {} (.block body) after events) {event : Site.Event}
    (member : event ∈ events) {c : Site.Context} (found : event.context? = some c) : Rising c := by
  obtain ⟨parts, gives, whole⟩ := (walkGathered walk).parts
  rw [whole] at member
  obtain ⟨index, there⟩ := List.mem_iff_getElem?.mp member
  obtain ⟨leaf, home, fit⟩ := eventHome gives there
  rw [fit c found]
  exact homesRising (homesMember (List.mem_of_getElem? home)) _

theorem bodyBetween (walk : Walk u {} {} (.block body) after events) {i j k : Nat}
    (upward : i ≤ j ∧ j ≤ k) {start middle stop : Site.Event} (one : events[i]? = some start)
    (two : events[j]? = some middle) (three : events[k]? = some stop) {c c' c'' : Site.Context}
    (first : start.context? = some c) (second : middle.context? = some c')
    (third : stop.context? = some c'') {construct : Nat} (opened : Encloses construct c)
    (still : Encloses construct c'') : Encloses construct c' := by
  obtain ⟨parts, gives, whole⟩ := (walkGathered walk).parts
  rw [whole] at one two three
  obtain ⟨leaf, home, fit⟩ := eventHome gives one
  obtain ⟨leaf', home', fit'⟩ := eventHome gives two
  obtain ⟨leaf'', home'', fit''⟩ := eventHome gives three
  rw [fit c first] at opened
  rw [fit'' c'' third] at still
  rw [fit' c' second]
  exact homesBetween parts upward home home' home'' opened still

end Bodies

end Collect
end EffectAudit
