import Mathlib.Data.List.Nodup
import Mathlib.Data.List.Perm.Subperm
import Mathlib.Logic.Relation
import EffectAudit.Proofs.CallGraph.Search
/-! Closed components are the groups of nodes that reach each other, and none leads to one that is closed
later. While a node is visited, the nodes opened above it are nodes that it reaches, and each of them
leads back to a node that was open before. The number that a visit returns is the lowest open node with
an edge from them: if that is no lower than the node itself, no path leads further down, and what was
opened from the node on is one component. -/
namespace EffectAudit.Components
open Search

abbrev Reaches (successors : Nat → List Nat) : Nat → Nat → Prop :=
  Relation.ReflTransGen fun a b => b ∈ successors a

inductive Settled (successors : Nat → List Nat) : List (List Nat) → Prop where
  | nil : Settled successors []
  | cons {component : List Nat} {earlier : List (List Nat)} (inhabited : component ≠ [])
      (connected : ∀ a ∈ component, ∀ b ∈ component, Reaches successors a b)
      (leads : ∀ a ∈ component, ∀ b ∈ successors a, b ∈ component ∨ b ∈ earlier.flatten)
      (rest : Settled successors earlier) : Settled successors (component :: earlier)

variable {successors : Nat → List Nat}

theorem settledStep {closed : List (List Nat)} (settled : Settled successors closed) {a b : Nat}
    (inside : a ∈ closed.flatten) (edge : b ∈ successors a) : b ∈ closed.flatten := by
  induction settled with
  | nil => simp at inside
  | cons _ _ leads _ ih =>
    rw [List.flatten_cons, List.mem_append] at inside ⊢
    rcases inside with own | before
    · exact leads a own b edge
    · exact .inr (ih before)

theorem settledStays {closed : List (List Nat)} (settled : Settled successors closed) {a b : Nat}
    (inside : a ∈ closed.flatten) (path : Reaches successors a b) : b ∈ closed.flatten := by
  induction path with
  | refl => exact inside
  | tail _ edge ih => exact settledStep settled ih edge

theorem settledConnected {closed : List (List Nat)} (settled : Settled successors closed)
    {component : List Nat} (listed : component ∈ closed) :
    component ≠ [] ∧ ∀ a ∈ component, ∀ b ∈ component, Reaches successors a b := by
  induction settled with
  | nil => simp at listed
  | cons inhabited connected _ _ ih =>
    rcases List.mem_cons.mp listed with rfl | before
    · exact ⟨inhabited, connected⟩
    · exact ih before

theorem settledTogether {closed : List (List Nat)} (settled : Settled successors closed)
    (distinct : closed.flatten.Nodup) {a b : Nat} (inside : a ∈ closed.flatten)
    (out : Reaches successors a b) (back : Reaches successors b a) :
    ∃ component ∈ closed, a ∈ component ∧ b ∈ component := by
  induction settled with
  | nil => simp at inside
  | cons inhabited connected leads rest ih =>
    rename_i component earlier
    have met := settledStays (.cons inhabited connected leads rest) inside out
    rw [List.flatten_cons, List.mem_append] at inside met
    rw [List.flatten_cons] at distinct
    have apart := List.disjoint_of_nodup_append distinct
    rcases inside with own | before
    · rcases met with also | early
      · exact ⟨component, List.mem_cons_self .., own, also⟩
      · exact absurd (settledStays rest early back) (apart own)
    · obtain ⟨found, listed, both⟩ := ih (distinct.of_append_right) before
      exact ⟨found, List.mem_cons_of_mem _ listed, both⟩

theorem settledEarlier {later earlier : List (List Nat)} {component : List Nat}
    (settled : Settled successors (later ++ component :: earlier)) {a b : Nat} (inside : a ∈ component)
    (edge : b ∈ successors a) : b ∈ component ∨ b ∈ earlier.flatten := by
  induction later with
  | nil =>
    cases settled with
    | cons _ _ leads _ => exact leads a inside b edge
  | cons _ _ ih =>
    cases settled with
    | cons _ _ _ rest => exact ih rest

namespace Search

theorem heightOpen {s : Search} {node height : Nat} (known : s.height? node = some height) :
    node ∈ s.stack := by
  by_contra away
  rw [height?, heightNone.mpr away] at known
  contradiction

theorem heightPush (s : Search) (node : Nat) : (s.push node).height? node = some s.stack.length := by
  simp [height?, push, heightIn]

theorem heightBefore {s t : Search} (grown : s.Extends t) {node height : Nat}
    (known : t.height? node = some height) (low : height < s.stack.length) :
    s.height? node = some height := by
  obtain ⟨⟨opened, shape⟩, _⟩ := grown
  rw [height?, shape] at known
  clear shape
  induction opened with
  | nil => exact known
  | cons head below ih =>
    rw [List.cons_append, heightIn] at known
    split at known
    · have above := Option.some.inj known
      rw [List.length_append] at above
      omega
    · exact ih known

theorem heightKept {s t : Search} (grown : s.Extends t) (distinct : t.nodes.Nodup) {node height : Nat}
    (known : s.height? node = some height) : t.height? node = some height := by
  have there := heightOpen known
  obtain ⟨⟨opened, shape⟩, _⟩ := grown
  have stacked := distinct.of_append_left
  rw [shape] at stacked
  have away : node ∉ opened := fun above => List.disjoint_of_nodup_append stacked above there
  rw [height?, shape]
  clear shape stacked
  induction opened with
  | nil => exact known
  | cons head below ih =>
    rw [List.mem_cons, not_or] at away
    rw [List.cons_append, heightIn, if_neg (Ne.symm away.1)]
    exact ih away.2

theorem heightLow {node : Nat} {stack : List Nat} (there : node ∈ stack) :
    ∃ height, heightIn node stack = some height ∧ height < stack.length := by
  induction stack with
  | nil => simp at there
  | cons head below ih =>
    unfold heightIn
    by_cases same : head = node
    · exact ⟨below.length, if_pos same, Nat.lt_succ_self _⟩
    · rw [if_neg same]
      obtain ⟨height, known, low⟩ := ih ((List.mem_cons.mp there).resolve_left (Ne.symm same))
      exact ⟨height, known, Nat.lt_succ_of_lt low⟩

theorem extendsNodes {s t : Search} (grown : s.Extends t) {node : Nat} (there : node ∈ s.nodes) :
    node ∈ t.nodes := by
  obtain ⟨⟨opened, shape⟩, components, closed⟩ := grown
  unfold nodes at there ⊢
  rw [shape, closed, List.flatten_append]
  rcases List.mem_append.mp there with stacked | listed
  · exact List.mem_append_left _ (List.mem_append_right _ stacked)
  · exact List.mem_append_right _ (List.mem_append_right _ listed)

theorem extendsLength {s t : Search} (grown : s.Extends t) : s.nodes.length ≤ t.nodes.length := by
  obtain ⟨⟨opened, shape⟩, components, closed⟩ := grown
  simp only [nodes, shape, closed, List.flatten_append, List.length_append]
  omega

theorem tidyLength {count : Nat} {s : Search} (tidy : s.Tidy count) : s.nodes.length ≤ count := by
  have few := (List.subperm_of_subset tidy.1 fun node there =>
    List.mem_range.mpr (tidy.2 node there)).length_le
  rwa [List.length_range] at few

end Search

/- How a visit of `node`, or a part of it, takes the search from `s` to `t`. What it leaves open was
found from the node, leads back to what was open before and has all its successors met; none of them
was open below `low`, which is itself within reach unless it is above them all. -/
structure Explored (successors : Nat → List Nat) (node low : Nat) (s t : Search) : Prop where
  grown : s.Extends t
  settled : Settled successors t.closed
  found : ∀ a ∈ t.stack, a ∉ s.stack → Reaches successors node a
  returns : ∀ a ∈ t.stack, a ∉ s.stack → ∃ b ∈ s.stack, Reaches successors a b
  met : ∀ a ∈ t.stack, a ∉ s.stack → ∀ b ∈ successors a, b ∈ t.nodes
  bounded : ∀ a ∈ t.stack, a ∉ s.stack → ∀ b ∈ successors a, ∀ height,
    s.height? b = some height → low ≤ height
  attained : low < s.stack.length → ∃ b, s.height? b = some low ∧ Reaches successors node b

def Examined (s t : Search) (low next : Nat) : Prop :=
  next ∈ t.nodes ∧ ∀ height, s.height? next = some height → low ≤ height

theorem exploredStart {s : Search} (settled : Settled successors s.closed) (node : Nat) :
    Explored successors node s.stack.length (s.push node) (s.push node) where
  grown := extendsSelf _
  settled := settled
  found := fun _ there away => absurd there away
  returns := fun _ there away => absurd there away
  met := fun _ there away => absurd there away
  bounded := fun _ there away => absurd there away
  attained := fun _ => ⟨node, heightPush s node, .refl⟩

theorem exploredOpen {s t : Search} {node low next height : Nat}
    (explored : Explored successors node low s t) (edge : next ∈ successors node)
    (known : t.height? next = some height) : Explored successors node (min low height) s t where
  grown := explored.grown
  settled := explored.settled
  found := explored.found
  returns := explored.returns
  met := explored.met
  bounded := fun a there away b leads other seen =>
    Nat.le_trans (Nat.min_le_left low height) (explored.bounded a there away b leads other seen)
  attained := by
    intro inside
    rcases Nat.le_total low height with less | less
    · rw [Nat.min_eq_left less] at inside ⊢
      exact explored.attained inside
    · rw [Nat.min_eq_right less] at inside ⊢
      exact ⟨next, heightBefore explored.grown known inside, .single edge⟩

theorem exploredThen {count : Nat} {s t u : Search} {node low next reached : Nat}
    (first : Explored successors node low s t) (edge : next ∈ successors node) (tidy : t.Tidy count)
    (second : Explored successors next reached t u) :
    Explored successors node (min low reached) s u where
  grown := extendsTrans first.grown second.grown
  settled := second.settled
  found := by
    intro a there away
    by_cases early : a ∈ t.stack
    · exact first.found a early away
    · exact (second.found a there early).head edge
  returns := by
    intro a there away
    by_cases early : a ∈ t.stack
    · exact first.returns a early away
    · obtain ⟨b, open', path⟩ := second.returns a there early
      by_cases below : b ∈ s.stack
      · exact ⟨b, below, path⟩
      · obtain ⟨c, bottom, onward⟩ := first.returns b open' below
        exact ⟨c, bottom, path.trans onward⟩
  met := by
    intro a there away b leads
    by_cases early : a ∈ t.stack
    · exact extendsNodes second.grown (first.met a early away b leads)
    · exact second.met a there early b leads
  bounded := by
    intro a there away b leads height known
    by_cases early : a ∈ t.stack
    · exact Nat.le_trans (Nat.min_le_left low reached)
        (first.bounded a early away b leads height known)
    · exact Nat.le_trans (Nat.min_le_right low reached)
        (second.bounded a there early b leads height (heightKept first.grown tidy.1 known))
  attained := by
    intro inside
    rcases Nat.le_total low reached with less | less
    · rw [Nat.min_eq_left less] at inside ⊢
      exact first.attained inside
    · rw [Nat.min_eq_right less] at inside ⊢
      have within : reached < t.stack.length := by
        obtain ⟨⟨opened, shape⟩, _⟩ := first.grown
        rw [shape, List.length_append]
        omega
      obtain ⟨b, known, path⟩ := second.attained within
      exact ⟨b, heightBefore first.grown known inside, path.head edge⟩

section Leaving

variable {count : Nat} {s t : Search} {node low : Nat}
  (explored : Explored successors node low (s.push node) t)
  (examined : ∀ next ∈ successors node, Examined (s.push node) t low next)
include explored examined

theorem openedExamined {a : Nat} (there : a ∈ t.stack) (away : a ∉ s.stack) :
    Reaches successors node a ∧ (a = node ∨ ∃ b ∈ (s.push node).stack, Reaches successors a b) ∧
      ∀ b ∈ successors a, Examined (s.push node) t low b := by
  by_cases same : a = node
  · rw [same]
    exact ⟨.refl, .inl rfl, examined⟩
  · have later : a ∉ (s.push node).stack := by simp [push, same, away]
    refine ⟨explored.found a there later, .inr (explored.returns a there later), ?_⟩
    intro b edge
    exact ⟨explored.met a there later b edge, explored.bounded a there later b edge⟩

theorem exploredLeft (below : low < s.stack.length) (distinct : (s.push node).nodes.Nodup) :
    Explored successors node low s t := by
  obtain ⟨bottom, known, path⟩ := explored.attained (Nat.lt_succ_of_lt below)
  have seen := heightBefore (extendsPush s node) known below
  have opened {a : Nat} := openedExamined explored examined (a := a)
  refine ⟨extendsTrans (extendsPush s node) explored.grown, explored.settled, ?_, ?_, ?_, ?_, ?_⟩
  · intro a there away
    exact (opened there away).1
  · intro a there away
    rcases (opened there away).2.1 with rfl | ⟨b, old, onward⟩
    · exact ⟨bottom, heightOpen seen, path⟩
    · rcases List.mem_cons.mp old with rfl | old
      · exact ⟨bottom, heightOpen seen, onward.trans path⟩
      · exact ⟨b, old, onward⟩
  · intro a there away b edge
    exact ((opened there away).2.2 b edge).1
  · intro a there away b edge height old
    exact ((opened there away).2.2 b edge).2 height (heightKept (extendsPush s node) distinct old)
  · intro _
    exact ⟨bottom, seen, path⟩

/- Without an edge to what was open before no path leads there either, so whatever was opened from the node
on leads back to it. -/
theorem exploredClosed (above : ¬low < s.stack.length) (tidy : t.Tidy count)
    (distinct : (s.push node).nodes.Nodup) :
    Explored successors node s.stack.length s (t.close s.stack.length) := by
  obtain ⟨stack, component, inside, shape, closed⟩ := closeEntered explored.grown
  have apart := tidy.1
  rw [Search.nodes, shape, List.append_assoc] at apart
  have fresh {a : Nat} (own : a ∈ component) : a ∉ s.stack := fun old =>
    List.disjoint_of_nodup_append apart own (List.mem_append_left _ old)
  have opened {a : Nat} (own : a ∈ component) :=
    openedExamined explored examined (a := a) (shape ▸ List.mem_append_left _ own) (fresh own)
  have leads : ∀ a ∈ component, ∀ b ∈ successors a, b ∈ component ∨ b ∈ t.closed.flatten := by
    intro a own b edge
    obtain ⟨met, bounded⟩ := (opened own).2.2 b edge
    rw [Search.nodes, shape, List.append_assoc, List.mem_append, List.mem_append] at met
    rcases met with same | old | earlier
    · exact .inl same
    · obtain ⟨height, known, small⟩ := heightLow old
      have least := bounded height (heightKept (extendsPush s node) distinct known)
      omega
    · exact .inr earlier
  have stays {a b : Nat} (own : a ∈ component) (path : Reaches successors a b) :
      b ∈ component ∨ b ∈ t.closed.flatten := by
    induction path with
    | refl => exact .inl own
    | tail _ edge ih =>
      rcases ih with same | earlier
      · exact leads _ same _ edge
      · exact .inr (settledStep explored.settled earlier edge)
  have back : ∀ a ∈ component, Reaches successors a node := by
    intro a own
    rcases (opened own).2.1 with rfl | ⟨b, old, onward⟩
    · exact .refl
    · rcases List.mem_cons.mp old with rfl | old
      · exact onward
      · rcases stays own onward with same | earlier
        · exact absurd old (fresh same)
        · exact absurd earlier (List.disjoint_of_nodup_append apart.of_append_right old)
  have settled : Settled successors (t.close s.stack.length).closed := by
    rw [closed]
    refine .cons (List.ne_nil_of_mem inside) ?_ leads explored.settled
    intro a first b second
    exact (back a first).trans (opened second).1
  obtain ⟨_, more, before⟩ := explored.grown
  refine ⟨⟨⟨[], stack⟩, component :: more, by rw [closed, before]; rfl⟩, settled, ?_, ?_, ?_, ?_, ?_⟩
  · intro a there away
    exact absurd (stack ▸ there) away
  · intro a there away
    exact absurd (stack ▸ there) away
  · intro a there away
    exact absurd (stack ▸ there) away
  · intro a there away
    exact absurd (stack ▸ there) away
  · intro below
    exact absurd below (Nat.lt_irrefl _)

end Leaving

theorem examinedKept {s t u : Search} {low lower next : Nat} (examined : Examined s t low next)
    (grown : t.Extends u) (less : lower ≤ low) : Examined s u lower next :=
  ⟨extendsNodes grown examined.1, fun height known => Nat.le_trans less (examined.2 height known)⟩

def Explores (successors : Nat → List Nat) (count fuel : Nat) : Prop :=
  ∀ (node : Nat) (s : Search), s.Tidy count → Settled successors s.closed → node < count →
    node ∉ s.nodes → count ≤ fuel + s.nodes.length →
    Explored successors node (visit successors fuel node s).1 s (visit successors fuel node s).2 ∧
      node ∈ (visit successors fuel node s).2.nodes

section Within

variable {count : Nat} (within : ∀ node, ∀ next ∈ successors node, next < count)
include within

theorem followExplored {fuel : Nat} (visits : Explores successors count fuel) {s : Search}
    {node next : Nat} {p : Nat × Search} (explored : Explored successors node p.1 s p.2)
    (tidy : p.2.Tidy count) (enough : count ≤ fuel + p.2.nodes.length)
    (edge : next ∈ successors node) :
    Explored successors node (follow successors fuel p next).1 s (follow successors fuel p next).2 ∧
      (follow successors fuel p next).2.Tidy count ∧
      (follow successors fuel p next).1 ≤ p.1 ∧
      Examined s (follow successors fuel p next).2 (follow successors fuel p next).1 next := by
  have small := within node next edge
  unfold follow
  cases known : p.2.height? next with
  | some height =>
    refine ⟨exploredOpen explored edge known, tidy, Nat.min_le_left .., ?_, ?_⟩
    · exact List.mem_append_left _ (heightOpen known)
    · intro other old
      have same := (heightKept explored.grown tidy.1 old).symm.trans known
      cases same
      exact Nat.min_le_right ..
  | none =>
    have away := heightNone.mp known
    have unseen : ∀ height, s.height? next ≠ some height := by
      intro height old
      rw [heightKept explored.grown tidy.1 old] at known
      contradiction
    dsimp only
    split
    · next closed =>
      refine ⟨explored, tidy, Nat.le_refl _, ?_, fun height old => absurd old (unseen height)⟩
      refine List.mem_append_right _ ?_
      simpa [isClosed] using closed
    · next pending =>
      have fresh := unmet known (by simpa using pending)
      obtain ⟨visited, entered⟩ := visits next p.2 tidy explored.settled small fresh enough
      exact ⟨exploredThen explored edge tidy visited, visitTidy within fuel next tidy small fresh,
        Nat.min_le_left .., entered, fun height old => absurd old (unseen height)⟩

theorem foldExplored {fuel : Nat} (visits : Explores successors count fuel) {s : Search} {node : Nat}
    (nodes : List Nat) (edges : ∀ next ∈ nodes, next ∈ successors node) {p : Nat × Search}
    (explored : Explored successors node p.1 s p.2) (tidy : p.2.Tidy count)
    (enough : count ≤ fuel + p.2.nodes.length) :
    Explored successors node (nodes.foldl (follow successors fuel) p).1 s
        (nodes.foldl (follow successors fuel) p).2 ∧
      (nodes.foldl (follow successors fuel) p).2.Tidy count ∧
      (nodes.foldl (follow successors fuel) p).1 ≤ p.1 ∧
      ∀ next ∈ nodes, Examined s (nodes.foldl (follow successors fuel) p).2
        (nodes.foldl (follow successors fuel) p).1 next := by
  induction nodes generalizing p with
  | nil => exact ⟨explored, tidy, Nat.le_refl _, by simp⟩
  | cons next rest ih =>
    rw [List.forall_mem_cons] at edges
    obtain ⟨one, oneTidy, oneLow, first⟩ := followExplored within visits explored tidy enough edges.1
    have grown := followExtends (visitExtends successors fuel) p next
    obtain ⟨all, allTidy, allLow, others⟩ := ih edges.2 one oneTidy
      (Nat.le_trans enough (Nat.add_le_add_left (extendsLength grown) fuel))
    rw [List.foldl_cons, List.forall_mem_cons]
    refine ⟨all, allTidy, Nat.le_trans allLow oneLow, ?_, others⟩
    exact examinedKept first (foldExtends (followExtends (visitExtends successors fuel)) rest _) allLow

theorem visitExplored (fuel : Nat) : Explores successors count fuel := by
  induction fuel with
  | zero =>
    intro node s tidy _ inside fresh enough
    have full := tidyLength (pushTidy tidy inside fresh)
    have longer : (s.push node).nodes.length = s.nodes.length + 1 := rfl
    omega
  | succ fuel ih =>
    intro node s tidy settled inside fresh enough
    have entered := pushTidy tidy inside fresh
    have longer : (s.push node).nodes.length = s.nodes.length + 1 := rfl
    obtain ⟨explored, after, _, examined⟩ := foldExplored within ih (successors node)
      (fun _ edge => edge) (p := (s.stack.length, s.push node)) (exploredStart settled node) entered
      (by dsimp only; omega)
    have met := extendsNodes explored.grown (List.mem_append_left _ (List.mem_cons_self ..))
    rw [visitSucc]
    dsimp only
    split
    · next below => exact ⟨exploredLeft explored examined below entered.1, met⟩
    · next above =>
      exact ⟨exploredClosed explored examined above after entered.1, (closeNodes _ _).mem_iff.mpr met⟩

theorem sweepSettled (nodes : List Nat) (few : ∀ node ∈ nodes, node < count) {s : Search}
    (bottom : s.stack = []) (tidy : s.Tidy count) (settled : Settled successors s.closed) :
    Settled successors (nodes.foldl (fun s node =>
      if s.isClosed node then s else (visit successors count node s).2) s).closed := by
  induction nodes generalizing s with
  | nil => exact settled
  | cons first rest ih =>
    rw [List.forall_mem_cons] at few
    rw [List.foldl_cons]
    by_cases done : s.isClosed first = true
    · rw [if_pos done]
      exact ih few.2 bottom tidy settled
    · rw [if_neg done]
      have away : s.height? first = none := by rw [height?, bottom]; rfl
      have fresh := unmet away (by simpa using done)
      obtain ⟨explored, _⟩ := visitExplored within count first s tidy settled few.1 fresh
        (Nat.le_add_right ..)
      refine ih few.2 ?_ (visitTidy within count first tidy few.1 fresh) explored.settled
      -- with nothing open before there is nothing to lead back to
      rw [List.eq_nil_iff_forall_not_mem]
      intro a there
      obtain ⟨b, old, _⟩ := explored.returns a there (by simp [bottom])
      simp [bottom] at old

theorem componentsSettled : ∃ closed, Settled successors closed ∧ closed.flatten.Nodup ∧
    components count successors = closed.reverse.map fun component => component.mergeSort (· ≤ ·) := by
  refine ⟨_, sweepSettled within (List.range count) (fun node there => List.mem_range.mp there)
    (s := {}) rfl ⟨by simp [nodes], by simp [nodes]⟩ .nil, ?_, rfl⟩
  exact ((sortedNodes _).trans (List.reverse_perm _).flatten).nodup_iff.mp
    (componentsDistinct within).1

theorem sameComponent {a b : Nat} (inside : a < count) :
    (∃ component ∈ components count successors, a ∈ component ∧ b ∈ component) ↔
      Reaches successors a b ∧ Reaches successors b a := by
  obtain ⟨component, listed, own⟩ := everyNodeListed count successors inside
  obtain ⟨closed, settled, distinct, shape⟩ := componentsSettled within
  rw [shape] at listed ⊢
  simp only [List.mem_map, List.mem_reverse] at listed ⊢
  constructor
  · rintro ⟨_, ⟨group, there, rfl⟩, first, second⟩
    rw [List.mem_mergeSort] at first second
    have connected := (settledConnected settled there).2
    exact ⟨connected a first b second, connected b second a first⟩
  · rintro ⟨out, back⟩
    obtain ⟨group, there, rfl⟩ := listed
    have met : a ∈ closed.flatten := List.mem_flatten.mpr ⟨group, there, List.mem_mergeSort.mp own⟩
    obtain ⟨found, place, first, second⟩ := settledTogether settled distinct met out back
    exact ⟨_, ⟨found, place, rfl⟩, List.mem_mergeSort.mpr first, List.mem_mergeSort.mpr second⟩

theorem componentIncreasing {component : List Nat} (listed : component ∈ components count successors) :
    component ≠ [] ∧ component.Pairwise (· < ·) := by
  have distinct := (List.nodup_flatten.mp (componentsDistinct within).1).1 component listed
  obtain ⟨closed, settled, _, shape⟩ := componentsSettled within
  rw [shape] at listed
  simp only [List.mem_map, List.mem_reverse] at listed
  obtain ⟨group, there, rfl⟩ := listed
  obtain ⟨node, member⟩ := List.exists_mem_of_ne_nil group (settledConnected settled there).1
  have sorted : (group.mergeSort (· ≤ ·)).Pairwise fun a b => decide (a ≤ b) = true :=
    List.pairwise_mergeSort (by simp; omega) (by simp; omega) group
  refine ⟨List.ne_nil_of_mem (List.mem_mergeSort.mpr member), (sorted.and distinct).imp ?_⟩
  intro a b both
  have less : a ≤ b := by simpa using both.1
  exact Nat.lt_of_le_of_ne less both.2

theorem successorListed {earlier later : List (List Nat)} {component : List Nat}
    (shape : components count successors = earlier ++ component :: later) {a b : Nat}
    (own : a ∈ component) (edge : b ∈ successors a) : b ∈ component ∨ b ∈ earlier.flatten := by
  obtain ⟨closed, settled, _, sorted⟩ := componentsSettled within
  rw [sorted, List.map_eq_append_iff] at shape
  obtain ⟨before, rest, split, rfl, tail⟩ := shape
  obtain ⟨group, after, rfl, rfl, rfl⟩ := List.map_eq_cons_iff.mp tail
  have turned : closed = after.reverse ++ group :: before.reverse := by
    rw [← List.reverse_reverse closed, split]
    simp
  rw [turned] at settled
  rw [List.mem_mergeSort] at own ⊢
  rw [(sortedNodes before).mem_iff, ← (List.reverse_perm before).flatten.mem_iff]
  exact settledEarlier settled own edge

theorem successorEarlier {i j a b : Nat} {caller callee : List Nat}
    (first : (components count successors)[i]? = some caller) (own : a ∈ caller)
    (second : (components count successors)[j]? = some callee) (other : b ∈ callee)
    (edge : b ∈ successors a) : j ≤ i := by
  have apart := (List.nodup_flatten.mp (componentsDistinct within).1).2
  -- a node is in no component but its own
  have unique {k : Nat} {component : List Nat}
      (place : (components count successors)[k]? = some component) (member : b ∈ component) :
      j = k := by
    obtain ⟨jInside, rfl⟩ := List.getElem?_eq_some_iff.mp second
    obtain ⟨kInside, rfl⟩ := List.getElem?_eq_some_iff.mp place
    by_contra differ
    rcases Nat.lt_or_gt_of_ne differ with less | less
    · exact List.pairwise_iff_getElem.mp apart j k jInside kInside less other member
    · exact List.pairwise_iff_getElem.mp apart k j kInside jInside less member other
  obtain ⟨inside, rfl⟩ := List.getElem?_eq_some_iff.mp first
  have split : components count successors = (components count successors).take i ++
      (components count successors)[i] :: (components count successors).drop (i + 1) := by
    rw [List.getElem_cons_drop, List.take_append_drop]
  rcases successorListed within split own edge with same | before
  · exact Nat.le_of_eq (unique first same)
  · obtain ⟨component, listed, member⟩ := List.mem_flatten.mp before
    obtain ⟨k, place⟩ := List.mem_iff_getElem?.mp listed
    rw [List.getElem?_take] at place
    split at place
    · next less => exact unique place member ▸ Nat.le_of_lt less
    · contradiction

end Within

end EffectAudit.Components
