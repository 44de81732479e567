import EffectAudit.CallGraph.Components
/-! The search leaves nobody out. A visit only adds to what it is given: nodes above the open ones and
components before the closed ones. A node that was started with nothing open is closed when the visit
ends, and what is closed stays closed. -/
namespace EffectAudit.Components

def Search.Extends (s t : Search) : Prop :=
  (∃ opened, t.stack = opened ++ s.stack) ∧ ∃ components, t.closed = components ++ s.closed

namespace Search

theorem extendsSelf (s : Search) : s.Extends s := ⟨⟨[], rfl⟩, ⟨[], rfl⟩⟩

theorem extendsTrans {r s t : Search} (first : r.Extends s) (second : s.Extends t) :
    r.Extends t := by
  obtain ⟨⟨low, openLow⟩, early, closedEarly⟩ := first
  obtain ⟨⟨high, openHigh⟩, late, closedLate⟩ := second
  refine ⟨⟨high ++ low, ?_⟩, late ++ early, ?_⟩
  · rw [openHigh, openLow, List.append_assoc]
  · rw [closedLate, closedEarly, List.append_assoc]

theorem extendsPush (s : Search) (node : Nat) : s.Extends (s.push node) :=
  ⟨⟨[node], rfl⟩, ⟨[], rfl⟩⟩

theorem closeEntered {s t : Search} {node : Nat} (grown : (s.push node).Extends t) :
    (t.close s.stack.length).stack = s.stack ∧
      ∃ component, node ∈ component ∧ t.stack = component ++ s.stack ∧
        (t.close s.stack.length).closed = component :: t.closed := by
  obtain ⟨⟨opened, shape⟩, _⟩ := grown
  have split : t.stack = (opened ++ [node]) ++ s.stack := by simpa [push] using shape
  have size : t.stack.length - s.stack.length = (opened ++ [node]).length := by
    rw [split, List.length_append]
    omega
  refine ⟨?_, opened ++ [node], by simp, split, ?_⟩
  · simp only [close, size]
    rw [split, List.drop_left]
  · simp only [close, size]
    rw [split, List.take_left]

theorem isClosedOfExtends {s t : Search} (grown : s.Extends t) {node : Nat}
    (closed : s.isClosed node = true) : t.isClosed node = true := by
  obtain ⟨_, more, shape⟩ := grown
  simp only [isClosed, shape, List.any_append, Bool.or_eq_true]
  exact .inr closed

end Search

open Search

theorem foldExtends {step : Nat × Search → Nat → Nat × Search} {s : Search}
    (keeps : ∀ (p : Nat × Search) next, p.2.Extends (step p next).2) (nodes : List Nat) (low : Nat) :
    s.Extends (nodes.foldl step (low, s)).2 := by
  induction nodes generalizing low s with
  | nil => exact extendsSelf s
  | cons next rest ih =>
    rw [List.foldl_cons]
    exact extendsTrans (keeps (low, s) next) (ih _)

def follow (successors : Nat → List Nat) (fuel : Nat) (p : Nat × Search) (next : Nat) :
    Nat × Search :=
  match p.2.height? next with
  | some height => (min p.1 height, p.2)
  | none =>
    if p.2.isClosed next then p
    else (min p.1 (visit successors fuel next p.2).1, (visit successors fuel next p.2).2)

theorem visitSucc (successors : Nat → List Nat) (fuel node : Nat) (s : Search) :
    visit successors (fuel + 1) node s =
      let p := (successors node).foldl (follow successors fuel) (s.stack.length, s.push node)
      if p.1 < s.stack.length then p else (s.stack.length, p.2.close s.stack.length) := by
  rfl

theorem followExtends {successors : Nat → List Nat} {fuel : Nat}
    (keeps : ∀ node s, Search.Extends s (visit successors fuel node s).2) (p : Nat × Search)
    (next : Nat) : p.2.Extends (follow successors fuel p next).2 := by
  unfold follow
  split
  · exact extendsSelf p.2
  · split
    · exact extendsSelf p.2
    · exact keeps next p.2

theorem visitExtends (successors : Nat → List Nat) (fuel node : Nat) (s : Search) :
    s.Extends (visit successors fuel node s).2 := by
  induction fuel generalizing node s with
  | zero => exact extendsSelf s
  | succ fuel ih =>
    have grown := foldExtends (s := s.push node) (followExtends ih) (successors node) s.stack.length
    rw [visitSucc]
    dsimp only
    split
    · exact extendsTrans (extendsPush s node) grown
    · obtain ⟨stack, component, _, _, closed⟩ := closeEntered grown
      refine ⟨⟨[], stack⟩, ?_⟩
      obtain ⟨_, more, shape⟩ := grown
      exact ⟨component :: more, by rw [closed, shape]; rfl⟩

theorem visitAtBottom (successors : Nat → List Nat) (fuel node : Nat) {s : Search}
    (bottom : s.stack = []) :
    (visit successors (fuel + 1) node s).2.stack = [] ∧
      (visit successors (fuel + 1) node s).2.isClosed node = true := by
  have grown := foldExtends (s := s.push node) (followExtends (visitExtends successors fuel))
    (successors node) s.stack.length
  have none : ¬((successors node).foldl (follow successors fuel)
      (s.stack.length, s.push node)).1 < s.stack.length := by simp [bottom]
  obtain ⟨stack, component, inside, _, closed⟩ := closeEntered grown
  rw [visitSucc]
  simp only [if_neg none]
  refine ⟨stack.trans bottom, ?_⟩
  simp [isClosed, closed, inside]

theorem sweepCloses (successors : Nat → List Nat) (count : Nat) (nodes : List Nat) {s : Search}
    (bottom : s.stack = []) :
    s.Extends (nodes.foldl (fun s node =>
      if s.isClosed node then s else (visit successors (count + 1) node s).2) s) ∧
    ∀ node ∈ nodes, (nodes.foldl (fun s node =>
      if s.isClosed node then s else (visit successors (count + 1) node s).2) s).isClosed node := by
  induction nodes generalizing s with
  | nil => exact ⟨extendsSelf s, by simp⟩
  | cons first rest ih =>
    rw [List.foldl_cons]
    by_cases done : s.isClosed first = true
    · rw [if_pos done]
      obtain ⟨grown, all⟩ := ih bottom
      refine ⟨grown, ?_⟩
      intro node member
      rcases List.mem_cons.mp member with rfl | later
      · exact isClosedOfExtends grown done
      · exact all node later
    · rw [if_neg done]
      obtain ⟨stack, closed⟩ := visitAtBottom successors count first bottom
      obtain ⟨grown, all⟩ := ih stack
      refine ⟨extendsTrans (visitExtends successors (count + 1) first s) grown, ?_⟩
      intro node member
      rcases List.mem_cons.mp member with rfl | later
      · exact isClosedOfExtends grown closed
      · exact all node later

theorem everyNodeListed (count : Nat) (successors : Nat → List Nat) {node : Nat}
    (inside : node < count) : ∃ component ∈ components count successors, node ∈ component := by
  cases count with
  | zero => omega
  | succ count =>
    have closed := (sweepCloses successors count (List.range (count + 1)) (s := {}) rfl).2 node
      (List.mem_range.mpr inside)
    obtain ⟨component, listed, member⟩ := List.any_eq_true.mp closed
    refine ⟨component.mergeSort (· ≤ ·), ?_, ?_⟩
    · exact List.mem_map_of_mem (List.mem_reverse.mpr listed)
    · rw [List.mem_mergeSort]
      simpa using member

namespace Search

def nodes (s : Search) : List Nat := s.stack ++ s.closed.flatten

theorem heightNone {node : Nat} {stack : List Nat} : heightIn node stack = none ↔ node ∉ stack := by
  induction stack with
  | nil => simp [heightIn]
  | cons head below ih =>
    unfold heightIn
    by_cases same : head = node
    · simp [same]
    · simp [same, ih, Ne.symm same]

theorem unmet {s : Search} {node : Nat} (away : s.height? node = none)
    (pending : s.isClosed node = false) : node ∉ s.nodes := by
  have stacked : node ∉ s.stack := heightNone.mp away
  have listed : node ∉ s.closed.flatten := by
    simpa [isClosed] using pending
  simp [nodes, stacked, listed]

theorem closeNodes (s : Search) (height : Nat) : (s.close height).nodes.Perm s.nodes := by
  have parts := List.take_append_drop (s.stack.length - height) s.stack
  unfold nodes close
  rw [List.flatten_cons, ← List.append_assoc]
  refine List.Perm.append_right _ (List.perm_append_comm.trans ?_)
  rw [parts]

def Tidy (count : Nat) (s : Search) : Prop := s.nodes.Nodup ∧ ∀ node ∈ s.nodes, node < count

theorem pushTidy {count node : Nat} {s : Search} (tidy : s.Tidy count) (inside : node < count)
    (fresh : node ∉ s.nodes) : (s.push node).Tidy count := by
  have shape : (s.push node).nodes = node :: s.nodes := rfl
  refine ⟨?_, ?_⟩
  · rw [shape]
    exact List.nodup_cons.mpr ⟨fresh, tidy.1⟩
  · rw [shape]
    exact List.forall_mem_cons.mpr ⟨inside, tidy.2⟩

theorem closeTidy {count : Nat} {s : Search} (tidy : s.Tidy count) (height : Nat) :
    (s.close height).Tidy count := by
  have same := closeNodes s height
  exact ⟨same.nodup_iff.mpr tidy.1, fun node member => tidy.2 node (same.mem_iff.mp member)⟩

end Search

theorem sortedNodes (closed : List (List Nat)) :
    (closed.map fun component => component.mergeSort (· ≤ ·)).flatten.Perm closed.flatten := by
  induction closed with
  | nil => exact .nil
  | cons component rest ih => exact (List.mergeSort_perm component _).append ih

section Within

variable {successors : Nat → List Nat} {count : Nat}
  (within : ∀ node, ∀ next ∈ successors node, next < count)
include within

theorem visitTidy (fuel node : Nat) {s : Search} (tidy : s.Tidy count) (inside : node < count)
    (fresh : node ∉ s.nodes) : (visit successors fuel node s).2.Tidy count := by
  induction fuel generalizing node s with
  | zero => exact tidy
  | succ fuel ih =>
    have followed (nodes : List Nat) (few : ∀ next ∈ nodes, next < count) (p : Nat × Search)
        (before : p.2.Tidy count) : (nodes.foldl (follow successors fuel) p).2.Tidy count := by
      induction nodes generalizing p with
      | nil => exact before
      | cons next rest others =>
        rw [List.foldl_cons]
        apply others fun later member => few later (List.mem_cons_of_mem _ member)
        unfold follow
        split
        · exact before
        · next away =>
          split
          · exact before
          · next pending =>
            exact ih next before (few next (List.mem_cons_self ..)) (unmet away (by simpa using pending))
    have done := followed (successors node) (within node) (s.stack.length, s.push node)
      (pushTidy tidy inside fresh)
    rw [visitSucc]
    dsimp only
    split
    · exact done
    · exact closeTidy done s.stack.length

theorem sweepTidy (depth : Nat) (nodes : List Nat) (few : ∀ node ∈ nodes, node < count) {s : Search}
    (bottom : s.stack = []) (tidy : s.Tidy count) :
    (nodes.foldl (fun s node =>
      if s.isClosed node then s else (visit successors (depth + 1) node s).2) s).Tidy count := by
  induction nodes generalizing s with
  | nil => exact tidy
  | cons first rest ih =>
    rw [List.foldl_cons]
    have later : ∀ node ∈ rest, node < count := fun node member => few node (List.mem_cons_of_mem _ member)
    by_cases done : s.isClosed first = true
    · rw [if_pos done]
      exact ih later bottom tidy
    · rw [if_neg done]
      have away : s.height? first = none := by rw [height?, bottom]; rfl
      exact ih later (visitAtBottom successors depth first bottom).1
        (visitTidy within (depth + 1) first tidy (few first (List.mem_cons_self ..))
          (unmet away (by simpa using done)))

theorem componentsDistinct : (components count successors).flatten.Nodup ∧
    ∀ node ∈ (components count successors).flatten, node < count := by
  cases count with
  | zero => simp [components]
  | succ count =>
    obtain ⟨distinct, inside⟩ := sweepTidy within count (List.range (count + 1))
      (fun node member => List.mem_range.mp member) (s := {}) rfl ⟨by simp [nodes], by simp [nodes]⟩
    have same := (sortedNodes _).trans (List.reverse_perm ((List.range (count + 1)).foldl
      (fun (s : Search) node => if s.isClosed node then s else (visit successors (count + 1) node s).2)
      {}).closed).flatten
    have listed := (List.nodup_append.mp distinct).2.1
    refine ⟨same.nodup_iff.mpr listed, ?_⟩
    intro node member
    exact inside node (List.mem_append_right _ (same.mem_iff.mp member))

end Within

end EffectAudit.Components
