/-! Strongly connected components of a finite graph over the numbers below `count`, by one
depth-first search. Nodes are tried in order and successors in the order given; a component is
closed when the node through which the search entered it is left, so a component comes after every
component it leads to. -/
namespace EffectAudit.Components

structure Search where
  stack : List Nat := []
  closed : List (List Nat) := []
  deriving DecidableEq, Repr

namespace Search

def heightIn (node : Nat) : List Nat → Option Nat
  | [] => none
  | head :: below => if head = node then some below.length else heightIn node below

def height? (s : Search) (node : Nat) : Option Nat := heightIn node s.stack

def isClosed (s : Search) (node : Nat) : Bool := s.closed.any (·.contains node)

def push (s : Search) (node : Nat) : Search := { s with stack := node :: s.stack }

def close (s : Search) (height : Nat) : Search :=
  let size := s.stack.length - height
  { stack := s.stack.drop size, closed := s.stack.take size :: s.closed }

end Search

/-- Enters a node that is neither open nor closed. The number returned is the least height of an open
node that the search saw an edge to from here on, or the height of the node itself. `fuel` bounds
the number of nodes that can still be entered one below the other. -/
def visit (successors : Nat → List Nat) : Nat → Nat → Search → Nat × Search
  | 0, _, s => (s.stack.length, s)
  | fuel + 1, node, s =>
    let own := s.stack.length
    let (low, s) := (successors node).foldl
      (fun (low, s) next =>
        match s.height? next with
        | some height => (min low height, s)
        | none =>
          if s.isClosed next then (low, s)
          else
            let (reached, s) := visit successors fuel next s
            (min low reached, s))
      (own, s.push node)
    if low < own then (low, s) else (own, s.close own)

def components (count : Nat) (successors : Nat → List Nat) : List (List Nat) :=
  let search := (List.range count).foldl
    (fun s node => if s.isClosed node then s else (visit successors count node s).2) {}
  search.closed.reverse.map fun component => component.mergeSort (· ≤ ·)

end EffectAudit.Components
