import EffectAudit.Proofs.Site.Numbering
/-! Which sites a marker can see. A site on another arm of a construct around the marker excludes it, and
a handler has caught nothing while the marker is inside the body it protects. Both are read off the
arms around site and marker. Since constructs are numbered in intervals, a piece of code that ends
before the marker is excluded as a whole or not at all. -/
namespace EffectAudit

namespace Collect

theorem compatibleIff {a b : Site.Context} :
    a.isExclusiveWith b = false ↔ ∀ mine ∈ a.arms, ∀ theirs ∈ b.arms,
      mine.construct = theirs.construct → mine.arm.excludes theirs.arm = false := by
  simp [Site.Context.isExclusiveWith]

theorem insideTry {context : Site.Context} {construct : Nat} :
    context.inTryBodyOf construct = true ↔ ⟨construct, .tryBody⟩ ∈ context.arms := by
  simp only [Site.Context.inTryBodyOf, List.any_eq_true, Bool.and_eq_true, beq_iff_eq]
  constructor
  · intro given
    obtain ⟨ref, member, number, arm⟩ := given
    cases ref
    subst number arm
    exact member
  · intro member
    exact ⟨_, member, rfl, rfl⟩

structure Placed (context : Site.Context) (next : Nat) : Prop where
  below : ∀ ref ∈ context.arms, ref.construct < next
  coherent : context.isExclusiveWith context = false
  guards : ∀ g ∈ context.guards, context.inTryBodyOf g.construct = true

section Placed

variable {outer marker : Site.Context} {next low high top construct : Nat}

theorem placedStart : Placed {} 0 := ⟨by simp, rfl, by simp⟩

theorem placedEnter (placed : Placed outer construct) (arm : Arm) (before : construct < next) :
    Placed (outer.enter construct arm) next := by
  refine ⟨?_, ?_, ?_⟩
  · intro ref member
    rcases List.mem_append.mp member with inside | own
    · exact Nat.lt_trans (placed.below ref inside) before
    · rw [List.mem_singleton.mp own]
      exact before
  · rw [compatibleIff]
    intro mine left theirs right same
    rcases List.mem_append.mp left with inside | own
    · rcases List.mem_append.mp right with inside' | own'
      · exact compatibleIff.mp placed.coherent mine inside theirs inside' same
      · have := placed.below mine inside
        rw [List.mem_singleton.mp own'] at same
        simp only at same
        omega
    · rcases List.mem_append.mp right with inside' | own'
      · have := placed.below theirs inside'
        rw [List.mem_singleton.mp own] at same
        simp only at same
        omega
      · rw [List.mem_singleton.mp own, List.mem_singleton.mp own']
        cases arm <;> simp [Arm.excludes]
  · intro g around
    exact insideTry.mpr (List.mem_append_left _ (insideTry.mp (placed.guards g around)))

theorem placedLater (placed : Placed outer low) (later : low ≤ high) : Placed outer high :=
  ⟨fun ref member => Nat.lt_of_lt_of_le (placed.below ref member) later, placed.coherent, placed.guards⟩

theorem placedGuarded (placed : Placed (outer.enter construct .tryBody) next)
    (coverages : List Coverage) :
    Placed ((outer.enter construct .tryBody).guarded construct coverages) next := by
  refine ⟨placed.below, placed.coherent, ?_⟩
  intro g around
  rcases List.mem_append.mp around with outside | own
  · exact placed.guards g outside
  · obtain ⟨coverage, _, same⟩ := List.mem_map.mp own
    rw [← same]
    exact insideTry.mpr (List.mem_append_right _ (List.mem_singleton_self _))

theorem guardsOpen (placed : Placed outer next) (within : Within outer low high marker) :
    ∀ g ∈ outer.guards, marker.inTryBodyOf g.construct = true := by
  intro g around
  obtain ⟨extra, arms, _⟩ := within
  rw [insideTry, arms]
  exact List.mem_append_left _ (insideTry.mp (placed.guards g around))

structure After (outer : Site.Context) (low high : Nat) (marker : Site.Context) : Prop where
  compatible : ∀ c, Within outer low high c → c.isExclusiveWith marker = false
  outside : ∀ number, low ≤ number → number < high → marker.inTryBodyOf number = false

theorem apart (placed : Placed outer next) {c : Site.Context} {mine theirs : List ArmRef}
    (left : c.arms = outer.arms ++ mine) (right : marker.arms = outer.arms ++ theirs)
    (freshMine : ∀ ref ∈ mine, next ≤ ref.construct) (freshTheirs : ∀ ref ∈ theirs, next ≤ ref.construct)
    (free : ∀ a ∈ mine, ∀ b ∈ theirs, a.construct = b.construct → a.arm.excludes b.arm = false) :
    c.isExclusiveWith marker = false := by
  rw [compatibleIff, left, right]
  intro a first b second same
  rcases List.mem_append.mp first with shared | own
  · rcases List.mem_append.mp second with shared' | own'
    · exact compatibleIff.mp placed.coherent a shared b shared' same
    · have := placed.below a shared
      have := freshTheirs b own'
      omega
  · rcases List.mem_append.mp second with shared' | own'
    · have := placed.below b shared'
      have := freshMine a own
      omega
    · exact free a own b own' same

theorem afterHere (placed : Placed outer low) (later : low ≤ high)
    (within : Within outer high top marker) : After outer low high marker := by
  obtain ⟨theirs, right, range⟩ := within
  refine ⟨?_, ?_⟩
  · intro c inside
    obtain ⟨mine, left, own⟩ := inside
    refine apart placed left right (fun ref member => (own ref member).1) ?_ ?_
    · intro ref member
      exact Nat.le_trans later (range ref member).1
    · intro a first b second same
      have := (own a first).2
      have := (range b second).1
      omega
  · intro number above below
    rw [Bool.eq_false_iff, ne_eq, insideTry, right]
    intro member
    rcases List.mem_append.mp member with shared | own
    · have := placed.below _ shared
      simp only at this
      omega
    · have := (range _ own).1
      simp only at this
      omega

theorem afterArm (placed : Placed outer construct) {theirs mine : Arm}
    (free : theirs.excludes mine = false) (before : construct < low) (later : low ≤ high)
    (within : Within (outer.enter construct mine) high top marker) :
    After (outer.enter construct theirs) low high marker := by
  obtain ⟨extra, right, range⟩ := within
  have arms : marker.arms = outer.arms ++ (⟨construct, mine⟩ :: extra) := by
    rw [right, Site.Context.enter, List.append_assoc, List.singleton_append]
  refine ⟨?_, ?_⟩
  · intro c inside
    obtain ⟨more, left, own⟩ := inside
    have arms' : c.arms = outer.arms ++ (⟨construct, theirs⟩ :: more) := by
      rw [left, Site.Context.enter, List.append_assoc, List.singleton_append]
    refine apart placed arms' arms ?_ ?_ ?_
    · simp only [List.forall_mem_cons, Nat.le_refl, true_and]
      intro ref member
      have := (own ref member).1
      omega
    · simp only [List.forall_mem_cons, Nat.le_refl, true_and]
      intro ref member
      have := (range ref member).1
      omega
    · intro a first b second same
      rcases List.mem_cons.mp first with head | tail
      · rcases List.mem_cons.mp second with head' | tail'
        · rw [head, head']
          exact free
        · have := (range b tail').1
          rw [head] at same
          simp only at same
          omega
      · rcases List.mem_cons.mp second with head' | tail'
        · have := (own a tail).1
          rw [head'] at same
          simp only at same
          omega
        · have := (own a tail).2
          have := (range b tail').1
          omega
  · intro number above below
    rw [Bool.eq_false_iff, ne_eq, insideTry, arms]
    intro member
    rcases List.mem_append.mp member with shared | own
    · have := placed.below _ shared
      simp only at this
      omega
    · rcases List.mem_cons.mp own with head | tail
      · cases head
        omega
      · have := (range _ tail).1
        simp only at this
        omega

theorem leftTry (placed : Placed outer construct) {mine : Arm} (other : mine ≠ .tryBody)
    (before : construct < low) (within : Within (outer.enter construct mine) low top marker) :
    marker.inTryBodyOf construct = false := by
  obtain ⟨extra, right, range⟩ := within
  rw [Bool.eq_false_iff, ne_eq, insideTry, right]
  intro member
  rcases List.mem_append.mp member with inside | own
  · rcases List.mem_append.mp inside with shared | head
    · exact Nat.lt_irrefl _ (placed.below _ shared)
    · cases List.mem_singleton.mp head
      exact other rfl
  · have := (range _ own).1
    simp only at this
    omega

theorem exclusiveArms {theirs mine : Arm} (excludes : theirs.excludes mine = true)
    {low' high' : Nat} {c : Site.Context} (left : Within (outer.enter construct theirs) low' high' c)
    (right : Within (outer.enter construct mine) low high marker) :
    c.isExclusiveWith marker = true := by
  obtain ⟨more, arms, _⟩ := left
  obtain ⟨extra, arms', _⟩ := right
  simp only [Site.Context.isExclusiveWith, List.any_eq_true, Bool.and_eq_true, beq_iff_eq]
  refine ⟨⟨construct, theirs⟩, ?_, ⟨construct, mine⟩, ?_, rfl, excludes⟩
  · rw [arms]
    exact List.mem_append_left _ (List.mem_append_right _ (List.mem_singleton_self _))
  · rw [arms']
    exact List.mem_append_left _ (List.mem_append_right _ (List.mem_singleton_self _))

end Placed
end Collect
end EffectAudit
