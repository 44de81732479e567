import Mathlib.Tactic.Common
import EffectAudit.Proofs.Inference.Passes
/-! Whole runs. Every pass from the bound on sets at least one more routine to unknown, so the number
of passes that a run is given is enough and every run ends with a quiet pass. A run that reports
convergence was never changed by widening. -/
namespace EffectAudit.Inference

variable {h : Hierarchies}

theorem widenSettled (e : RoutineEffects) : e.widen.Settled := by
  intro category
  cases category with
  | raises => exact CategoryEffects.withInferredSettled e.raises .unknown
  | tags => exact CategoryEffects.withInferredSettled e.tags .unknown

theorem leWiden {e : RoutineEffects} (settled : e.Settled) : e ≤ e.widen :=
  ⟨rfl, CategoryEffects.leWithInferred (settled .raises) (EffectSet.leUnknown _),
    CategoryEffects.leWithInferred (settled .tags) (EffectSet.leUnknown _), rfl, rfl⟩

theorem widenUnknown (e : RoutineEffects) : e.widen.isUnknown = true := rfl

theorem widenSame {e : RoutineEffects} (settled : e.Settled) (unknown : e.isUnknown = true) :
    e.widen = e := by
  have all := isUnknownIff.mp unknown
  have still (c : CategoryEffects) (part : c.Settled) (top : c.inferred = .unknown) :
      c.widen = c := by
    apply le_antisymm
    · exact CategoryEffects.withInferredLe le_rfl part (by rw [top])
    · exact CategoryEffects.leWithInferred part (EffectSet.leUnknown _)
  unfold RoutineEffects.widen
  rw [still e.raises (settled .raises) (all .raises), still e.tags (settled .tags) (all .tags)]

def widenAll (t : EffectTable) (grown : List RoutineId) : EffectTable :=
  grown.foldl (fun t id => t.modify id (·.widen)) t

def widenOne (p : EffectTable × Nat) (id : RoutineId) : EffectTable × Nat :=
  match p.1.get? id with
  | none => p
  | some effects => (p.1.modify id (·.widen), if effects.isUnknown then p.2 else p.2 + 1)

theorem widenFold (t : EffectTable) (grown : List RoutineId) :
    widen t grown = grown.foldl widenOne (t, 0) := rfl

theorem widenOneTable (p : EffectTable × Nat) (id : RoutineId) :
    (widenOne p id).1 = p.1.modify id (·.widen) := by
  unfold widenOne
  cases found : p.1.get? id with
  | none =>
    symm
    apply EffectTable.modifySame
    intro e there
    rw [found] at there
    contradiction
  | some e => rfl

theorem foldWidenTable (grown : List RoutineId) (p : EffectTable × Nat) :
    (grown.foldl widenOne p).1 = widenAll p.1 grown := by
  induction grown generalizing p with
  | nil => rfl
  | cons id rest ih =>
    rw [List.foldl_cons, ih, widenOneTable]
    rfl

theorem widenTable (t : EffectTable) (grown : List RoutineId) :
    (widen t grown).1 = widenAll t grown := by
  rw [widenFold]
  exact foldWidenTable grown (t, 0)

theorem widenInvariant {P : EffectTable → Prop} {grown : List RoutineId} {t : EffectTable}
    (step : ∀ t, ∀ id ∈ grown, P t → P (t.modify id (·.widen))) (start : P t) :
    P (widenAll t grown) := by
  induction grown generalizing t with
  | nil => exact start
  | cons id rest ih =>
    apply ih
    · intro t other member
      exact step t other (List.mem_cons_of_mem _ member)
    · exact step t id (List.mem_cons_self ..) start

theorem modifyWidenSettled {t : EffectTable} (settled : t.Settled) (id : RoutineId) :
    (t.modify id (·.widen)).Settled := by
  intro x e found
  rw [EffectTable.getModify] at found
  split at found
  · obtain ⟨old, _, rfl⟩ := Option.map_eq_some_iff.mp found
    exact widenSettled old
  · exact settled x e found

theorem leWidenAll {t : EffectTable} (settled : t.Settled) (grown : List RoutineId) :
    t ≤ widenAll t grown ∧ (widenAll t grown).Settled := by
  apply widenInvariant (P := fun s => t ≤ s ∧ s.Settled)
  · rintro s id _ ⟨above, kept⟩
    have larger : s ≤ s.modify id (·.widen) :=
      EffectTable.leModify fun e found => leWiden (kept id e found)
    exact ⟨above.trans larger, modifyWidenSettled kept id⟩
  · exact ⟨le_rfl, settled⟩

theorem widenAllUnknown {t : EffectTable} (settled : t.Settled) {grown : List RoutineId}
    {id : RoutineId} (member : id ∈ grown) {e : RoutineEffects}
    (found : (widenAll t grown).get? id = some e) : e.isUnknown = true := by
  induction grown generalizing t with
  | nil => simp at member
  | cons first rest ih =>
    have kept := modifyWidenSettled settled first
    by_cases later : id ∈ rest
    · exact ih kept later found
    · have same : id = first := by
        rcases List.mem_cons.mp member with equal | inside
        · exact equal
        · contradiction
      subst same
      -- the entry is unknown right after its own step, and later steps make nothing smaller
      have grows : t.modify id (·.widen) ≤ widenAll t (id :: rest) := (leWidenAll kept rest).1
      cases there : (t.modify id (·.widen)).get? id with
      | none => rw [EffectTable.noneOfLe grows there] at found; contradiction
      | some e' =>
        obtain ⟨e'', equal, smaller⟩ := EffectTable.someOfLe grows there
        rw [found] at equal
        cases equal
        apply isUnknownLe smaller
        rw [EffectTable.getModify, if_pos rfl] at there
        obtain ⟨old, _, rfl⟩ := Option.map_eq_some_iff.mp there
        exact widenUnknown old

theorem foldWidenCount (grown : List RoutineId) (p : EffectTable × Nat) :
    p.2 ≤ (grown.foldl widenOne p).2 := by
  induction grown generalizing p with
  | nil => exact le_rfl
  | cons id rest ih =>
    refine le_trans ?_ (ih _)
    unfold widenOne
    cases p.1.get? id with
    | none => exact le_rfl
    | some e =>
      dsimp only
      split <;> omega

theorem foldWidenNone {t : EffectTable} (settled : t.Settled) {grown : List RoutineId} {count : Nat}
    (none : (grown.foldl widenOne (t, count)).2 ≤ count) : widenAll t grown = t := by
  induction grown generalizing t count with
  | nil => rfl
  | cons id rest ih =>
    rw [List.foldl_cons] at none
    have low := foldWidenCount rest (widenOne (t, count) id)
    have still : widenOne (t, count) id = (t, count) := by
      unfold widenOne at low none ⊢
      cases found : t.get? id with
      | none => rfl
      | some e =>
        simp only [found] at low none ⊢
        cases unknown : e.isUnknown with
        | false =>
          simp only [unknown, Bool.false_eq_true, if_false] at low none
          omega
        | true =>
          rw [EffectTable.modifySame]
          · rfl
          · intro e' there
            rw [found] at there
            cases there
            exact widenSame (settled id e found) unknown
    have step : t.modify id (·.widen) = t := by
      have first := widenOneTable (t, count) id
      rw [still] at first
      exact first.symm
    rw [still] at none
    change widenAll (t.modify id (·.widen)) rest = t
    rw [step]
    exact ih settled none

theorem widenNone {t : EffectTable} (settled : t.Settled) {grown : List RoutineId}
    (none : (widen t grown).2 = 0) : (widen t grown).1 = t := by
  have low : (grown.foldl widenOne (t, 0)).2 ≤ 0 := by rw [← widenFold, none]
  rw [widenTable]
  exact foldWidenNone settled low

def advance (h : Hierarchies) (visits : List Visit) (bound : Nat) (p : Progress) : Progress :=
  let after := (pass h p.table visits).1
  let grown := (pass h p.table visits).2
  if p.snapshots.length + 1 ≥ bound then
    { p with
      table := (widen after grown).1
      snapshots := after :: p.snapshots
      widened := p.widened + (widen after grown).2 }
  else { p with table := after, snapshots := after :: p.snapshots }

theorem passesEnd {visits : List Visit} {bound fuel : Nat} {p : Progress}
    (quiet : Quiet h visits p.table) :
    passes h visits bound (fuel + 1) p =
      { p with snapshots := p.table :: p.snapshots, converged := p.widened == 0 } := by
  unfold passes
  simp [passQuiet.mpr quiet, passSame quiet]

theorem passesAdvance {visits : List Visit} {bound fuel : Nat} {p : Progress}
    (loud : ¬Quiet h visits p.table) :
    passes h visits bound (fuel + 1) p = passes h visits bound fuel (advance h visits bound p) := by
  have grown : (pass h p.table visits).2.isEmpty = false := by
    rw [← passQuiet] at loud
    simpa using loud
  rw [passes]
  simp only [grown, Bool.false_eq_true, if_false, List.length_cons]
  unfold advance
  split
  · rfl
  · rfl

theorem advanceInvariant {P : EffectTable → Prop} {visits : List Visit} {p : Progress} (bound : Nat)
    (settled : p.table.Settled) (step : ∀ t, ∀ v ∈ visits, P t → P (visit h t v).1)
    (widens : ∀ t, ∀ v ∈ visits, P t → P (t.modify v.1 (·.widen))) (start : P p.table) :
    P (advance h visits bound p).table := by
  have passed := passInvariant step start
  unfold advance
  dsimp only
  split
  · dsimp only
    rw [widenTable]
    apply widenInvariant _ passed
    intro t id member
    obtain ⟨v, listed, rfl⟩ := List.mem_map.mp (grownOpen settled member).1
    exact widens t v listed
  · exact passed

theorem advanceSettled {visits : List Visit} {p : Progress} (bound : Nat)
    (settled : p.table.Settled) : (advance h visits bound p).table.Settled :=
  advanceInvariant bound settled (fun _ v _ kept => visitSettled kept v)
    (fun _ v _ kept => modifyWidenSettled kept v.1) settled

theorem leAdvance {visits : List Visit} {p : Progress} (bound : Nat) (settled : p.table.Settled) :
    (pass h p.table visits).1 ≤ (advance h visits bound p).table := by
  unfold advance
  dsimp only
  split
  · dsimp only
    rw [widenTable]
    exact (leWidenAll (passSettled settled visits) _).1
  · exact le_rfl

theorem advanceSnapshots (visits : List Visit) (bound : Nat) (p : Progress) :
    (advance h visits bound p).snapshots = (pass h p.table visits).1 :: p.snapshots := by
  unfold advance
  dsimp only
  split <;> rfl

theorem advanceConverged (visits : List Visit) (bound : Nat) (p : Progress) :
    (advance h visits bound p).converged = p.converged := by
  unfold advance
  dsimp only
  split <;> rfl

theorem advanceEarly {visits : List Visit} {bound : Nat} {p : Progress}
    (early : p.snapshots.length + 1 < bound) :
    (advance h visits bound p).table = (pass h p.table visits).1 ∧
      (advance h visits bound p).widened = p.widened := by
  have below : ¬p.snapshots.length + 1 ≥ bound := by omega
  unfold advance
  dsimp only
  rw [if_neg below]
  exact ⟨rfl, rfl⟩

theorem advanceUnwidened {visits : List Visit} {bound : Nat} {p : Progress}
    (settled : p.table.Settled) (none : (advance h visits bound p).widened = 0) :
    p.widened = 0 ∧ (advance h visits bound p).table = (pass h p.table visits).1 := by
  unfold advance at none ⊢
  dsimp only at none ⊢
  split at none
  · next late =>
    dsimp only at none
    rw [if_pos late]
    exact ⟨by omega, widenNone (passSettled settled visits) (by omega)⟩
  · next early =>
    rw [if_neg early]
    exact ⟨none, rfl⟩

theorem passesInvariant {P : EffectTable → Prop} {visits : List Visit} {p : Progress}
    (bound fuel : Nat) (settled : p.table.Settled)
    (step : ∀ t, ∀ v ∈ visits, P t → P (visit h t v).1)
    (widens : ∀ t, ∀ v ∈ visits, P t → P (t.modify v.1 (·.widen))) (start : P p.table) :
    P (passes h visits bound fuel p).table := by
  induction fuel generalizing p with
  | zero => exact start
  | succ fuel ih =>
    by_cases quiet : Quiet h visits p.table
    · rw [passesEnd quiet]
      exact start
    · rw [passesAdvance quiet]
      exact ih (advanceSettled bound settled) (advanceInvariant bound settled step widens start)

def openCount (visits : List Visit) (t : EffectTable) : Nat :=
  visits.countP fun v => (t.get? v.1).any fun e => !e.isUnknown

theorem openOfLe {s t : EffectTable} (below : s ≤ t) {id : RoutineId}
    (still : (t.get? id).any (fun e => !e.isUnknown) = true) :
    (s.get? id).any (fun e => !e.isUnknown) = true := by
  obtain ⟨e', found, unsettled⟩ := (Option.any_eq_true _ _).mp still
  cases there : s.get? id with
  | none => rw [EffectTable.noneOfLe below there] at found; contradiction
  | some e =>
    obtain ⟨e'', same, smaller⟩ := EffectTable.someOfLe below there
    rw [found] at same
    cases same
    simp only [Option.any_some, Bool.not_eq_true', Bool.eq_false_iff] at unsettled ⊢
    exact fun unknown => unsettled (isUnknownLe smaller unknown)

theorem openCountLe {s t : EffectTable} (below : s ≤ t) (visits : List Visit) :
    openCount visits t ≤ openCount visits s :=
  List.countP_mono_left fun _ _ still => openOfLe below still

theorem openCountLt {s t : EffectTable} (below : s ≤ t) {visits : List Visit} {v : Visit}
    (member : v ∈ visits) (before : (s.get? v.1).any (fun e => !e.isUnknown) = true)
    (after : (t.get? v.1).any (fun e => !e.isUnknown) = false) :
    openCount visits t < openCount visits s := by
  induction visits with
  | nil => simp at member
  | cons first rest ih =>
    have others := openCountLe below rest
    unfold openCount at ih others ⊢
    rw [List.countP_cons, List.countP_cons]
    rcases List.mem_cons.mp member with rfl | later
    · simp only [before, after, if_true, Bool.false_eq_true, if_false]
      omega
    · have fewer := ih later
      split
      · next still =>
        rw [if_pos (openOfLe below still)]
        omega
      · omega

theorem advanceLate {visits : List Visit} {bound : Nat} {p : Progress} (settled : p.table.Settled)
    (loud : ¬Quiet h visits p.table) (late : bound ≤ p.snapshots.length + 1) :
    openCount visits (advance h visits bound p).table < openCount visits p.table := by
  have table : (advance h visits bound p).table =
      widenAll (pass h p.table visits).1 (pass h p.table visits).2 := by
    unfold advance
    dsimp only
    rw [if_pos late]
    exact widenTable _ _
  rw [← passQuiet] at loud
  obtain ⟨id, grown⟩ := List.exists_mem_of_ne_nil _ loud
  obtain ⟨listed, e, found, still⟩ := grownOpen settled grown
  obtain ⟨v, member, rfl⟩ := List.mem_map.mp listed
  have below := (lePass (h := h) settled visits).trans (leAdvance bound settled)
  apply openCountLt below member
  · simp [found, still]
  · rw [table]
    cases widened : (widenAll (pass h p.table visits).1 (pass h p.table visits).2).get? v.1 with
    | none => rfl
    | some e' =>
      simpa using widenAllUnknown (passSettled settled visits) grown widened

/- Before the bound every pass brings the bound one nearer; from the bound on every pass that grows
leaves one routine less that could grow. -/
theorem advanceNearer {visits : List Visit} (bound : Nat) {p : Progress} (settled : p.table.Settled)
    (loud : ¬Quiet h visits p.table) :
    bound - 1 - (p.snapshots.length + 1) + openCount visits (advance h visits bound p).table <
      bound - 1 - p.snapshots.length + openCount visits p.table := by
  have fewer := openCountLe ((lePass (h := h) settled visits).trans (leAdvance bound settled)) visits
  by_cases late : bound ≤ p.snapshots.length + 1
  · have less := advanceLate settled loud late
    omega
  · omega

theorem passesFinish {visits : List Visit} {bound fuel : Nat} {p : Progress}
    (settled : p.table.Settled)
    (enough : bound - 1 - p.snapshots.length + openCount visits p.table + 1 ≤ fuel) :
    Quiet h visits (passes h visits bound fuel p).table := by
  induction fuel generalizing p with
  | zero => omega
  | succ fuel ih =>
    by_cases quiet : Quiet h visits p.table
    · rw [passesEnd quiet]
      exact quiet
    · rw [passesAdvance quiet]
      have nearer := advanceNearer bound settled quiet
      apply ih (advanceSettled bound settled)
      rw [advanceSnapshots, List.length_cons]
      omega

theorem convergedUnwidened {visits : List Visit} {bound fuel : Nat} {p : Progress}
    (settled : p.table.Settled) (running : p.converged = false)
    (done : (passes h visits bound fuel p).converged = true) : p.widened = 0 := by
  induction fuel generalizing p with
  | zero =>
    rw [passes, running] at done
    contradiction
  | succ fuel ih =>
    by_cases quiet : Quiet h visits p.table
    · rw [passesEnd quiet] at done
      simpa using done
    · rw [passesAdvance quiet] at done
      have none := ih (advanceSettled bound settled) ((advanceConverged ..).trans running) done
      exact (advanceUnwidened settled none).1

theorem convergedInvariant {P : EffectTable → Prop} {visits : List Visit} {bound fuel : Nat}
    {p : Progress} (settled : p.table.Settled) (running : p.converged = false)
    (done : (passes h visits bound fuel p).converged = true)
    (step : ∀ t, ∀ v ∈ visits, P t → P (visit h t v).1) (start : P p.table) :
    P (passes h visits bound fuel p).table := by
  induction fuel generalizing p with
  | zero => exact start
  | succ fuel ih =>
    by_cases quiet : Quiet h visits p.table
    · rw [passesEnd quiet]
      exact start
    · rw [passesAdvance quiet] at done ⊢
      have kept : (advance h visits bound p).table.Settled := advanceSettled bound settled
      have still := (advanceConverged (h := h) visits bound p).trans running
      have none := convergedUnwidened kept still done
      apply ih kept still done
      rw [(advanceUnwidened settled none).2]
      exact passInvariant step start

end EffectAudit.Inference
