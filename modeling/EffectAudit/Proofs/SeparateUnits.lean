import EffectAudit.Proofs.Findings
import EffectAudit.Proofs.Inference.Locality
import EffectAudit.Proofs.Inference.Normal
import EffectAudit.Proofs.Inference.PassBound
import EffectAudit.Proofs.Published
import EffectAudit.Proofs.Site.Lookup
import EffectAudit.Proofs.Site.Targets
/-! A unit analysed in two parts. The library is a set of routines whose bodies name no others; it is
analysed by itself and published. The client is the rest of the unit, over stubs that keep of the
library no more than its signatures. Both parts find what the whole unit finds: the library because its
rules never leave it, the client because a reference to a stub stands for what was published. -/
namespace EffectAudit

def Routine.stub (span : Span) (r : Routine) : Routine :=
  { r with origin := .imported, body := none, span }

def Routine.imported (lib : RoutineId → Bool) (spans : RoutineId → Span) (r : Routine) : Routine :=
  if lib r.id then r.stub (spans r.id) else r

namespace Program

def library (lib : RoutineId → Bool) (p : Program) : Program :=
  { p with routines := p.routines.filter (lib ·.id) }

def client (lib : RoutineId → Bool) (spans : RoutineId → Span) (p : Program) : Program :=
  { p with routines := p.routines.map (·.imported lib spans) }

def Closed (lib : RoutineId → Bool) (p : Program) : Prop :=
  ∀ r ∈ p.routines, lib r.id = true → ∀ id ∈ r.references, lib id = true

end Program

variable {lib : RoutineId → Bool} {spans : RoutineId → Span} {program : Program}

theorem importedSignature (r : Routine) : (r.imported lib spans).signature = r.signature := by
  unfold Routine.imported
  split
  · rfl
  · rfl

theorem importedId (r : Routine) : (r.imported lib spans).id = r.id :=
  congrArg Prod.fst (importedSignature r)

theorem importedOwn {r : Routine} (own : lib r.id = false) : r.imported lib spans = r := by
  simp [Routine.imported, own]

theorem importedStub {r : Routine} (theirs : lib r.id = true) :
    r.imported lib spans = r.stub (spans r.id) := by
  simp [Routine.imported, theirs]

theorem libraryRoutine {id : RoutineId} (theirs : lib id = true) :
    (program.library lib).routine? id = program.routine? id := by
  unfold Program.routine? Program.library
  rw [List.find?_filter]
  congr 1
  funext r
  by_cases same : r.id = id
  · simp [same, theirs]
  · simp [same]

theorem clientRoutine (id : RoutineId) :
    ((program.client lib spans).routine? id) =
      (program.routine? id).map (·.imported lib spans) := by
  unfold Program.routine? Program.client
  rw [List.find?_map]
  congr 2
  funext r
  exact congrArg (· == id) (importedId r)

theorem clientRoutineOwn {id : RoutineId} (own : lib id = false) :
    (program.client lib spans).routine? id = program.routine? id := by
  rw [clientRoutine]
  cases found : program.routine? id with
  | none => rfl
  | some r =>
    have name : r.id = id := by simpa using List.find?_some found
    rw [Option.map_some, importedOwn (name ▸ own)]

theorem libraryDistinct (distinct : (program.routines.map (·.id)).Nodup) :
    ((program.library lib).routines.map (·.id)).Nodup :=
  distinct.sublist (List.filter_sublist.map _)

theorem clientNames :
    (program.client lib spans).routines.map (·.id) = program.routines.map (·.id) := by
  unfold Program.client
  rw [List.map_map]
  congr 1
  funext r
  exact importedId r

theorem libraryBodies : (program.library lib).bodyCount ≤ program.bodyCount :=
  List.filter_sublist.countP_le

theorem clientBodies : (program.client lib spans).bodyCount ≤ program.bodyCount := by
  unfold Program.bodyCount Program.client
  rw [List.countP_map]
  apply List.countP_mono_left
  intro r _ body
  cases theirs : lib r.id with
  | false => simpa [importedOwn theirs] using body
  | true => simp [importedStub theirs, Routine.stub, Routine.hasBody] at body

theorem librarySites (h : Hierarchies) (closed : program.Closed lib) {r : Routine}
    (listed : r ∈ program.routines) (theirs : lib r.id = true) {s : RoutineSites}
    (ok : Collect.routineSites program h r = .ok s) :
    Collect.routineSites (program.library lib) h r = .ok s := by
  refine Collect.routineSitesAlike ok ⟨rfl, fun _ _ _ legal => legal, rfl, ?_, fun _ => rfl⟩
  intro id named
  exact congrArg _ (libraryRoutine (closed r listed theirs id named)).symm

theorem clientSites {h : Hierarchies} {r : Routine} {s : RoutineSites}
    (ok : Collect.routineSites program h r = .ok s) :
    Collect.routineSites (program.client lib spans) h r = .ok s := by
  refine Collect.routineSitesAlike ok ⟨rfl, fun _ _ _ legal => legal, rfl, ?_, fun _ => rfl⟩
  intro id _
  rw [clientRoutine, Option.map_map]
  congr 1
  funext r
  exact (importedSignature r).symm

theorem stubSites {h : Hierarchies} {r : Routine} {s : RoutineSites}
    (ok : Collect.routineSites program h r = .ok s) (span : Span) :
    ∃ s', Collect.routineSites program h (r.stub span) = .ok s' := by
  unfold Collect.routineSites at ok
  obtain ⟨_, clauses, ok⟩ := bindOk.mp ok
  obtain ⟨_, params, _⟩ := bindOk.mp ok
  refine ⟨.ofEvents r.id [], ?_⟩
  unfold Collect.routineSites
  exact bindOk.mpr ⟨(), clauses, bindOk.mpr ⟨(), params, bindOk.mpr ⟨({}, []), rfl, rfl⟩⟩⟩

section Built

variable {h : Hierarchies} {g : CallGraph} (built : CallGraph.ofProgram program h = .ok g)
include built

theorem libraryBuilds (closed : program.Closed lib) :
    ∃ g', CallGraph.ofProgram (program.library lib) h = .ok g' := by
  obtain ⟨distinct, globals, _⟩ := CallGraph.ofProgramOk.mp built
  refine CallGraph.builds (libraryDistinct distinct) globals ?_
  intro r member
  obtain ⟨listed, theirs⟩ := List.mem_filter.mp member
  obtain ⟨s, _, ok⟩ := CallGraph.sitesOfRoutine built listed
  exact ⟨s, librarySites h closed listed theirs ok⟩

theorem clientBuilds (lib : RoutineId → Bool) (spans : RoutineId → Span) :
    ∃ g', CallGraph.ofProgram (program.client lib spans) h = .ok g' := by
  obtain ⟨distinct, globals, _⟩ := CallGraph.ofProgramOk.mp built
  refine CallGraph.builds (by rw [clientNames]; exact distinct) globals ?_
  intro r' member
  obtain ⟨r, listed, rfl⟩ := List.mem_map.mp member
  obtain ⟨s, _, ok⟩ := CallGraph.sitesOfRoutine built listed
  have walked : Collect.routineSites (program.client lib spans) h r = .ok s :=
    clientSites ok
  cases theirs : lib r.id with
  | false => exact ⟨s, by rw [importedOwn theirs]; exact walked⟩
  | true =>
    rw [importedStub theirs]
    exact stubSites walked _

variable {part : Program} {g' : CallGraph} (built' : CallGraph.ofProgram part h = .ok g')
include built'

theorem partSites {r : Routine} (listed : r ∈ program.routines) (kept : r ∈ part.routines)
    (alike : ∀ {s}, Collect.routineSites program h r = .ok s → Collect.routineSites part h r = .ok s) :
    g.sites? r.id = g'.sites? r.id := by
  obtain ⟨s, found, ok⟩ := CallGraph.sitesOfRoutine built listed
  obtain ⟨s', found', ok'⟩ := CallGraph.sitesOfRoutine built' kept
  rw [alike ok] at ok'
  rw [found, found', Except.ok.inj ok']

end Built

def librarySetting (config : Config) (lib : RoutineId → Bool) (program : Program) (h : Hierarchies)
    (gl : CallGraph) : Inference.Setting :=
  inferenceOf config {} (program.library lib) h gl

section Library

variable {config : Config} {h : Hierarchies} {g gl : CallGraph} (closed : program.Closed lib)
  (built : CallGraph.ofProgram program h = .ok g)
  (builtLibrary : CallGraph.ofProgram (program.library lib) h = .ok gl)
include closed built builtLibrary

theorem librarySame : Inference.SameWithin (fun id => lib id = true ∧ ∃ r ∈ program.routines, r.id = id)
    (inferenceOf config {} program h g) (librarySetting config lib program h gl) := by
  have sites : ∀ r ∈ program.routines, lib r.id = true → g.sites? r.id = gl.sites? r.id := by
    intro r listed theirs
    exact partSites built builtLibrary listed (List.mem_filter.mpr ⟨listed, theirs⟩)
      (librarySites h closed listed theirs)
  refine ⟨rfl, ?_, ?_, ?_⟩
  · intro id within
    have distinct := (CallGraph.ofProgramOk.mp built).1
    have whole := Inference.seedGet (i := inferenceOf config {} program h g) distinct id
    have part := Inference.seedGet (i := librarySetting config lib program h gl)
      (libraryDistinct distinct) id
    rw [whole, part]
    exact congrArg (Option.map _) (libraryRoutine within.1).symm
  · rintro id ⟨theirs, r, listed, rfl⟩
    exact sites r listed theirs
  · rintro id ⟨theirs, r, listed, rfl⟩ walked found site inside category callee subject out
    -- the library has looked up every routine that its sites lead to
    obtain ⟨r', kept, name⟩ := CallGraph.targetListed builtLibrary
      ((sites r listed theirs).symm.trans found) inside (Site.Edge.subjectTarget subject)
    obtain ⟨there, inLibrary⟩ := List.mem_filter.mp kept
    exact absurd ⟨name ▸ inLibrary, r', there, name⟩ out

theorem libraryEntry (auto : config.maxPasses = 0) (fits : program.bodyCount < Config.countLimit)
    {r : Routine} (listed : r ∈ program.routines) (theirs : lib r.id = true) :
    (Inference.run (inferenceOf config {} program h g)).table.get? r.id =
      (Inference.run (librarySetting config lib program h gl)).table.get? r.id := by
  have done := Inference.derivedBoundConverges (i := inferenceOf config {} program h g) built auto fits
  have done' := Inference.derivedBoundConverges (i := librarySetting config lib program h gl)
    builtLibrary auto (libraryBodies.trans_lt fits)
  exact Inference.runsAgreeWithin built builtLibrary (librarySame closed built builtLibrary) done done'
    ⟨theirs, r, listed, rfl⟩

end Library

def publishedLibrary (config : Config) (lib : RoutineId → Bool) (program : Program) (h : Hierarchies)
    (gl : CallGraph) : Registry :=
  ⟨[(concluded config {} (program.library lib) h gl).published]⟩

def clientSetting (config : Config) (lib : RoutineId → Bool) (spans : RoutineId → Span)
    (program : Program) (h : Hierarchies) (gl gc : CallGraph) : Inference.Setting :=
  inferenceOf config (publishedLibrary config lib program h gl) (program.client lib spans) h gc

section Published

variable {config : Config} {h : Hierarchies} {g gl gc : CallGraph}
  (builtLibrary : CallGraph.ofProgram (program.library lib) h = .ok gl)
include builtLibrary

theorem publishedLookup (id : RoutineId) (category : Category) :
    (publishedLibrary config lib program h gl).lookup? id category =
      ((Inference.run (librarySetting config lib program h gl)).table.get? id).map
        fun e => (e.get category).resolved := by
  apply Registry.lookupTable
  intro name e found
  have shape := Inference.runShaped (i := librarySetting config lib program h gl) builtLibrary
  obtain ⟨r, _, same, entry⟩ := shape.only name e found
  exact entry.routine.trans same

theorem publishedOnlyLibrary {id : RoutineId} (own : lib id = false) (category : Category) :
    (publishedLibrary config lib program h gl).lookup? id category = none := by
  have shape := Inference.runShaped (i := librarySetting config lib program h gl) builtLibrary
  have unlisted : ¬∃ r ∈ (program.library lib).routines, r.id = id := by
    rintro ⟨r, kept, rfl⟩
    have theirs := (List.mem_filter.mp kept).2
    rw [own] at theirs
    contradiction
  rw [publishedLookup builtLibrary, Inference.unlistedAbsent shape unlisted]
  rfl

theorem clientSeed {r : Routine} (own : lib r.id = false) :
    Inference.seedRoutine (clientSetting config lib spans program h gl gc) r =
      Inference.seedRoutine (inferenceOf config {} program h g) r := by
  have part (category : Category) :
      Inference.seedCategory (clientSetting config lib spans program h gl gc) r category =
        Inference.seedCategory (inferenceOf config {} program h g) r category := by
    have nothing : Inference.publishedSet? (clientSetting config lib spans program h gl gc) r category =
        Inference.publishedSet? (inferenceOf config {} program h g) r category := by
      unfold Inference.publishedSet? clientSetting inferenceOf
      dsimp only
      rw [publishedOnlyLibrary builtLibrary own]
      rfl
    unfold Inference.seedCategory
    rw [nothing]
    rfl
  unfold Inference.seedRoutine
  rw [part .raises, part .tags]

end Published

section Client

variable {config : Config} {h : Hierarchies} {g gl gc : CallGraph} (auto : config.maxPasses = 0)
  (fits : program.bodyCount < Config.countLimit) (closed : program.Closed lib)
  (built : CallGraph.ofProgram program h = .ok g)
  (builtLibrary : CallGraph.ofProgram (program.library lib) h = .ok gl)
  (builtClient : CallGraph.ofProgram (program.client lib spans) h = .ok gc)
include auto fits closed built builtLibrary

/- A stub that declares nothing starts with what the whole unit infers for the routine. The set is in
normal form, so it is read back as it was published. -/
theorem stubSeed {r : Routine} (listed : r ∈ program.routines) (theirs : lib r.id = true)
    {category : Category} (free : r.declared category = none) {e : RoutineEffects}
    (found : (Inference.run (inferenceOf config {} program h g)).table.get? r.id = some e) :
    Inference.seedCategory (clientSetting config lib spans program h gl gc) (r.stub (spans r.id))
      category = .ofInferred (e.get category).resolved := by
  have clause : (r.stub (spans r.id)).declared category = none := free
  have told : (publishedLibrary config lib program h gl).lookup? r.id category =
      some (e.get category).resolved := by
    rw [publishedLookup builtLibrary, ← libraryEntry closed built builtLibrary auto fits listed theirs,
      found]
    rfl
  have published : Inference.publishedSet? (clientSetting config lib spans program h gl gc)
      (r.stub (spans r.id)) category = some (e.get category).resolved := by
    unfold Inference.publishedSet?
    rw [clause]
    exact told
  have normal := (Inference.runNormal (i := inferenceOf config {} program h g) built
    r.id e found category).1
  unfold Inference.seedCategory
  rw [clause, published]
  exact congrArg CategoryEffects.ofInferred (EffectSet.normalizedSame normal)

include builtClient

/- A reference to a stub stands for what a reference to the routine stands for in the whole unit. Only
an undeclared routine that is not dispatched is read from what was published. -/
theorem stubReference {r : Routine} (listed : r ∈ program.routines) (theirs : lib r.id = true)
    (category : Category) :
    (Inference.run (inferenceOf config {} program h g)).table.referenceSet r.id category =
      (Inference.run (clientSetting config lib spans program h gl gc)).table.referenceSet
        r.id category := by
  have shape := Inference.runShaped (i := inferenceOf config {} program h g) built
  have shape' := Inference.runShaped (i := clientSetting config lib spans program h gl gc) builtClient
  have kept : r.stub (spans r.id) ∈ (program.client lib spans).routines :=
    List.mem_map.mpr ⟨r, listed, importedStub theirs⟩
  obtain ⟨e, found, entry⟩ := shape.entry r listed
  obtain ⟨e', found', entry'⟩ := shape'.entry _ kept
  have name : (r.stub (spans r.id)).id = r.id := rfl
  have kind : (r.stub (spans r.id)).kind = r.kind := rfl
  have clause : (r.stub (spans r.id)).declared category = r.declared category := rfl
  have now := entry.category category
  have stub := entry'.category category
  rw [name] at found'
  simp only [EffectTable.referenceSet, found, found', RoutineEffects.referenceSet, entry.dispatched,
    entry'.dispatched, now.declared, stub.declared, kind, clause]
  split
  · rfl
  · cases given : r.declared category with
    | some kinds =>
      rw [now.final kinds given, stub.final kinds (clause.trans given)]
      rfl
    | none =>
      rw [stub.bodiless rfl, stubSeed auto fits closed built builtLibrary listed theirs given found]
      rfl

theorem clientSame : Inference.SameWithin (fun id => lib id = false ∧ ∃ r ∈ program.routines, r.id = id)
    (inferenceOf config {} program h g) (clientSetting config lib spans program h gl gc) := by
  refine ⟨rfl, ?_, ?_, ?_⟩
  · rintro id ⟨own, r, listed, rfl⟩
    have distinct := (CallGraph.ofProgramOk.mp built).1
    have here : program.routine? r.id = some r := (Inference.routineFound distinct).mpr ⟨listed, rfl⟩
    have whole : (Inference.seed (inferenceOf config {} program h g)).get? r.id =
        (program.routine? r.id).map (Inference.seedRoutine (inferenceOf config {} program h g)) :=
      Inference.seedGet distinct r.id
    have part : (Inference.seed (clientSetting config lib spans program h gl gc)).get? r.id =
        ((program.client lib spans).routine? r.id).map
          (Inference.seedRoutine (clientSetting config lib spans program h gl gc)) :=
      Inference.seedGet (CallGraph.ofProgramOk.mp builtClient).1 r.id
    rw [whole, part, clientRoutineOwn own, here, Option.map_some, Option.map_some,
      clientSeed builtLibrary own]
  · rintro id ⟨own, r, listed, rfl⟩
    exact partSites built builtClient listed (List.mem_map.mpr ⟨r, listed, importedOwn own⟩)
      clientSites
  · intro id _ walked found site inside category callee subject out
    obtain ⟨r, there, rfl⟩ := CallGraph.targetListed built found inside
      (Site.Edge.subjectTarget subject)
    have theirs : lib r.id = true := by
      rw [← Bool.not_eq_false]
      intro own
      exact out ⟨own, r, there, rfl⟩
    exact stubReference auto fits closed built builtLibrary builtClient there theirs category

theorem clientEntry {r : Routine} (listed : r ∈ program.routines) (own : lib r.id = false) :
    (Inference.run (inferenceOf config {} program h g)).table.get? r.id =
      (Inference.run (clientSetting config lib spans program h gl gc)).table.get? r.id := by
  have done := Inference.derivedBoundConverges (i := inferenceOf config {} program h g) built auto fits
  have done' := Inference.derivedBoundConverges (i := clientSetting config lib spans program h gl gc)
    builtClient auto (clientBodies.trans_lt fits)
  have same := clientSame auto fits closed built builtLibrary builtClient
  exact Inference.runsAgreeWithin built builtClient same done done' ⟨own, r, listed, rfl⟩

theorem clientReference (id : RoutineId) (category : Category) :
    (Inference.run (inferenceOf config {} program h g)).table.referenceSet id category =
      (Inference.run (clientSetting config lib spans program h gl gc)).table.referenceSet
        id category := by
  by_cases known : ∃ r ∈ program.routines, r.id = id
  · obtain ⟨r, listed, rfl⟩ := known
    cases theirs : lib r.id with
    | true => exact stubReference auto fits closed built builtLibrary builtClient listed theirs category
    | false =>
      unfold EffectTable.referenceSet
      rw [clientEntry auto fits closed built builtLibrary builtClient listed theirs]
  · have shape := Inference.runShaped (i := inferenceOf config {} program h g) built
    have shape' := Inference.runShaped (i := clientSetting config lib spans program h gl gc) builtClient
    have unlisted : ¬∃ r ∈ (program.client lib spans).routines, r.id = id := by
      rintro ⟨r', kept, name⟩
      obtain ⟨r, listed, rfl⟩ := List.mem_map.mp kept
      exact known ⟨r, listed, (importedId r).symm.trans name⟩
    unfold EffectTable.referenceSet
    rw [Inference.unlistedAbsent shape known, Inference.unlistedAbsent shape' unlisted]

end Client

structure SameRoutine (a b : UnitResult) (id : RoutineId) : Prop where
  entry : ∃ e, a.table.get? id = some e ∧ b.table.get? id = some e
  violations : a.violations.filter (·.routine == id) = b.violations.filter (·.routine == id)
  reports : a.reports.filter (·.routine == id) = b.reports.filter (·.routine == id)

theorem separateUnitsAgree {config : Config} {program : Program} {lib : RoutineId → Bool}
    (spans : RoutineId → Span) (auto : config.maxPasses = 0)
    (fits : program.bodyCount < Config.countLimit) (closed : program.Closed lib) {a : UnitResult}
    (ok : analyze config {} program = .ok a) :
    ∃ b c, analyze config {} (program.library lib) = .ok b ∧
      (∀ r ∈ program.routines, lib r.id = true →
        ∃ e, a.table.get? r.id = some e ∧ b.table.get? r.id = some e) ∧
      analyze config ⟨[b.published]⟩ (program.client lib spans) = .ok c ∧
      ∀ r ∈ program.routines, lib r.id = false → SameRoutine a c r.id := by
  obtain ⟨h, g, valid, hierarchies, built, rfl⟩ := analyzeOk.mp ok
  obtain ⟨gl, builtLibrary⟩ := libraryBuilds built closed
  obtain ⟨gc, builtClient⟩ := clientBuilds built lib spans
  have shape := Inference.runShaped (i := inferenceOf config {} program h g) built
  refine ⟨concluded config {} (program.library lib) h gl,
    concluded config (publishedLibrary config lib program h gl) (program.client lib spans) h gc,
    analyzeOk.mpr ⟨h, gl, valid, hierarchies, builtLibrary, rfl⟩, ?_,
    analyzeOk.mpr ⟨h, gc, valid, hierarchies, builtClient, rfl⟩, ?_⟩
  · intro r listed theirs
    obtain ⟨e, found, _⟩ := shape.entry r listed
    refine ⟨e, found, ?_⟩
    exact (libraryEntry closed built builtLibrary auto fits listed theirs).symm.trans found
  · intro r listed own
    obtain ⟨e, found, _⟩ := shape.entry r listed
    have entry := clientEntry auto fits closed built builtLibrary builtClient listed own
    have references := clientReference auto fits closed built builtLibrary builtClient
    have sites : g.sites? r.id = gc.sites? r.id :=
      partSites built builtClient listed (List.mem_map.mpr ⟨r, listed, importedOwn own⟩) clientSites
    refine ⟨⟨e, found, entry.symm.trans found⟩, ?_, ?_⟩
    · have here := (Inference.routineFound (CallGraph.ofProgramOk.mp built).1).mpr ⟨listed, rfl⟩
      rw [concludedViolations built, concludedViolations builtClient, clientRoutineOwn own, here,
        Option.toList_some, List.flatMap_singleton, List.flatMap_singleton]
      exact ownViolationsSame entry sites references
    · rw [concludedReports built, concludedReports builtClient, sites]
      congr 2
      exact ownReportsSame references

/- A library whose routines call each other under a handler, with a method among them, and a client that
declares to raise nothing and calls it through a local. -/
def courier : Program :=
  { unit := "courier"
    routines := [
      { id := "parse"
        body := some [
          .protect [.expr (.call (.routine "scan") [] .zero)] [.mk ["KeyError"] []] none,
          .raise (some "Timeout") [] .zero] },
      { id := "deliver"
        effects := { raises := some [] }
        body := some [
          .define "step" none (some (.routine "parse")) .zero,
          .expr (.call (.binding "step") [] .zero),
          .marker none .zero,
          .expr (.call (.routine "hook") [] .zero)] },
      { id := "scan"
        body := some [.raise (some "KeyError") [] .zero, .raise (some "IOError") [] .zero,
          .expr (.call (.routine "parse") [] .zero)] },
      { id := "hook"
        kind := .method
        effects := { tags := some ["TimeEffect"] }
        body := some [] }] }

def courierLibrary (id : RoutineId) : Bool := id != "deliver"

def courierConfig : Config := { Config.ofPreset .permissive with reportMarkers := true }

theorem courierInParts :
    ∃ a, analyze courierConfig {} courier = .ok a ∧
      a.violations.length = 1 ∧ a.reports.length = 1 ∧
      ∃ b c, analyze courierConfig {} (courier.library courierLibrary) = .ok b ∧
        (∀ r ∈ courier.routines, courierLibrary r.id = true →
          ∃ e, a.table.get? r.id = some e ∧ b.table.get? r.id = some e) ∧
        analyze courierConfig ⟨[b.published]⟩
          (courier.client courierLibrary fun _ => .zero) = .ok c ∧
        ∀ r ∈ courier.routines, courierLibrary r.id = false → SameRoutine a c r.id := by
  have counts : (analyze courierConfig {} courier).toOption.map
      (fun a => (a.violations.length, a.reports.length)) = some (1, 1) := by decide +kernel
  have closed : courier.Closed courierLibrary := by unfold Program.Closed; decide +kernel
  cases ok : analyze courierConfig {} courier with
  | error e =>
    rw [ok] at counts
    contradiction
  | ok a =>
    rw [ok] at counts
    obtain ⟨violations, reports⟩ := Prod.mk.inj (Option.some.inj counts)
    exact ⟨a, rfl, violations, reports,
      separateUnitsAgree (fun _ => .zero) rfl (by decide) closed ok⟩

end EffectAudit
