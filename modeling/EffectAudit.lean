import EffectAudit.Main
import EffectAudit.Program.Build
import EffectAudit.Proofs.Admission
import EffectAudit.Proofs.Analysis
import EffectAudit.Proofs.CallGraph.Built
import EffectAudit.Proofs.CallGraph.Search
import EffectAudit.Proofs.Execution
import EffectAudit.Proofs.Execution.Position
import EffectAudit.Proofs.Execution.Soundness
import EffectAudit.Proofs.Hierarchy
import EffectAudit.Proofs.Inclusion
import EffectAudit.Proofs.Inference.Chains
import EffectAudit.Proofs.Inference.LeastSolution
import EffectAudit.Proofs.Inference.PassBound
import EffectAudit.Proofs.Inference.Passes
import EffectAudit.Proofs.Inference.Runs
import EffectAudit.Proofs.Inference.Shape
import EffectAudit.Proofs.OrderIndependence
import EffectAudit.Proofs.Propagation
import EffectAudit.Proofs.Site.Lookup
import EffectAudit.Proofs.Inference.Paths
import EffectAudit.Proofs.Inference.ExplicitBound
import EffectAudit.Proofs.Tree
import EffectAudit.Proofs.Tree.Flattening
import EffectAudit.Proofs.Inference.Locality
import EffectAudit.Proofs.Inference.Normal
import EffectAudit.Proofs.Inference.Snapshots
import EffectAudit.Proofs.Site.Targets
import EffectAudit.Proofs.Published
import EffectAudit.Proofs.SeparateUnits
import EffectAudit.Proofs.Hierarchy.Declared
import EffectAudit.Proofs.Site.Legality
import EffectAudit.Proofs.Strictness
import EffectAudit.Proofs.Defects
import EffectAudit.Proofs.Site.Exclusion
import EffectAudit.Proofs.Tree.Markers
import EffectAudit.Proofs.Aliases
import EffectAudit.Proofs.Mentions
import EffectAudit.Proofs.CopiedSignature
import EffectAudit.Proofs.CallGraph.Components
import EffectAudit.Proofs.CallGraph.CalleesFirst
import EffectAudit.Proofs.Json.Plain
import EffectAudit.Proofs.Program.Written
import EffectAudit.Proofs.Json.Text
import EffectAudit.Proofs.Program.RoundTrip
import EffectAudit.Proofs.Inference.OneWorkingPass
import EffectAudit.Proofs.Hierarchy.Arising
import EffectAudit.Proofs.EffectSet.Meaning
import EffectAudit.Proofs.EffectSet.Subtraction
import EffectAudit.Proofs.Assignability
import EffectAudit.Proofs.Site.Stretches
import EffectAudit.Proofs.Site.Enclosures
import EffectAudit.Proofs.Reports
import EffectAudit.Proofs.AppendedCode
import EffectAudit.Proofs.Inference.Interchange
import EffectAudit.Proofs.AliasTransparency
import EffectAudit.Proofs.Hierarchy.Walks
import EffectAudit.Proofs.Hierarchy.Extension
import EffectAudit.Proofs.Published.Exchange
