import Dataflow.Graph.Consistency
import Dataflow.Journal.Build
import Dataflow.Journal.Pass
import Dataflow.Location
import Dataflow.Proofs.Dependencies
import Dataflow.Proofs.PassResults
import Dataflow.Proofs.PatternCoverage
import Dataflow.Proofs.StoredGraphs
import Dataflow.Proofs.FixedPoints
import Dataflow.Proofs.Refusals
import Dataflow.Proofs.Rebuilding
import Dataflow.Proofs.FieldExtents
import Dataflow.Proofs.Mirroring
import Dataflow.Proofs.ListPayloads
import Dataflow.Proofs.IndexOrder
import Dataflow.Proofs.Splicing
import Dataflow.Proofs.SpliceOrder
import Dataflow.Proofs.Replacing
import Dataflow.Proofs.Inserting
import Dataflow.Proofs.Swapping
import Dataflow.Proofs.Folding
import Dataflow.Proofs.FileRewriting
import Dataflow.Proofs.DanglingInputs
import Dataflow.Proofs.Building
import Dataflow.Proofs.Undoing
import Dataflow.Proofs.Signs
import Dataflow.Proofs.ControlInputs
import Dataflow.Proofs.KeptSigns
import Dataflow.Proofs.Matching
import Dataflow.Proofs.Elements
import Dataflow.Proofs.Encodings
import Dataflow.Proofs.Constants
import Dataflow.Proofs.FoldingRuns
import Dataflow.Proofs.CommonShapes
import Dataflow.Proofs.ReferenceGrammar
import Dataflow.Proofs.Keys
import Dataflow.Proofs.SharedMemory
import Dataflow.Proofs.CanonicalReferences
