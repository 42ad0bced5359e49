import Fiction.Library.TransitionSystem
import Fiction.Layouts.PlacementInvariant
import Fiction.Layouts.InputOutputClassification
import Fiction.Layouts.DataFlow
import Fiction.Layouts.ReferenceInvariant
import Fiction.Layouts.Liveness
import Fiction.Layouts.Feedback
import Fiction.Networks.Registers
import Fiction.Networks.InputSortRuns
import Fiction.Networks.GateIteration
import Fiction.Library.Counting
import Fiction.PhysicalDesign.Agreement
import Fiction.PhysicalDesign.Synchronization
import Fiction.NetworkTransformation.FanoutCheck
import Fiction.NetworkTransformation.InverterTermination
import Fiction.NetworkTransformation.NetworkBalancing
import Fiction.Verification.DesignRuleViolations
import Fiction.Library.DepthFirst
import Fiction.PhysicalDesign.AsynchronousAgreement
import Fiction.Formats.FqcaRows
import Fiction.Formats.FqcaRoundTrip
import Fiction.Networks.SequentialClassification
import Fiction.Layouts.CoordinateEnumeration
import Fiction.Formats.FqcaOffsetCoordinates
import Fiction.Layouts.HexagonalGeometry
import Fiction.Verification.EquivalenceChecking
import Fiction.PhysicalDesign.GatePlacement
import Fiction.PhysicalDesign.MajorityBuffer
import Fiction.PhysicalDesign.OrthogonalSize
import Fiction.PhysicalDesign.OrthogonalCorrectness
import Fiction.PhysicalDesign.OrthogonalDesignRules
import Fiction.PhysicalDesign.OrthogonalFlow
import Fiction.PhysicalDesign.OrthogonalTiming
import Fiction.PhysicalDesign.GateGeometry
import Fiction.PhysicalDesign.CellConnectivity
import Fiction.Layouts.BoundingBox
import Fiction.Layouts.CellStorage
import Fiction.Networks.PoSubstitution
import Fiction.NetworkTransformation.NamePreservation
import Fiction.Networks.InputSortViewRuns
import Fiction.Technology.InmlTopolinanoLibrary
import Fiction.Technology.HumpMerges
import Fiction.Technology.ContentPreservation
import Fiction.Properties.Throughput
import Fiction.PhysicalDesign.AspectRatioEnumeration
import Fiction.PhysicalDesign.AspectRatioOrder
import Fiction.PhysicalDesign.BranchingSignals
import Fiction.Formats.TtReader
import Fiction.Technology.GateRotations
import Fiction.PhysicalDesign.IncomingPaths
import Fiction.PhysicalDesign.InverseLevelSearch
import Fiction.Layouts.CoordinatePacking
import Fiction.Layouts.ClockingDegrees
