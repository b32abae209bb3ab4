import SourceDiagnostics.Assertion
import SourceDiagnostics.Log.Emission
import SourceDiagnostics.Report.Pass
import SourceDiagnostics.Report.Pool
import SourceDiagnostics.Verbosity
import SourceDiagnostics.Proofs.Construction
import SourceDiagnostics.Proofs.LineScan
import SourceDiagnostics.Proofs.PassOrder
import SourceDiagnostics.Proofs.Growth
import SourceDiagnostics.Proofs.LocationText
import SourceDiagnostics.Proofs.Resolution
import SourceDiagnostics.Proofs.NameFocus
import SourceDiagnostics.Proofs.WalkBound
import SourceDiagnostics.Proofs.BugMessage
import SourceDiagnostics.Proofs.Emission
import SourceDiagnostics.Proofs.PositionOrder
import SourceDiagnostics.Proofs.CodeFrame
import SourceDiagnostics.Proofs.MarkerColumns
import SourceDiagnostics.Proofs.Concatenation
import SourceDiagnostics.Proofs.PoolRuns
import SourceDiagnostics.Proofs.RenderFaults
import SourceDiagnostics.Proofs.Announcements
import SourceDiagnostics.Proofs.LocationIdentity
import SourceDiagnostics.Proofs.PrintedPosition
import SourceDiagnostics.Proofs.FullBuffer
import SourceDiagnostics.Proofs.ExpectedKinds
import SourceDiagnostics.Proofs.StableIds
