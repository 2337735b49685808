import StackScript.Sample.Natives
import StackScript.Sample.Plane
import StackScript.Main
import StackScript.Proofs.Tables
import StackScript.Proofs.Verification
import StackScript.Proofs.SourceCode
import StackScript.Proofs.Recovery
import StackScript.Proofs.WellFormedCode
import StackScript.Proofs.StatementStarts
import StackScript.Proofs.StatementGrammar
import StackScript.Proofs.FusedCalls
import StackScript.Proofs.Sessions
import StackScript.Proofs.CallProtocol
import StackScript.Proofs.LayoutIndependence
import StackScript.Proofs.Progress
import StackScript.Proofs.Receivers
import StackScript.Proofs.Resolution
import StackScript.Proofs.TokenPlaces
import StackScript.Proofs.Conduct
import StackScript.Proofs.LineTables
import StackScript.Proofs.Provenance
import StackScript.Proofs.FaultPlaces
import StackScript.Proofs.RunCourse
import StackScript.Proofs.FaultLines
import StackScript.Proofs.ScopeKeeping
import StackScript.Proofs.ScopeTables
import StackScript.Proofs.CompilationRuns
import StackScript.Proofs.DeclarationCalls
import StackScript.Proofs.DiagnosticOrder
import StackScript.Proofs.CapturedVariables
import StackScript.Proofs.InstructionFormat
import StackScript.Proofs.SourcePartition
import StackScript.Proofs.Respelling
import StackScript.Proofs.TableHistory
import StackScript.Proofs.ValueWords
import StackScript.Proofs.ClassTables
import StackScript.Proofs.Marshalling
import StackScript.Proofs.HostAccess
import StackScript.Proofs.HostRegistration
import StackScript.Proofs.BraceCounting
