import DeadCode.Analysis
import DeadCode.CommandLine.Run
import DeadCode.Library.Access
import DeadCode.Main
import DeadCode.Proofs.Access
import DeadCode.Proofs.BlankedCode
import DeadCode.Proofs.Blanking
import DeadCode.Proofs.BraceMatching
import DeadCode.Proofs.ByteGeometry
import DeadCode.Proofs.Calls
import DeadCode.Proofs.Chunks
import DeadCode.Proofs.ClassUses
import DeadCode.Proofs.ClassesAlone
import DeadCode.Proofs.Closure
import DeadCode.Proofs.Declarations
import DeadCode.Proofs.DefinitionLocality
import DeadCode.Proofs.DefinitionShapes
import DeadCode.Proofs.Definitions
import DeadCode.Proofs.DirectiveLayouts
import DeadCode.Proofs.DirectiveLines
import DeadCode.Proofs.EmptiedFiles
import DeadCode.Proofs.ExactCounts
import DeadCode.Proofs.Exclusions
import DeadCode.Proofs.ExportRoutes
import DeadCode.Proofs.Exports
import DeadCode.Proofs.FilePlaces
import DeadCode.Proofs.FollowedExports
import DeadCode.Proofs.FoundPaths
import DeadCode.Proofs.ImportTargets
import DeadCode.Proofs.KeptEntities
import DeadCode.Proofs.Language
import DeadCode.Proofs.LibraryMembership
import DeadCode.Proofs.LinkReading
import DeadCode.Proofs.LinkText
import DeadCode.Proofs.Matching
import DeadCode.Proofs.PackageAddresses
import DeadCode.Proofs.PathLocations
import DeadCode.Proofs.Preferred
import DeadCode.Proofs.Privacy
import DeadCode.Proofs.PrivateConstructors
import DeadCode.Proofs.ProperNests
import DeadCode.Proofs.QuietText
import DeadCode.Proofs.Recorded
import DeadCode.Proofs.RetainedNames
import DeadCode.Proofs.ScanStatistics
import DeadCode.Proofs.Scanning
import DeadCode.Proofs.SharedKeys
import DeadCode.Proofs.Signatures
import DeadCode.Proofs.Spelling
import DeadCode.Proofs.TableMerging
import DeadCode.Proofs.UnreadableFiles
import DeadCode.Proofs.UsageSums
import DeadCode.Proofs.Uses
import DeadCode.Proofs.Verdicts
import DeadCode.Proofs.Visits
import DeadCode.Proofs.WaitingDeclarations
import DeadCode.Proofs.WorkerIndependence
import DeadCode.Proofs.WorkerPool
import DeadCode.Proofs.WorkerShares
import DeadCode.Report.Terminal
import DeadCode.Source.FileScan
import DeadCode.Usage.Tally
