import Fhetch.Ir
import Fhetch.Lib.StraightLine
import Fhetch.Simulator
import Fhetch.Locality
import Fhetch.ReportedErrors
import Fhetch.Liveness
import Fhetch.LiveIn
import Fhetch.Replay
import Fhetch.Lib.Bytes
import Fhetch.Encoding
import Fhetch.EncodingRoundTrip
import Fhetch.HostileBytes
import Fhetch.Lib.Text
import Fhetch.Reader
import Fhetch.ReaderSpec
import Fhetch.SilentLines
import Fhetch.InlineComments
import Fhetch.Validation
import Fhetch.Writer
import Fhetch.RecordForms
import Fhetch.RenderedLines
import Fhetch.TextRoundTrip
import Fhetch.TwoReads
import Fhetch.CommentIsolation
import Fhetch.HeaderFields
import Fhetch.TraceWriter
import Fhetch.ModulusTable
import Fhetch.Lib.Runs
import Fhetch.RecordingRuns
import Fhetch.RecordedSession
import Fhetch.RecordingWindows
import Fhetch.TraceDirectory
import Fhetch.CacheNames
import Fhetch.Probes
import Fhetch.RecycledAddresses
import Fhetch.Lib.Crt
import Fhetch.Lib.SingleAssignment
import Fhetch.Api
import Fhetch.Gadgets
import Fhetch.RecordedCode
import Fhetch.Computations
import Fhetch.WordArithmetic
import Fhetch.BaseConversion
import Fhetch.Rescaling
import Fhetch.DigitDecomposition
import Fhetch.StoredValues
import Fhetch.Sessions
import Fhetch.CacheHit
import Fhetch.HostPrograms
import Fhetch.ResetIsolation
import Fhetch.CapturedTags
import Fhetch.ProbeMeaning
import Fhetch.DirectEvaluation
import Fhetch.SessionMeaning
import Fhetch.ConstantTerm
import Fhetch.RingAutomorphisms
import Fhetch.AddressWidth
import Fhetch.RootedTransforms
import Fhetch.Driver
import Fhetch.RejectedInstructions
import Fhetch.StoreAgreement
import Fhetch.CopyLineage
import Fhetch.AccumulatedProducts
import Fhetch.ModulusSwitches
import Fhetch.NumberTokens
import Fhetch.ModulusChain
import Fhetch.PrimitiveRoots
import Fhetch.TransformTables
import Fhetch.UnknownTags
import Fhetch.ReadingBounds
import Fhetch.RewrittenHeaders
import Fhetch.CapturedShapes
import Fhetch.DrivenMeaning
import Fhetch.RingMeaning
import Fhetch.LibraryRange
import Fhetch.ResiduePrograms
import Fhetch.ProjectFiles
import Fhetch.ProjectRecording
import Fhetch.ProjectReplay
import Fhetch.SeparateProcesses
import Fhetch.ProbeResults
import Fhetch.ProbedRecordings
