import WndxSane.Lib.Transition
import WndxSane.Lib.LexicalNormal
import WndxSane.Lib.FileTreeEntry
import WndxSane.Lib.Ownership
import WndxSane.ReceivedNames
import WndxSane.BlockOwnership
import WndxSane.Lifetime
import WndxSane.FailedCalls
import WndxSane.Comparison
import WndxSane.MkdirAlone
import WndxSane.InstalledHeaders
import WndxSane.Coverage
import WndxSane.Trimming
import WndxSane.SignalHandlers
import WndxSane.TrailingArgs
import WndxSane.ConfigureOptions
import WndxSane.CollectedHeaders
import WndxSane.ReadableRuns
import WndxSane.PipelineRuns
import WndxSane.NamedPlaces
import WndxSane.SignalRuns
import WndxSane.CreatedTargets
