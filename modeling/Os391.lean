import Os391.Refusal
import Os391.FileReads
import Os391.Bracket
import Os391.AddressSpace
import Os391.Gate
import Os391.Arguments
import Os391.VideoWindow
import Os391.Scrolling
import Os391.Terminals
import Os391.KeyIndex
import Os391.LineInput
import Os391.Isolation
import Os391.Directory
import Os391.Lookup
import Os391.ReadResults
import Os391.Programs
import Os391.PendingInput
import Os391.Modifiers
import Os391.Wrapping
import Os391.RealTimeClock
import Os391.InterruptController
import Os391.Vidmap
import Os391.Chunks
import Os391.Assembly
import Os391.Conversions
import Os391.Frames
import Os391.GrepOutput
import Os391.KernelStacks
import Os391.BlockMoves
import Os391.Shell
import Os391.Interrupts
import Os391.EndOfInterrupt
