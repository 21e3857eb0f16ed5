import AnnexB.Main
import AnnexB.AccessUnit.Drive
import AnnexB.Source.Yuv
import AnnexB.Storage.Memory
import AnnexB.Proofs.Streaming
import AnnexB.Proofs.Writing
import AnnexB.Proofs.Sources
import AnnexB.Proofs.Scan
import AnnexB.Proofs.Opening
import AnnexB.Proofs.Bits.Operations
import AnnexB.Proofs.Bits.RoundTrip
import AnnexB.Proofs.Runs
import AnnexB.Proofs.Delimiters
import AnnexB.Proofs.Remuxing
import AnnexB.Proofs.BaseLayer
import AnnexB.Proofs.Alignment
import AnnexB.Proofs.Failures.Sources
import AnnexB.Proofs.Bits.Requests
import AnnexB.Proofs.Headers
import AnnexB.Proofs.Replaying
import AnnexB.Proofs.Bits.Transfers
import AnnexB.Proofs.Regions
import AnnexB.Proofs.Bits.ExtensionHeader
import AnnexB.Proofs.Positions
import AnnexB.Proofs.Blocks
import AnnexB.Proofs.Failures.Relapses
import AnnexB.Proofs.Failures.Padding
import AnnexB.Proofs.RelativeSeeks
import AnnexB.Proofs.Failures.LostSamples
import AnnexB.Proofs.Failures.Seeks
import AnnexB.Proofs.Overwriting
import AnnexB.Proofs.Failures.ParameterSets
import AnnexB.Proofs.Ending
import AnnexB.Proofs.Frames
import AnnexB.Proofs.Failures.Counters
import AnnexB.Proofs.Failures.FrameSize
import AnnexB.Proofs.Searching
import AnnexB.Proofs.Bits.Room
import AnnexB.Proofs.Failures.PassCounter
import AnnexB.Proofs.Report.Passes
