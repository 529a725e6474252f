import Decompression.Bzip2.Session
import Decompression.Decoder.Reader
import Decompression.Deflate.Session
import Decompression.Proofs.Chunking
import Decompression.Proofs.Observation
import Decompression.Proofs.Recorder
import Decompression.Proofs.Settling
import Decompression.Proofs.Transduction
import Decompression.Sink.Writer
import Decompression.Stream
import Decompression.Proofs.Simulation
import Decompression.Proofs.History
import Decompression.Proofs.Integrity
import Decompression.Proofs.Polling
import Decompression.Proofs.Members
import Decompression.Proofs.Placement
import Decompression.Proofs.Concatenation
import Decompression.Proofs.Invariant
import Decompression.Proofs.Lifetime
import Decompression.Proofs.Bounds
import Decompression.Proofs.Readiness
import Decompression.Proofs.Reading
import Decompression.Proofs.Failure
import Decompression.Proofs.Logging
import Decompression.Proofs.StreamFailure
import Decompression.Proofs.Termination
import Decompression.Proofs.Completion
import Decompression.Proofs.MachineRuns
import Decompression.Proofs.Trailing
import Decompression.Proofs.SessionEnds
import Decompression.Proofs.Resuming
import Decompression.Proofs.Chronicle
import Decompression.Proofs.Truncation
import Decompression.Proofs.Answers
import Decompression.Proofs.Writing
import Decompression.Proofs.Dialogue
import Decompression.Proofs.Reporting
import Decompression.Proofs.Tearing
import Decompression.Proofs.Fullness
import Decompression.Proofs.MachineHalts
import Decompression.Proofs.MachinePaths
import Decompression.Proofs.ReadingAhead
import Decompression.Proofs.SessionContract
import Decompression.Proofs.Adapter
