import TwoWire.Bench
import TwoWire.Board.SelfTest
import TwoWire.Console
import TwoWire.Gateway
import TwoWire.Proofs.Calls
import TwoWire.Proofs.StalledRead
import TwoWire.Proofs.StopRequests
import TwoWire.Window
import TwoWire.Proofs.Dormancy
import TwoWire.Proofs.Refusals
import TwoWire.Proofs.Retries
import TwoWire.Proofs.Jams
import TwoWire.Proofs.StaleBytes
import TwoWire.Proofs.RoundTrip
import TwoWire.Proofs.Tenure
import TwoWire.Proofs.Sharing
import TwoWire.Proofs.WellFormed
import TwoWire.Proofs.ClosingRead
import TwoWire.Proofs.StopPairs
import TwoWire.Proofs.InvalidWrites
import TwoWire.Proofs.AccessBounds
import TwoWire.Proofs.WaitBounds
import TwoWire.Proofs.Completion
import TwoWire.Proofs.Clearing
import TwoWire.Proofs.BusRates
import TwoWire.Proofs.Measurements
import TwoWire.Proofs.BenchHandling
