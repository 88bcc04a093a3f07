import WireCommand.Foundation.StepSystem
import WireCommand.Foundation.Measure
import WireCommand.Foundation.Play
import WireCommand.Foundation.Race
import WireCommand.Foundation.Framing
import WireCommand.Foundation.Ledger
import WireCommand.Foundation.Custody
import WireCommand.Foundation.Shell
import WireCommand.Foundation.Fairness
import WireCommand.Foundation.History
import WireCommand.Foundation.Fifo
import WireCommand.Foundation.Simulation
import WireCommand.Foundation.Service
import WireCommand.Foundation.Network
import WireCommand.Foundation.Numeral
import WireCommand.Foundation.Block
import WireCommand.Foundation.Linked
import WireCommand.Basic
import WireCommand.Buffer
import WireCommand.Buffer.Memory
import WireCommand.Protocol
import WireCommand.Protocol.Language
import WireCommand.Protocol.Responses
import WireCommand.Protocol.Encoding
import WireCommand.Commands.Quote
import WireCommand.Commands
import WireCommand.Commands.Capture
import WireCommand.Response
import WireCommand.RequestService
import WireCommand.Queue
import WireCommand.Queue.Heap
import WireCommand.Socket
import WireCommand.Client
import WireCommand.Client.WriteAll
import WireCommand.Client.Receive
import WireCommand.Port
import WireCommand.Threaded.Session
import WireCommand.Threaded.Limits
import WireCommand.Threaded.Turn
import WireCommand.Exchange
import WireCommand.Threaded.Server
import WireCommand.Threaded.Effect
import WireCommand.Threaded.Lifecycle
import WireCommand.Threaded.Slots
import WireCommand.Threaded.Moves
import WireCommand.Threaded.Races
import WireCommand.Threaded.Service
import WireCommand.Threaded.Stop
import WireCommand.Uds.Model
import WireCommand.Uds.Invariant
import WireCommand.Uds.Functions
import WireCommand.Uds.ReadLoop
import WireCommand.Uds.Fragmentation
import WireCommand.Uds.Server
import WireCommand.Uds.Round
import WireCommand.Uds.Attention
import WireCommand.Uds.Order
import WireCommand.Uds.Liveness
import WireCommand.Uds.Service
import WireCommand.Uds.Stop
import WireCommand.Uds.Alone
import WireCommand.Uds.HalfClose
import WireCommand.Uds.Isolation
import WireCommand.Uds.Polling
import WireCommand.Uds.Locality
import WireCommand.Network
import WireCommand.InputLimit
import WireCommand.Answer
