import SharedLog.Address
import SharedLog.Address.Range
import SharedLog.Bytes
import SharedLog.Checked
import SharedLog.Cluster
import SharedLog.Command
import SharedLog.CommandLine
import SharedLog.Config
import SharedLog.Config.Text
import SharedLog.Consensus
import SharedLog.Detector
import SharedLog.Endpoint
import SharedLog.Entry
import SharedLog.Epoch
import SharedLog.Error
import SharedLog.Failover
import SharedLog.Failure
import SharedLog.Fence
import SharedLog.Files
import SharedLog.Files.Path
import SharedLog.Hash.XXH64
import SharedLog.Health
import SharedLog.Host
import SharedLog.Interference
import SharedLog.Interval
import SharedLog.Json
import SharedLog.Json.Form
import SharedLog.Json.Layout
import SharedLog.Json.Message
import SharedLog.Json.Reader
import SharedLog.Json.Writer
import SharedLog.Layout
import SharedLog.Layout.File
import SharedLog.LayoutAccess
import SharedLog.LogUnit
import SharedLog.Main
import SharedLog.Membership
import SharedLog.Message
import SharedLog.Message.Shown
import SharedLog.Metrics
import SharedLog.Node
import SharedLog.Recovery
import SharedLog.Sequencer
import SharedLog.Sequencer.Chain
import SharedLog.Sequencer.Client
import SharedLog.Service
import SharedLog.Sorted.List
import SharedLog.Sorted.Map
import SharedLog.Sorted.Set
import SharedLog.Stream
import SharedLog.Stream.Text
import SharedLog.Tails
import SharedLog.Text.Blank
import SharedLog.Text.Hex
import SharedLog.Text.Natural
import SharedLog.Text.Quoted
import SharedLog.Text.Visible
import SharedLog.Token
import SharedLog.Toml
import SharedLog.Toml.Form
import SharedLog.Toml.Number
import SharedLog.Toml.Reader
import SharedLog.Toml.Text
import SharedLog.Toml.Writer
import SharedLog.Transaction
import SharedLog.Transaction.Context
import SharedLog.Transaction.Footprint
import SharedLog.Transaction.Manager
import SharedLog.Transaction.Validation
import SharedLog.Wire.Format
import SharedLog.Wire.Frame
import SharedLog.Wire.Message
import SharedLog.Proofs.Sequencer.Chain
import SharedLog.Proofs.Sorted
import SharedLog.Proofs.Agreement
import SharedLog.Proofs.ServedLayout
import SharedLog.Proofs.Run.Dialogue
import SharedLog.Proofs.Reconfiguration.System
import SharedLog.Proofs.Reconfiguration.Effect
import SharedLog.Proofs.Tails
import SharedLog.Proofs.Tails.Merging
import SharedLog.Proofs.Sequencer.Growth
import SharedLog.Proofs.Sequencer.Termination
import SharedLog.Proofs.Sequencer.Thread
import SharedLog.Proofs.Sequencer.Exactness
import SharedLog.Proofs.Sequencer.Issuance
import SharedLog.Proofs.Run.Program
import SharedLog.Proofs.Run.System
import SharedLog.Proofs.Run.Assertion
import SharedLog.Proofs.Run.Turns
import SharedLog.Proofs.Run.Course
import SharedLog.Proofs.Run.Conduct
import SharedLog.Proofs.AtomicCommit
import SharedLog.Proofs.Fencing
import SharedLog.Proofs.Succession
import SharedLog.Proofs.Landing
import SharedLog.Proofs.EpochOrder
import SharedLog.Proofs.Rebuild
import SharedLog.Proofs.Freshness
import SharedLog.Proofs.WholeReads
import SharedLog.Proofs.CommitLog.Sound
import SharedLog.Proofs.CommitLog.Rules
import SharedLog.Proofs.CommitLog.Client
import SharedLog.Proofs.CommitLog.Read
import SharedLog.Proofs.CommitLog.Commit
import SharedLog.Proofs.CommitLog.Session
import SharedLog.Proofs.Serializability
import SharedLog.Proofs.LostUpdate
import SharedLog.Proofs.CommitLog.Trace
import SharedLog.Proofs.Reconfiguration.Lineage
import SharedLog.Proofs.Reconfiguration.Convergence
import SharedLog.Proofs.Wire.Format
import SharedLog.Proofs.Wire.Message
import SharedLog.Proofs.Wire.Frame
import SharedLog.Proofs.Transparency
import SharedLog.Proofs.RepeatableReads
import SharedLog.Proofs.LogUnit.Contract
import SharedLog.Proofs.LogUnit.RangeReads
import SharedLog.Proofs.Service
import SharedLog.Proofs.StaleRequests
import SharedLog.Proofs.Polling
import SharedLog.Proofs.Polling.Retries
import SharedLog.Proofs.Disk
import SharedLog.Proofs.Startup
import SharedLog.Proofs.Restarts
import SharedLog.Proofs.Resize
import SharedLog.Proofs.Run.Tally
import SharedLog.Proofs.Accounting
import SharedLog.Proofs.Run.Record
import SharedLog.Proofs.Sequencer.Decision
import SharedLog.Proofs.Run.Alone
import SharedLog.Proofs.Validation
import SharedLog.Proofs.Backpointers
import SharedLog.Proofs.Run.Answer
import SharedLog.Proofs.WriteOnly
import SharedLog.Proofs.Layout.Segments
import SharedLog.Proofs.Layout.Members
import SharedLog.Proofs.Layout.Distinct
import SharedLog.Proofs.Config
import SharedLog.Proofs.Endpoint
import SharedLog.Proofs.Sequencer.Trimming
import SharedLog.Proofs.Trimming
import SharedLog.Proofs.Reconfiguration.Overtaking
import SharedLog.Proofs.Address.Range
import SharedLog.Proofs.Footprint
import SharedLog.Proofs.Endpoint.Grammar
import SharedLog.Proofs.Routing
