import ForkChoice.Hash.Sha256
import ForkChoice.Report
import ForkChoice.Script.Nodes
import ForkChoice.Script.States
import ForkChoice.Script.Stores
import ForkChoice.Wire.Text
import ForkChoice.Proofs.Outcome
import ForkChoice.Proofs.Store.Ancestry
import ForkChoice.Proofs.Table
import ForkChoice.Proofs.Store.Draft
import ForkChoice.Proofs.Store.History
import ForkChoice.Proofs.Merkle.Defined
import ForkChoice.Proofs.Store.Genesis
import ForkChoice.Proofs.Transition.Frame
import ForkChoice.Proofs.Store.Growth
import ForkChoice.Proofs.Store.WellFormed
import ForkChoice.Proofs.Store.Head
import ForkChoice.Proofs.Engine.Run
import ForkChoice.Proofs.Store.Frame
import ForkChoice.Proofs.Engine.Head
import ForkChoice.Proofs.Store.Reach
import ForkChoice.Proofs.Engine.Reach
import ForkChoice.Proofs.Engine.Queues
import ForkChoice.Proofs.Engine.Conservation
import ForkChoice.Proofs.Store.Tree
import ForkChoice.Proofs.Store.Verdict
import ForkChoice.Proofs.Store.Commit
import ForkChoice.Proofs.Engine.Desk
import ForkChoice.Proofs.Engine.Waiting
import ForkChoice.Proofs.Engine.Wakeup
import ForkChoice.Proofs.Store.Lineage
import ForkChoice.Proofs.Engine.Order
import ForkChoice.Proofs.Store.Checkpoints
import ForkChoice.Proofs.Store.Finality
import ForkChoice.Proofs.Store.Publication
import ForkChoice.Proofs.Store.Replay
import ForkChoice.Proofs.Store.LatestVotes
import ForkChoice.Proofs.Store.Admission
import ForkChoice.Proofs.Transition.Network
import ForkChoice.Proofs.Store.Network
import ForkChoice.Proofs.Pipeline.StateCheck
import ForkChoice.Proofs.Pipeline.Pairing
import ForkChoice.Proofs.Pipeline.Attribution
import ForkChoice.Proofs.Pipeline.FoldHistory
import ForkChoice.Proofs.LinkedMap
import ForkChoice.Proofs.Pipeline.SignatureBatch
import ForkChoice.Proofs.Pipeline.Cancellation
import ForkChoice.Proofs.Engine.Polls
import ForkChoice.Proofs.Engine.InStep
import ForkChoice.Proofs.Engine.Bursts
import ForkChoice.Proofs.Engine.FirstObserved
import ForkChoice.Proofs.Transition.Memory
import ForkChoice.Proofs.Store.Memory
import ForkChoice.Proofs.Store.Timeline
import ForkChoice.Proofs.Store.FinalLine
import ForkChoice.Proofs.Store.CheckpointOrder
import ForkChoice.Proofs.Engine.Tasks
import ForkChoice.Proofs.Engine.Notices
import ForkChoice.Proofs.Pipeline.BatchQueue
import ForkChoice.Proofs.Pipeline.Passing
import ForkChoice.Proofs.Pipeline.Threads
import ForkChoice.Proofs.Pipeline.News
import ForkChoice.Proofs.Pipeline.Stations
import ForkChoice.Proofs.Pipeline.Accounts
import ForkChoice.Proofs.Pipeline.Settlement
import ForkChoice.Proofs.Pipeline.Schedule
import ForkChoice.Proofs.Pipeline.Backlog
import ForkChoice.Proofs.Pipeline.Sessions
import ForkChoice.Proofs.Store.Interruption
import ForkChoice.Proofs.Engine.Announcements
import ForkChoice.Proofs.Chain.Epochs
import ForkChoice.Proofs.Chain.Committees
import ForkChoice.Proofs.Chain.Roots
import ForkChoice.Proofs.Transition.Faults
import ForkChoice.Proofs.Store.Faults
import ForkChoice.Proofs.Chain.Shuffle
import ForkChoice.Proofs.Chain.Participants
import ForkChoice.Proofs.Store.Participants
import ForkChoice.Proofs.Store.Walks
import ForkChoice.Proofs.Store.CheckpointStates
import ForkChoice.Proofs.Pipeline.Judgement
import ForkChoice.Proofs.Bytes
import ForkChoice.Proofs.BitList.Packing
import ForkChoice.Proofs.Merkle.Complete
import ForkChoice.Proofs.Merkle.Ssz
import ForkChoice.Proofs.Merkle.Binding
import ForkChoice.Proofs.Chain.Binding
import ForkChoice.Proofs.Hex
import ForkChoice.Proofs.BitList.Text
import ForkChoice.Proofs.Transition.Composition
import ForkChoice.Proofs.Store.HeadMoves
import ForkChoice.Proofs.Devnet.Building
import ForkChoice.Proofs.Clock
import ForkChoice.Proofs.Engine.Ticks
import ForkChoice.Proofs.Engine.BlockVotes
import ForkChoice.Proofs.Ledger
import ForkChoice.Proofs.Groups
import ForkChoice.Proofs.Engine.Delays
import ForkChoice.Proofs.Engine.GroupedDelays
import ForkChoice.Proofs.Pipeline.PoolHistory
import ForkChoice.Proofs.Pipeline.WindowHistory
import ForkChoice.Proofs.Pipeline.BatchHistory
