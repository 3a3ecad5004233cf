import CpgFailover.Lib.Transition
import CpgFailover.Lib.AgreedRuns
import CpgFailover.Cluster
import CpgFailover.Election.History
import CpgFailover.BackupAgreement
import CpgFailover.SingleMaster
import CpgFailover.QuiescentLeader
import CpgFailover.Release
import CpgFailover.FailoverChain
import CpgFailover.Recovery
import CpgFailover.Activation
import CpgFailover.Restart
import CpgFailover.Replication
import CpgFailover.RollbackTimer
import CpgFailover.Inputs
import CpgFailover.Address
import CpgFailover.RollbackTarget
import CpgFailover.Admission
import CpgFailover.Confluence
import CpgFailover.Arbiter
import CpgFailover.Lib.AgreedSettling
import CpgFailover.Quiescence
import CpgFailover.RollbackReady
import CpgFailover.Snapshot
import CpgFailover.Lib.Partitions
import CpgFailover.Lib.Introductions
import CpgFailover.GivingWay
import CpgFailover.SplitBrain
import CpgFailover.Lib.KeyedHistory
import CpgFailover.NodeHistory
import CpgFailover.Allocation
import CpgFailover.Departures
import CpgFailover.Lib.Idempotent
import CpgFailover.RollbackRequests
import CpgFailover.Arp
import CpgFailover.Lib.FirstOccurrences
import CpgFailover.Lib.Memory
import CpgFailover.ProfileTable
import CpgFailover.ConfigValue
import CpgFailover.DoConfig
import CpgFailover.Routing
import CpgFailover.Lib.Buffer
import CpgFailover.Wire
import CpgFailover.Decoder
import CpgFailover.CleanUp
import CpgFailover.Lib.AgreedSimulation
import CpgFailover.WireGroup
import CpgFailover.Interleaving
import CpgFailover.Lib.AgreedTruth
import CpgFailover.RowOwners
import CpgFailover.AddressText
import CpgFailover.Interface
import CpgFailover.Machine
import CpgFailover.Lib.CatchUp
import CpgFailover.Lib.Quoted
import CpgFailover.RecoveryTable
import CpgFailover.TableReplica
import CpgFailover.SettledGroup
import CpgFailover.Lib.Columns
import CpgFailover.StatusReport
import CpgFailover.Unload
import CpgFailover.Commands
import CpgFailover.Lib.ColonHex
import CpgFailover.Neighbours
import CpgFailover.Renumbering
import CpgFailover.Lib.AgreedFleet
import CpgFailover.Installation
