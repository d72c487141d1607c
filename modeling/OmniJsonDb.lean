import OmniJsonDb.Lib.OrdDict
import OmniJsonDb.Lib.Exec
import OmniJsonDb.Lib.ByteFile
import OmniJsonDb.Lib.Extent
import OmniJsonDb.Lib.Machine
import OmniJsonDb.Lib.Lockstep
import OmniJsonDb.Lib.Shortcut
import OmniJsonDb.Lib.Sorting
import OmniJsonDb.Lib.PyRange
import OmniJsonDb.Lib.Reorder
import OmniJsonDb.Lib.Hex
import OmniJsonDb.Lib.HalfEven
import OmniJsonDb.Lib.Buckets
import OmniJsonDb.Model.Flags
import OmniJsonDb.Model.Row
import OmniJsonDb.Model.Value
import OmniJsonDb.Model.JIo
import OmniJsonDb.Model.JDb
import OmniJsonDb.Model.Write
import OmniJsonDb.Model.KeyFlags
import OmniJsonDb.Model.UpdateIf
import OmniJsonDb.Proof.UpdateIf
import OmniJsonDb.Model.Undo
import OmniJsonDb.Model.Run
import OmniJsonDb.Model.Resize
import OmniJsonDb.Model.Recycle
import OmniJsonDb.Model.LckFile
import OmniJsonDb.Model.FileLock
import OmniJsonDb.Model.LckServer
import OmniJsonDb.Model.JNet
import OmniJsonDb.Model.Query
import OmniJsonDb.Model.Msgpack
import OmniJsonDb.Model.KeyCodec
import OmniJsonDb.Model.SortedKeys
import OmniJsonDb.Model.JsonVal
import OmniJsonDb.Model.ConvTtl
import OmniJsonDb.Model.GroupBy
import OmniJsonDb.Model.SortRules
import OmniJsonDb.Proof.Engine
import OmniJsonDb.Proof.Effect
import OmniJsonDb.Proof.Keyed
import OmniJsonDb.Proof.Extents
import OmniJsonDb.Proof.Reads
import OmniJsonDb.Proof.Space
import OmniJsonDb.Proof.Calls
import OmniJsonDb.Proof.Writes
import OmniJsonDb.Proof.Undos
import OmniJsonDb.Proof.Records
import OmniJsonDb.Proof.Runs
import OmniJsonDb.Proof.Refuse
import OmniJsonDb.Proof.Index
import OmniJsonDb.Proof.Dates
import OmniJsonDb.Proof.RowCache
import OmniJsonDb.Proof.Kept
import OmniJsonDb.Proof.Newest
import OmniJsonDb.Proof.Touched
import OmniJsonDb.Proof.Expired
import OmniJsonDb.Proof.Resize
import OmniJsonDb.Proof.Slots
import OmniJsonDb.Proof.Values
import OmniJsonDb.Proof.Links
import OmniJsonDb.Proof.Stamps
import OmniJsonDb.Proof.Versions
import OmniJsonDb.Proof.Upkeep
import OmniJsonDb.Proof.FileLock
import OmniJsonDb.Proof.Exclusion
import OmniJsonDb.Proof.LockMoments
import OmniJsonDb.Proof.Reentry
import OmniJsonDb.Proof.Isolation
import OmniJsonDb.Proof.Remote
import OmniJsonDb.Proof.Conditions
import OmniJsonDb.Proof.Routes
import OmniJsonDb.Proof.Paths
import OmniJsonDb.Proof.Wildcards
import OmniJsonDb.Proof.Unions
import OmniJsonDb.Proof.Metadata
import OmniJsonDb.Proof.Msgpack
import OmniJsonDb.Proof.Unpack
import OmniJsonDb.Proof.Truncated
import OmniJsonDb.Proof.KeyRows
import OmniJsonDb.Model.Inline
import OmniJsonDb.Proof.Inline
import OmniJsonDb.Proof.ChangeKey
import OmniJsonDb.Proof.SortedKeys
import OmniJsonDb.Proof.JsonVal
import OmniJsonDb.Proof.Lifetimes
import OmniJsonDb.Proof.GraphKeys
import OmniJsonDb.Proof.GraphStore
import OmniJsonDb.Proof.GraphIndex
import OmniJsonDb.Proof.Reindex
import OmniJsonDb.Proof.Repair
import OmniJsonDb.Proof.GraphSound
import OmniJsonDb.Proof.GroupBy
import OmniJsonDb.Proof.Passive
import OmniJsonDb.Proof.PathGlob
import OmniJsonDb.Proof.SortRules
import OmniJsonDb.Proof.KeyFlags
import OmniJsonDb.Model.Transform
import OmniJsonDb.Model.NumRules
import OmniJsonDb.Model.JBytesIO
import OmniJsonDb.Model.Upgrade
import OmniJsonDb.Model.Slices
import OmniJsonDb.Model.History
import OmniJsonDb.Model.Compare
import OmniJsonDb.Proof.Transform
import OmniJsonDb.Proof.NumRules
import OmniJsonDb.Proof.JBytesIO
import OmniJsonDb.Proof.Upgrade
import OmniJsonDb.Proof.Slices
import OmniJsonDb.Proof.History
import OmniJsonDb.Proof.Compare
import OmniJsonDb.Proof.KeyNames
import OmniJsonDb.Proof.Undelete
import OmniJsonDb.Proof.FlagStrings
import OmniJsonDb.Proof.KeyIter
import OmniJsonDb.Proof.Framing
import OmniJsonDb.Proof.GraphTidy
import OmniJsonDb.Proof.GraphShape
import OmniJsonDb.Proof.GraphUpdates
import OmniJsonDb.Proof.GraphCounts
import OmniJsonDb.Proof.GraphRemoval
import OmniJsonDb.Proof.GraphWalks
import OmniJsonDb.Proof.GraphRuns
import OmniJsonDb.Proof.GraphExact
import OmniJsonDb.Proof.Scc
import OmniJsonDb.Proof.Cycles
import OmniJsonDb.Proof.ServerHandler
import OmniJsonDb.Lib.Fuel
import OmniJsonDb.Model.Dataclass
import OmniJsonDb.Proof.DcAlias
import OmniJsonDb.Proof.DcRecords
import OmniJsonDb.Lib.Waves
import OmniJsonDb.Model.Search
import OmniJsonDb.Proof.Reached
import OmniJsonDb.Proof.Shortest
import OmniJsonDb.Lib.Lightest
import OmniJsonDb.Proof.Dijkstra
import OmniJsonDb.Lib.Explore
import OmniJsonDb.Proof.Traverse
