import SpeedTables.Remote.Delivery
import SpeedTables.Remote.Framing
import SpeedTables.Remote.Isolation
import SpeedTables.Remote.Pairing
import SpeedTables.Remote.StreamDecoding
import SpeedTables.Remote.UrlCache
import SpeedTables.Remote.UrlParts
import SpeedTables.Search.AutoKeys
import SpeedTables.Search.BestIndex
import SpeedTables.Search.BufferBounds
import SpeedTables.Search.Coverage
import SpeedTables.Search.DirtyRuns
import SpeedTables.Search.ExportRuns
import SpeedTables.Search.ImportFilter
import SpeedTables.Search.IndexChoice
import SpeedTables.Search.IndexRuns
import SpeedTables.Search.IndexSize
import SpeedTables.Search.KeyMap
import SpeedTables.Search.KeyRuns
import SpeedTables.Search.PatternMatch
import SpeedTables.Search.QuicksortRows
import SpeedTables.Search.RecordRuns
import SpeedTables.Search.Session
import SpeedTables.Search.SortOrder
import SpeedTables.Search.Visits
import SpeedTables.Search.WalkedRows
import SpeedTables.Search.WholeSearches
import SpeedTables.Search.Window
import SpeedTables.Shared.ChangeDetection
import SpeedTables.Shared.IndexRemove
import SpeedTables.Shared.NameRegisters
import SpeedTables.Shared.Publication
import SpeedTables.Shared.ReaderLock
import SpeedTables.Shared.ReaderSlots
import SpeedTables.Shared.Reclamation
import SpeedTables.Shared.RowLists
import SpeedTables.Shared.ShareMap
import SpeedTables.SkipList.Operations
import SpeedTables.Stapi.CacheLock
import SpeedTables.Stapi.CassandraKey
import SpeedTables.Stapi.CassandraSearch
import SpeedTables.Stapi.CompositeKey
import SpeedTables.Stapi.Freshness
import SpeedTables.Stapi.LockBookkeeping
import SpeedTables.Stapi.TimeLimit
import SpeedTables.Stapi.SqlSearch
import SpeedTables.Stapi.SqlUri
import SpeedTables.Table.Batch
import SpeedTables.Table.PostgresImport
import SpeedTables.Table.DefaultCells
import SpeedTables.Table.BlockRuns
import SpeedTables.Table.Calls
import SpeedTables.Table.DoubleInsert
import SpeedTables.Table.EtherAddress
import SpeedTables.Table.Export
import SpeedTables.Table.FailedCreations
import SpeedTables.Table.Increment
import SpeedTables.Table.IndexCommands
import SpeedTables.Table.IndexCreation
import SpeedTables.Table.IndexUpkeep
import SpeedTables.Table.KeyCommands
import SpeedTables.Table.KeyInvariant
import SpeedTables.Table.NullColumns
import SpeedTables.Table.Pointers
import SpeedTables.Table.Quoting
import SpeedTables.Table.Records
import SpeedTables.Table.ResetLoop
import SpeedTables.Table.RoundTrip
import SpeedTables.Table.SavedRows
import SpeedTables.Table.SetterIndex
import SpeedTables.Table.Titles
import SpeedTables.Table.Upkeep
import SpeedTables.Table.WriteSteps
