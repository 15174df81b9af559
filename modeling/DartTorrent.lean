import DartTorrent.Basis.GuardedRun
import DartTorrent.Basis.ByteStore
import DartTorrent.Basis.BumpArena
import DartTorrent.Basis.FoldHash
import DartTorrent.Basis.KeyedTable
import DartTorrent.Basis.LiveScan
import DartTorrent.Basis.Recency
import DartTorrent.Basis.Transaction
import DartTorrent.Memory
import DartTorrent.Requests
import DartTorrent.Torrent
import DartTorrent.Str
import DartTorrent.StrCache
import DartTorrent.Answers
import DartTorrent.Collisions
import DartTorrent.Repeats
import DartTorrent.Window
import DartTorrent.CharV
import DartTorrent.Sql
import DartTorrent.Durability
import DartTorrent.Resume
import DartTorrent.Callback
import DartTorrent.Batch
import DartTorrent.TorrentList
import DartTorrent.Indices
import DartTorrent.Coherence
import DartTorrent.FailedAdd
import DartTorrent.Load
import DartTorrent.Restore
import DartTorrent.LoadErrors
import DartTorrent.Batches
import DartTorrent.Drift
import DartTorrent.Interleavings
import DartTorrent.Lives
import DartTorrent.Orphans
import DartTorrent.Columns
import DartTorrent.Adding
import DartTorrent.LoadRace
import DartTorrent.LoadBounds
import DartTorrent.Ledger
import DartTorrent.Metadata
import DartTorrent.Program
import DartTorrent.Demand
import DartTorrent.Process
import DartTorrent.FirstPass
