import Backuwup.Lib.Transition
import Backuwup.Lib.Pool
import Backuwup.Lib.Codec
import Backuwup.Lib.HashMapDelay
import Backuwup.Lib.Hex
import Backuwup.Lib.Broadcast
import Backuwup.Lib.Simulation
import Backuwup.Lib.Outbox
import Backuwup.Shared.Types
import Backuwup.Shared.P2pMessage
import Backuwup.Server.BackupRequest
import Backuwup.Server.FulfillRuns
import Backuwup.Server.ClientAuth
import Backuwup.Server.Challenges
import Backuwup.Server.Requested
import Backuwup.Server.Ws
import Backuwup.Server.Endpoints
import Backuwup.Server.Answers
import Backuwup.Server.OnBehalf
import Backuwup.Server.Holders
import Backuwup.Client.FileUtils
import Backuwup.Client.SendIndex
import Backuwup.Client.Config.Peers
import Backuwup.Client.Config.Store
import Backuwup.Client.Setup
import Backuwup.Client.NetP2p.ReceivedFiles
import Backuwup.Client.NetP2p.FreeSpace
import Backuwup.Client.NetP2p.RestoredFiles
import Backuwup.Client.NetP2p.PeerFolders
import Backuwup.Client.NetP2p.PeerStorage
import Backuwup.Client.NetP2p.RestoreSend
import Backuwup.Client.NetP2p.RestoreThrottle
import Backuwup.Client.NetP2p.Signed
import Backuwup.Client.NetServer.Requests
import Backuwup.Client.NetServer.Connect
import Backuwup.Client.NetServer.LockedOut
import Backuwup.Client.NetP2p.ConnectionManager
import Backuwup.Client.NetP2p.Handshakes
import Backuwup.Lifetimes
import Backuwup.Client.NetP2p.Session
import Backuwup.Client.NetP2p.Transport
import Backuwup.Client.NetP2p.Origin
import Backuwup.Client.Orchestrator.Pause
import Backuwup.Client.Orchestrator.StorageRequests
import Backuwup.Client.Config.Log
import Backuwup.Client.Orchestrator.SizeEstimate
import Backuwup.Client.Orchestrator.Exclusive
import Backuwup.Client.Orchestrator.Running
import Backuwup.Client.Orchestrator.RestoreRuns
import Backuwup.Client.Orchestrator.CompleteRestore
import Backuwup.Client.Orchestrator.LocalBuffer
import Backuwup.Client.Orchestrator.HalfWritten
import Backuwup.Client.Orchestrator.ResumeCheck
import Backuwup.Client.Orchestrator.Accounting
import Backuwup.Lib.Search
import Backuwup.Lib.LossyUtf8
import Backuwup.Client.KeyManager
import Backuwup.Client.Bincode
import Backuwup.Client.Packfile.BlobIndex
import Backuwup.Client.Packfile.IndexNonce
import Backuwup.Client.SendPackfiles
import Backuwup.Client.Packfile.Format
import Backuwup.Client.Packfile.Pack
import Backuwup.Client.Packfile.Entries
import Backuwup.Client.Packfile.Stored
import Backuwup.Client.Packfile.Runs
import Backuwup.Client.Packfile.RoundTrip
import Backuwup.Client.Packfile.IndexFolder
import Backuwup.Client.Packfile.Dedup
import Backuwup.Client.Packfile.Transportable
import Backuwup.Client.Packfile.WritePackfiles
import Backuwup.Client.Packfile.FolderSize
import Backuwup.Client.Packfile.Totals
import Backuwup.Client.Tree
import Backuwup.Client.FileSystem
import Backuwup.Client.Packfile.Kinds
import Backuwup.Client.DirPacker.Nodes
import Backuwup.Client.DirPacker.Browse
import Backuwup.Client.DirPacker.PackFiles
import Backuwup.Client.DirUnpacker
import Backuwup.Client.DirEntries
import Backuwup.Client.DirUnpacked
import Backuwup.Client.DirRoundTrip
import Backuwup.Client.DirTimes
import Backuwup.Client.Tampering
import Backuwup.Client.Restore
import Backuwup.Client.Siblings
import Backuwup.Client.DirPacker.Order
import Backuwup.Client.DirPacker.SamePaths
import Backuwup.Client.DirPacker.OsNames
import Backuwup.Client.DirPacker.Session
import Backuwup.Client.DirPacker.SourceTree
import Backuwup.Client.DirPacker.Stored
import Backuwup.Client.DirPacker.WholeUnpacked
import Backuwup.Client.DirPacker.PutBack
import Backuwup.Client.Orchestrator.Upload
import Backuwup.Client.Orchestrator.Backups
import Backuwup.Client.Orchestrator.Reported
import Backuwup.Client.Orchestrator.Outbox
import Backuwup.Client.Orchestrator.RestoredTree
