import LibtorrentSN.Bencode.RoundTrip
import LibtorrentSN.Disk.StoreBuffer
import LibtorrentSN.Gst.Streaming
import LibtorrentSN.Peer.Fragments
import LibtorrentSN.Peer.Metadata
import LibtorrentSN.Peer.Outstanding
import LibtorrentSN.Peer.UtMetadata
import LibtorrentSN.Picker.Exact
import LibtorrentSN.Picker.BusyBlocks
import LibtorrentSN.Picker.Swarm
import LibtorrentSN.Torrent.Announce
import LibtorrentSN.Torrent.Checking
import LibtorrentSN.Torrent.InsidePaths
import LibtorrentSN.Torrent.PriorityJobs
import LibtorrentSN.Torrent.ResumeChecked
import LibtorrentSN.Torrent.SmartBan
import LibtorrentSN.Torrent.WriteJobs
import LibtorrentSN.Utp.Fin
import LibtorrentSN.Utp.PacketRun
import LibtorrentSN.Utp.Setup
import LibtorrentSN.Bencode.Tree
import LibtorrentSN.Torrent.ResumeData
import LibtorrentSN.Torrent.ResumeEntry
import LibtorrentSN.Torrent.ResumeLists
import LibtorrentSN.Torrent.ResumeRoundTrip
import LibtorrentSN.Disk.JobFence
import LibtorrentSN.Client.TorrentList
import LibtorrentSN.Client.AddTorrent
import LibtorrentSN.Client.AccumStats
import LibtorrentSN.Tracker.UdpTracker
import LibtorrentSN.Tracker.ConnectionIds
import LibtorrentSN.Tracker.Answers
import LibtorrentSN.Tracker.AnnounceTrackers
import LibtorrentSN.Tracker.EventOrder
import LibtorrentSN.Torrent.MapBlock
import LibtorrentSN.WordBits
import LibtorrentSN.Torrent.Bitfield
import LibtorrentSN.Bencode.Integers
import LibtorrentSN.Bencode.SoftError
import LibtorrentSN.Bencode.Partial
import LibtorrentSN.Picker.PadFree
import LibtorrentSN.Picker.Cursors
import LibtorrentSN.Peer.Bandwidth
import LibtorrentSN.Peer.DuplicateConnections
import LibtorrentSN.Http.Fragments
import LibtorrentSN.Torrent.LastClear
import LibtorrentSN.Utp.SackCoverage
import LibtorrentSN.Utp.AckedBytes
import LibtorrentSN.Peer.EndGame
import LibtorrentSN.Peer.ChokeReturns
import LibtorrentSN.Gst.Ranges
import LibtorrentSN.Gst.Priorities
import LibtorrentSN.Torrent.HeldBytes
import LibtorrentSN.Torrent.ResumePeers
import LibtorrentSN.Magnet.Uri
import LibtorrentSN.Magnet.InfoHash
import LibtorrentSN.Torrent.VerifyEncoding
import LibtorrentSN.Torrent.NameLimit
import LibtorrentSN.Torrent.SavePaths
import LibtorrentSN.Disk.HashJob
import LibtorrentSN.Disk.VerifyResume
import LibtorrentSN.Session.DownloadQueue
import LibtorrentSN.Disk.ReadWrite
import LibtorrentSN.Torrent.SavedChecking
import LibtorrentSN.Session.IpVoter
import LibtorrentSN.Tracker.TrackerList
import LibtorrentSN.Tracker.TrackerTimer
import LibtorrentSN.Tracker.TimerReach
import LibtorrentSN.Tracker.TimerDelay
import LibtorrentSN.Tracker.AnnounceIntervals
import LibtorrentSN.Peer.ChainedBuffer
import LibtorrentSN.Disk.PartFileRun
import LibtorrentSN.Disk.PartFileHeader
import LibtorrentSN.StepFunction
import LibtorrentSN.Filter.Address
import LibtorrentSN.Filter.IpFilter
import LibtorrentSN.Http.Chunks
import LibtorrentSN.Http.Connection
import LibtorrentSN.Client.RenamePaths
import LibtorrentSN.Client.RenameRun
import LibtorrentSN.Client.ResumeAnswers
import LibtorrentSN.Bencode.Sequence
