import Ns3Ndn.Aodv.DeferredPackets
import Ns3Ndn.Aodv.RouteDiscovery
import Ns3Ndn.Aodv.RouteErrors
import Ns3Ndn.Apps.ConsumerWindow
import Ns3Ndn.Apps.Requests
import Ns3Ndn.Core.CalendarScheduler
import Ns3Ndn.Core.HeapScheduler
import Ns3Ndn.Core.Int64x64Cairo
import Ns3Ndn.Core.Int64x64Text
import Ns3Ndn.Core.Scheduler
import Ns3Ndn.Core.Simulator
import Ns3Ndn.Core.Time
import Ns3Ndn.Face.LpConservation
import Ns3Ndn.Face.LpFragmenter
import Ns3Ndn.Face.LpPacket
import Ns3Ndn.Face.LpPiggyback
import Ns3Ndn.Face.LpReassembler
import Ns3Ndn.Face.LpReassemblerTimers
import Ns3Ndn.Face.LpReliability
import Ns3Ndn.Face.LpWindow
import Ns3Ndn.Fw.AsfStrategy
import Ns3Ndn.Fw.DeadNonce
import Ns3Ndn.Fw.Delivery
import Ns3Ndn.Fw.Expiry
import Ns3Ndn.Fw.Forwarder
import Ns3Ndn.Fw.Lawful
import Ns3Ndn.Fw.NewNextHop
import Ns3Ndn.Fw.Pit
import Ns3Ndn.Fw.PitToken
import Ns3Ndn.Fw.QLearning
import Ns3Ndn.Fw.QLearningBounds
import Ns3Ndn.Fw.QLearningFeedback
import Ns3Ndn.Fw.QLearningScope
import Ns3Ndn.Fw.SendData
import Ns3Ndn.Helper.LfidRouting
import Ns3Ndn.Internet.Ipv4FragmentTimeouts
import Ns3Ndn.Internet.Ipv4Fragments
import Ns3Ndn.Internet.Ipv6Header
import Ns3Ndn.Internet.StaticRouting
import Ns3Ndn.Internet.TcpHighestSack
import Ns3Ndn.Internet.TcpNextSeg
import Ns3Ndn.Internet.TcpRxBuffer
import Ns3Ndn.Internet.TcpRxPlaces
import Ns3Ndn.Internet.TcpRxSacks
import Ns3Ndn.Internet.TcpRxStream
import Ns3Ndn.Internet.TcpRxWindow
import Ns3Ndn.Internet.TcpScoreboard
import Ns3Ndn.Internet.TcpTxBuffer
import Ns3Ndn.Internet.TcpTxStream
import Ns3Ndn.Internet.UdpHeader
import Ns3Ndn.Lib.Buckets
import Ns3Ndn.Lib.Chain
import Ns3Ndn.Lib.Circular
import Ns3Ndn.Lib.Demux
import Ns3Ndn.Lib.Heap
import Ns3Ndn.Lib.Links
import Ns3Ndn.Lib.Lpm
import Ns3Ndn.Lib.OnesComplement
import Ns3Ndn.Lib.OrdMap
import Ns3Ndn.Lib.Overlap
import Ns3Ndn.Lib.Pieces
import Ns3Ndn.Lib.Pool
import Ns3Ndn.Lib.Ranges
import Ns3Ndn.Lib.Recency
import Ns3Ndn.Lib.Reorder
import Ns3Ndn.Lib.Run
import Ns3Ndn.Lib.Slice
import Ns3Ndn.Lib.SortedRange
import Ns3Ndn.Lte.Asn1Header
import Ns3Ndn.Lte.RlcAmHeader
import Ns3Ndn.Lte.RlcAmPeers
import Ns3Ndn.Lte.RlcAmStatusSize
import Ns3Ndn.Lte.RlcStream
import Ns3Ndn.Name
import Ns3Ndn.NameOrder
import Ns3Ndn.NameSuccessor
import Ns3Ndn.NameUri
import Ns3Ndn.Network.Buffer
import Ns3Ndn.Network.BufferAppend
import Ns3Ndn.Network.BufferSharing
import Ns3Ndn.Network.IpChecksum
import Ns3Ndn.Network.NixVector
import Ns3Ndn.Network.PacketSerialize
import Ns3Ndn.Network.PacketTagList
import Ns3Ndn.Network.PbbAddressBlock
import Ns3Ndn.Network.SequenceNumber
import Ns3Ndn.Network.SequenceNumberWidth
import Ns3Ndn.Rib.Count
import Ns3Ndn.Rib.Entry
import Ns3Ndn.Rib.FaceIndex
import Ns3Ndn.Rib.FibUpdater
import Ns3Ndn.Rib.Isolation
import Ns3Ndn.Rib.Queue
import Ns3Ndn.Rib.Records
import Ns3Ndn.Rib.Retry
import Ns3Ndn.Rib.Table
import Ns3Ndn.Rib.Tree
import Ns3Ndn.Sixlowpan.IphcRoundTrip
import Ns3Ndn.Sixlowpan.UdpNhc
import Ns3Ndn.Table.Cs
import Ns3Ndn.Table.CsLru
import Ns3Ndn.Table.CsPriorityFifo
import Ns3Ndn.Table.CsStore
import Ns3Ndn.Table.DeadNonceList
import Ns3Ndn.Table.Enumerate
import Ns3Ndn.Table.FaceRemoval
import Ns3Ndn.Table.FibCount
import Ns3Ndn.Table.Hashtable
import Ns3Ndn.Table.Match
import Ns3Ndn.Table.NameTree
import Ns3Ndn.Table.StrategyChange
import Ns3Ndn.Table.Tables
import Ns3Ndn.Wifi.BlockAckHeader
import Ns3Ndn.Wifi.BlockAckWindow
import Ns3Ndn.Wifi.MacRxMiddle
import Ns3Ndn.Wifi.OriginatorBlockAck
import Ns3Ndn.Wifi.RecipientBlockAck
