import CdsGuard.Lib.XorSum
import CdsGuard.Lib.Cbc
import CdsGuard.Packet.ARIAReference
import CdsGuard.Packet.ARIAAlgorithm
import CdsGuard.Packet.ProtocolEngine
import CdsGuard.Packet.ProxyProtocol
import CdsGuard.Gateway.FileSinkSession
import CdsGuard.Client.TransferController
import CdsGuard.Client.ReceivedMessage
import CdsGuard.Gateway.Upload
import CdsGuard.Gateway.ProxyHeaders
import CdsGuard.Gateway.Dispatch
import CdsGuard.Guard.RecvMode
import CdsGuard.Guard.Delivery
import CdsGuard.Guard.SendMode
import CdsGuard.Guard.MacAddress
import CdsGuard.Guard.L2Checksum
import CdsGuard.Guard.L2ByteOrder
import CdsGuard.Guard.L2Admission
import CdsGuard.Lib.Transition
import CdsGuard.Gateway.DocumentFilter
import CdsGuard.Gateway.System
import CdsGuard.Gateway.Routing
import CdsGuard.Gateway.Connections
import CdsGuard.Gateway.Conservation
import CdsGuard.Gateway.Release
import CdsGuard.Gateway.PolicyBuild
import CdsGuard.Lib.Xml
import CdsGuard.Gateway.TextRegions
import CdsGuard.Gateway.Archive
import CdsGuard.Gateway.EntryRead
import CdsGuard.Gateway.PendingOrder
import CdsGuard.Gateway.PolicyEditing
import CdsGuard.Gateway.PatternFile
import CdsGuard.Gateway.PolicyViews
import CdsGuard.Gateway.WorkerLoop
import CdsGuard.Guard.L2Frame
import CdsGuard.Guard.L2Integrity
import CdsGuard.Guard.L2Truthful
import CdsGuard.Guard.L2Flow
import CdsGuard.Guard.L2Corruption
import CdsGuard.DoubleArray.Build
import CdsGuard.DoubleArray.Evasion
import CdsGuard.DoubleArray.Rebuild
import CdsGuard.Gateway.MatchBounds
import CdsGuard.Discovery.Responder
import CdsGuard.Gateway.RegexSearch
import CdsGuard.Gateway.LabelingSpans
import CdsGuard.Gateway.CharRanges
import CdsGuard.Guard.L2Progress
import CdsGuard.Guard.Crossing
import CdsGuard.Gateway.Censored
import CdsGuard.Guard.CleanCrossing
import CdsGuard.Discovery.Handshake
import CdsGuard.Gateway.GuardEndpoint
import CdsGuard.Gateway.LabelStore
import CdsGuard.Guard.RttEstimator
import CdsGuard.Gateway.Shutdown
import CdsGuard.Gateway.AuditLog
import CdsGuard.Gateway.DlAnalysis
import CdsGuard.Client.Listener
