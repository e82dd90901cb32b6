import TrIrcd.Proofs.NameTable
import TrIrcd.Proofs.ChannelNames
import TrIrcd.Proofs.Invites
import TrIrcd.Proofs.Membership
import TrIrcd.Proofs.Identity
import TrIrcd.Proofs.IdentityUnique
import TrIrcd.Proofs.LineLengths
import TrIrcd.Proofs.LineParse
import TrIrcd.Proofs.SendQueue
import TrIrcd.Proofs.PacketLines
import TrIrcd.Proofs.EventTimes
import TrIrcd.Proofs.UnzipDelivery
import TrIrcd.Proofs.Throttling
import TrIrcd.Proofs.CommandMap
import TrIrcd.Proofs.NickHistory
import TrIrcd.Proofs.WatchLists
import TrIrcd.Proofs.Netsplit
import TrIrcd.Proofs.UrlDecode
import TrIrcd.Proofs.FormFields
import TrIrcd.Proofs.PortRanges
import TrIrcd.Proofs.HttpHost
import TrIrcd.Proofs.HttpLogin
import TrIrcd.Proofs.HttpPages
import TrIrcd.Proofs.MaskfileItems
import TrIrcd.Proofs.ConfigSections
import TrIrcd.Proofs.HookCalls
import TrIrcd.Proofs.CommandLine
import TrIrcd.Proofs.UserModes
import TrIrcd.Proofs.InterprocLines
import TrIrcd.Proofs.FdCounts
import TrIrcd.Proofs.V6Overruns
import TrIrcd.Proofs.InetRoundTrip
import TrIrcd.Proofs.Canonize
import TrIrcd.Proofs.PrettyMask
import TrIrcd.Proofs.DccFilter
import TrIrcd.Proofs.CollapsedMasks
import TrIrcd.Proofs.IdentReplies
import TrIrcd.Proofs.PushedBack
import TrIrcd.Proofs.ServerIds
import TrIrcd.Proofs.ParseAlike
import TrIrcd.Proofs.ConnectRotation
import TrIrcd.Proofs.DlinkRuns
import TrIrcd.Proofs.ClientLists
import TrIrcd.Proofs.AllowLists
import TrIrcd.Proofs.ParseSource
import TrIrcd.Proofs.PrefixParse
import TrIrcd.Proofs.Fanout
import TrIrcd.Proofs.QuitMessages
import TrIrcd.Proofs.MaskStore
import TrIrcd.Proofs.ConfRefs
import TrIrcd.Proofs.ConfCalls
import TrIrcd.Proofs.AuthDone
import TrIrcd.Proofs.Languages
import TrIrcd.Proofs.ThrottleCause
import TrIrcd.Proofs.CarryOver
import TrIrcd.Proofs.LinkSwitch
import TrIrcd.Proofs.ClientLoop
import TrIrcd.Proofs.HuntServer
import TrIrcd.Proofs.OutgoingBlocks
import TrIrcd.Proofs.BlockHeap
import TrIrcd.Proofs.ListenerRefs
import TrIrcd.Proofs.HttpRequests
import TrIrcd.Proofs.ClientQueue
import TrIrcd.Proofs.BanLookup
import TrIrcd.Proofs.Zlines
import TrIrcd.Proofs.ServerBurst
import TrIrcd.Proofs.ChannelList
import TrIrcd.Proofs.Rc4
import TrIrcd.Proofs.Hostmask
import TrIrcd.Proofs.Framing
import TrIrcd.Proofs.ParaBounds
import TrIrcd.Proofs.ModeLists
import TrIrcd.Proofs.StatusBurst
import TrIrcd.Proofs.FormatBounds
import TrIrcd.Proofs.SjoinBurst
import TrIrcd.Proofs.ReceiveCounts
import TrIrcd.Proofs.ModeSigns
import TrIrcd.Proofs.MaskRedundancy
import TrIrcd.Proofs.NickBans
import TrIrcd.Proofs.MaskDuplicates
import TrIrcd.Proofs.FailedJoins
import TrIrcd.Proofs.NameBuffers
import TrIrcd.Proofs.DecimalText
import TrIrcd.Proofs.NamesReply
import TrIrcd.Proofs.Base64Strings
import TrIrcd.Proofs.PollStale
import TrIrcd.Proofs.CommSelect
