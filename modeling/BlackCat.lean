import BlackCat.Loops
import BlackCat.ByteMemory
import BlackCat.LengthFrames
import BlackCat.ServerCommon
import BlackCat.Dispatcher
import BlackCat.FramingSafety
import BlackCat.TcpConnection
import BlackCat.RpcReassembly
import BlackCat.GenericServer
import BlackCat.ScanSafety
import BlackCat.ScanTermination
import BlackCat.PacketReassembly
import BlackCat.Codec
import BlackCat.ConnMgr
import BlackCat.RpcMessages
import BlackCat.RpcProxyServer
import BlackCat.Queues
import BlackCat.RequestReply
import BlackCat.RequestOrder
import BlackCat.RpcService
import BlackCat.RpcSystem
import BlackCat.RpcRouting
import BlackCat.RpcRefinement
import BlackCat.RpcAgreement
import BlackCat.Runs
import BlackCat.SendOrder
import BlackCat.Disconnects
import BlackCat.Reconnect
import BlackCat.ConnectionIds
import BlackCat.ReconnectFraming
import BlackCat.TaskRunner
import BlackCat.GateUsers
import BlackCat.NameTakeover
import BlackCat.ReplyRouting
import BlackCat.ServiceLoss
import BlackCat.UnansweredCalls
import BlackCat.AnswerOrigins
import BlackCat.IdAllocation
import BlackCat.TimerIds
import BlackCat.WriterStall
import BlackCat.RpcStubs
import BlackCat.Strop
import BlackCat.SplitString
import BlackCat.ReplaceString
import BlackCat.SplitCsv
import BlackCat.CfgReader
import BlackCat.CfgGrammar
import BlackCat.CfgFiles
import BlackCat.CodedInputStream
import BlackCat.CodedOutputStream
import BlackCat.ProtoMessage
import BlackCat.ProtoParser
import BlackCat.Descents
import BlackCat.ProtoCodec
import BlackCat.RpcBytes
import BlackCat.RpcBytesRefinement
import BlackCat.BlockStreams
import BlackCat.Md5
import BlackCat.Md5Digest
import BlackCat.RpcStack
import BlackCat.TimerLoop
import BlackCat.TimerPacing
import BlackCat.TimerTicks
