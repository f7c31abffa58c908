import Cube.Lib.Run
import Cube.Lib.Scan
import Cube.Lib.Window
import Cube.Lib.Block
import Cube.Lib.DList
import Cube.Lib.Outcome
import Cube.Lib.Wire
import Cube.Channel.Buf
import Cube.Channel.Registry
import Cube.ExModule.MsgQueue
import Cube.ExModule.QueueReset
import Cube.Connector.Round
import Cube.Connector.P2p
import Cube.Message.Head
import Cube.Message.Box
import Cube.Message.Read
import Cube.Message.Output
import Cube.Message.Get
import Cube.Message.Stream
import Cube.Dispatch.MatchRule
import Cube.Dispatch.RouteTree
import Cube.Dispatch.WaitingList
import Cube.Dispatch.PathWalk
import Cube.Dispatch.Trace
import Cube.Lib.HashIndex
import Cube.Memdb.Index
import Cube.Memdb.Names
import Cube.Struct.Walk
import Cube.Struct.Create
import Cube.Struct.Clone
import Cube.Message.Build
import Cube.Message.Load
import Cube.Message.RoundTrip
import Cube.Struct.Conversions
import Cube.Struct.History
import Cube.Json.RoundTrip
import Cube.FileTrans.Bitmap
import Cube.FileTrans.Dealer
import Cube.FileTrans.Reassembly
import Cube.FileTrans.FileChannel
import Cube.FileTrans.Framing
import Cube.Dispatch.PolicyWindow
import Cube.Dispatch.ReadPolicy
import Cube.Dispatch.PolicyFailure
import Cube.Dispatch.BranchSite
import Cube.Dispatch.PolicySearch
import Cube.Memdb.Types
import Cube.Memdb.Dynamic
import Cube.Struct.Count
import Cube.Struct.Lookup
import Cube.Struct.CountName
import Cube.Struct.ArrayItems
import Cube.Struct.Flags
import Cube.Struct.FlagNames
import Cube.Struct.NegativeCount
import Cube.Struct.PartClone
import Cube.Crypto.Radix64
import Cube.Text.Uuid
import Cube.Struct.IntText
import Cube.Text.Enum
import Cube.Text.Flag
import Cube.Text.ElemTypeName
import Cube.Struct.JsonLoad
import Cube.Struct.PartBlob
import Cube.Text.Atoi
import Cube.Text.Numeral
import Cube.Text.NameList
import Cube.Text.Leaf
import Cube.Text.Hex
import Cube.Message.Add
import Cube.Message.Expand
import Cube.Message.Repeat
import Cube.Message.SetUuid
import Cube.Message.Clone
import Cube.Message.Typestr
import Cube.Json.Number
import Cube.Json.Walks
import Cube.Json.Bounds
import Cube.Struct.LaysOut
import Cube.Dispatch.RuleTarget
import Cube.ExModule.Slot
import Cube.BaseFunc.PointerQueue
import Cube.BaseFunc.PointerStack
import Cube.Text.LowestBit
import Cube.BaseFunc.ListQueue
import Cube.BaseFunc.HashList
import Cube.Crypto.Sm4
import Cube.Crypto.Context
import Cube.Crypto.Padding
import Cube.Crypto.TextCrypt
import Cube.Connector.PeerLookup
import Cube.Connector.Answer
import Cube.Channel.WebSocket
import Cube.Struct.FlagList
import Cube.Crypto.BlockBuffer
import Cube.Crypto.Sm3
import Cube.Crypto.Sm3Hmac
import Cube.Crypto.Sm3Words
import Cube.Crypto.Sha1
import Cube.Crypto.Sm4Cbc
import Cube.Crypto.FileCrypt
import Cube.Dispatch.PolicyLayers
import Cube.Dispatch.RouterLoop
import Cube.Dispatch.RouterCount
import Cube.Dispatch.RouterDrain
import Cube.Dispatch.RouterRun
