import MyServer.Security.ReadBack
import MyServer.Ftp.Authorised
import MyServer.HashMap.Table
import MyServer.HashMap.Invariant
import MyServer.HashMap.Refinement
import MyServer.Http.DataRead
import MyServer.Http.SourceReads
import MyServer.Http.ChunkSize
import MyServer.Http.ChunkedBody
import MyServer.Http.ChunkedDecode
import MyServer.Lib.Turns
import MyServer.Scheduler.Ready
import MyServer.Scheduler.Fairness
import MyServer.Http.ChunkEncode
import MyServer.Http.FilteredOutput
import MyServer.Http.FileSend
import MyServer.Http.RangeServed
import MyServer.Http.SendPaths
import MyServer.Http.DavConfined
import MyServer.Server.FreeThreads
import MyServer.Server.Lifecycle
import MyServer.Server.Lifetime
import MyServer.Http.FastCgi
import MyServer.Http.FastCgiRecords
import MyServer.Http.FastCgiDemux
import MyServer.Cache.Accounting
import MyServer.Cache.Alone
import MyServer.Cache.Lifetime
import MyServer.Gopher.Confined
import MyServer.Http.DavExclusive
import MyServer.Lib.Graph
import MyServer.Lib.OrdMap
import MyServer.Lib.Through
import MyServer.Log.AddExact
import MyServer.Log.Delivery
import MyServer.Log.Queries
import MyServer.Plugin.Closed
import MyServer.Sync.ReadWriteLock
import MyServer.Http.HeaderText
import MyServer.Http.HeaderFits
import MyServer.Http.CgiBlock
import MyServer.Http.FastCgiParams
import MyServer.Http.Scgi
import MyServer.Http.ChunkedStream
import MyServer.Http.ProxyRelay
import MyServer.Http.ChunkedRelay
import MyServer.Http.ProxyHeader
import MyServer.Http.Pipelining
import MyServer.Security.Cache
import MyServer.Http.PoolRuns
import MyServer.Base.Slab
import MyServer.Scheduler.FastReboot
import MyServer.Ftp.ControlLines
import MyServer.Ftp.ControlReads
import MyServer.Ftp.Ascii
import MyServer.Base.ProcessServers
import MyServer.Http.ResponseLines
import MyServer.Http.HeaderWritten
import MyServer.Http.ResponseRoundTrip
import MyServer.Http.AuthLine
import MyServer.Http.RequestParse
import MyServer.Http.RequestFields
import MyServer.Http.RequestExact
import MyServer.Http.RequestKept
import MyServer.Http.RequestRoundTrip
import MyServer.Http.RequestTurns
import MyServer.Http.RangeInside
import MyServer.Http.AuthInside
import MyServer.Http.LineNeighbours
import MyServer.Http.LineDisturbs
import MyServer.Http.Base64Decode
import MyServer.Http.Base64Encode
import MyServer.Http.BasicCredentials
import MyServer.Base.QuotedPrintable
import MyServer.Http.CheckDigest
import MyServer.Control.Header
import MyServer.Control.Framing
import MyServer.Control.Transfer
import MyServer.Lib.Latest
import MyServer.Lib.Separated
import MyServer.Log.RotatedName
import MyServer.Log.FiltersChain
import MyServer.Log.Rotation
import MyServer.Conf.VhostReferences
import MyServer.Ftp.Login
import MyServer.Base.IStringStream
import MyServer.Conf.IpRange
import MyServer.Conf.IpGrammar
import MyServer.HashMap.Clear
import MyServer.HashMap.LoadBounds
import MyServer.HashMap.Filled
import MyServer.HashMap.Iteration
import MyServer.Filter.Linkage
import MyServer.Filter.Factory
import MyServer.Filter.GetName
import MyServer.Filter.Flush
import MyServer.Lib.Heap
import MyServer.MemBuf.MemBuf
import MyServer.MemBuf.Representation
import MyServer.MemBuf.Calls
import MyServer.MemBuf.Copies
import MyServer.MemBuf.Find
import MyServer.MemBuf.Numbers
import MyServer.MemBuf.Hex
import MyServer.Base.Escapes
import MyServer.Base.SecureStr
import MyServer.Base.Trim
import MyServer.Cache.Reading
import MyServer.Filter.MemoryStream
import MyServer.Http.PathInfo
import MyServer.Pycontrollib.Lxml
import MyServer.Pycontrollib.SavedAttributes
import MyServer.Pycontrollib.SavedPolicy
import MyServer.Pycontrollib.SavedVerdict
import MyServer.Http.ResetOther
import MyServer.Http.RepeatedFields
import MyServer.Http.RequestComplete
import MyServer.Base.HttpDate
import MyServer.Http.Url
import MyServer.Http.UrlRoundTrip
import MyServer.Plugin.VersionOrder
import MyServer.Files.PathSplit
import MyServer.Conf.MimeHandler
import MyServer.Control.Rendered
import MyServer.Http.CgiHeader
import MyServer.Files.RecursionLevel
import MyServer.Base.Throttling
import MyServer.Gopher.Intro
import MyServer.Gopher.Selector
import MyServer.Ftp.Telnet
import MyServer.Ftp.WorkingDirectory
import MyServer.Log.Expansion
import MyServer.Security.SecurityFile
import MyServer.Cache.Transparent
import MyServer.MyserverGet.Install
import MyServer.Base.ForkServer
import MyServer.Scheduler.Commands
import MyServer.Http.Environment
import MyServer.Http.PutFile
import MyServer.Http.DavTrees
import MyServer.Pycontrollib.Config
import MyServer.Http.SendResource
