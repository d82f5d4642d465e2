import Lighttpd.Chunkqueue
import Lighttpd.HeaderEnd
import Lighttpd.Buffer
import Lighttpd.ConfigCond
import Lighttpd.ReadState
import Lighttpd.ConfigCache
import Lighttpd.ConfigGuards
import Lighttpd.ConfigLock
import Lighttpd.Lib.PathSegments
import Lighttpd.PathSimplify
import Lighttpd.Request
import Lighttpd.HeaderScan
import Lighttpd.RequestAccept
import Lighttpd.RequestExtent
import Lighttpd.RequestFraming
import Lighttpd.ResponsePrepare
import Lighttpd.Tempfile
import Lighttpd.ReadPost
import Lighttpd.DataArray
import Lighttpd.DataArrayIndex
import Lighttpd.ConnectionPool
import Lighttpd.Joblist
import Lighttpd.HttpChunk
import Lighttpd.ResponseHeaders
import Lighttpd.SharedHeaders
import Lighttpd.ProcessHeaders
import Lighttpd.WritePrepare
import Lighttpd.ResponseFraming
import Lighttpd.HeaderAssertions
import Lighttpd.GwProcs
import Lighttpd.GwProcLists
import Lighttpd.GwProcRun
import Lighttpd.GwRequest
import Lighttpd.GwLoad
import Lighttpd.ReadPostTurns
import Lighttpd.ReadPostCalls
import Lighttpd.ReadPostDecode
import Lighttpd.Alias
import Lighttpd.CgiBuffers
import Lighttpd.FcgiRequest
import Lighttpd.NetworkWrite
import Lighttpd.Lib.WebSocket
import Lighttpd.Wstunnel
import Lighttpd.Lib.SharedMemory
import Lighttpd.PluginData
import Lighttpd.ConfigParser
import Lighttpd.ConfigParserSteps
import Lighttpd.ConfigRuns
import Lighttpd.ConfigPlaces
import Lighttpd.ConfigSharing
import Lighttpd.ConfigOrder
import Lighttpd.BackendHead
import Lighttpd.BackendReads
import Lighttpd.CgiEnvironment
import Lighttpd.CgiSubrequest
import Lighttpd.CgiStart
import Lighttpd.WebdavDestination
import Lighttpd.Lib.FileTree
import Lighttpd.WebdavCopy
import Lighttpd.WebdavMove
import Lighttpd.WebdavLocks
import Lighttpd.ErrorHandler
import Lighttpd.ErrorHandlerRuns
import Lighttpd.ConnectionMachine
import Lighttpd.TimeLimits
import Lighttpd.GracefulShutdown
import Lighttpd.Lib.PartialRuns
import Lighttpd.ReadPostLines
import Lighttpd.ReadPostArithmetic
import Lighttpd.DataArrayKeys
import Lighttpd.SsiConditionals
import Lighttpd.SsiScan
import Lighttpd.SsiRead
import Lighttpd.Base64
import Lighttpd.WstunnelIetf00
import Lighttpd.SsiExpr
import Lighttpd.SsiExprParser
import Lighttpd.SsiEval
import Lighttpd.SsiBlanks
import Lighttpd.Lib.LinkTree
import Lighttpd.RequestKeepAlive
import Lighttpd.Base64Charsets
import Lighttpd.PathSimplifyMemory
import Lighttpd.UrlCoding
import Lighttpd.Etag
import Lighttpd.HandleCachable
import Lighttpd.HostLabels
import Lighttpd.HostNormal
import Lighttpd.Lib.ByteRanges
import Lighttpd.ParseRange
import Lighttpd.SendFile
import Lighttpd.StatCache
import Lighttpd.FileLinks
import Lighttpd.Base64Failure
import Lighttpd.CondMatches
import Lighttpd.TempfileSteal
import Lighttpd.Mimetype
import Lighttpd.AliasOrder
import Lighttpd.Rewrite
import Lighttpd.Evhost
import Lighttpd.Secdownload
import Lighttpd.ConfigTokenizer
import Lighttpd.ConfigTokenizerRuns
import Lighttpd.Forwarded
import Lighttpd.ForwardedTable
import Lighttpd.ForwardedWalk
import Lighttpd.ForwardedBounds
import Lighttpd.VhostCache
import Lighttpd.Userdir
import Lighttpd.HostCondition
import Lighttpd.WebdavDelete
import Lighttpd.WebdavDeleteLinks
import Lighttpd.DigestCredentials
import Lighttpd.FdeventTable
import Lighttpd.StatCacheUses
import Lighttpd.ForwardedAuthority
import Lighttpd.CondMatchKept
import Lighttpd.CondMatchRuns
import Lighttpd.Accesslog
import Lighttpd.AccesslogWrite
import Lighttpd.AccesslogFraction
import Lighttpd.AccesslogEscape
import Lighttpd.AccesslogCookie
import Lighttpd.AccesslogLines
import Lighttpd.AuthnFile
import Lighttpd.Expire
import Lighttpd.UploadProgress
import Lighttpd.WebdavPut
import Lighttpd.WebdavProppatch
import Lighttpd.PathInfo
import Lighttpd.CompressCache
import Lighttpd.ChunkCleanup
import Lighttpd.FcgiParams
import Lighttpd.Numerals
import Lighttpd.FcgiPackets
import Lighttpd.DirListing
import Lighttpd.Lib.LeadingBits
import Lighttpd.AddrMask
import Lighttpd.GwHostGet
import Lighttpd.Lib.Tlv
import Lighttpd.HapProxy
import Lighttpd.ForwardedElements
import Lighttpd.ResponseWire
import Lighttpd.Splaytree
