import Nginx.RequestUriAgreement
import Nginx.GeoRangesLaw
import Nginx.FileCacheLock
import Nginx.FileCacheSize
import Nginx.SubFilterLaw
import Nginx.LimitZoneLaw
import Nginx.LimitReqExpiry
import Nginx.OpenFileCacheLaw
import Nginx.ResolverLaw
import Nginx.MemcachedFilter
import Nginx.RoundRobinShares
import Nginx.ChunkedFilter
import Nginx.KernelSendOffers
import Nginx.OutputChainRuns
import Nginx.RequestBodyLaw
import Nginx.PhaseEngineLaw
import Nginx.StaticLocationsLaw
import Nginx.ConfTokensLaw
import Nginx.ProxyCacheKey
import Nginx.UpstreamResend
import Nginx.CacheFileHeader
import Nginx.UpstreamCacheable
import Nginx.TimersLaw
import Nginx.NonBufferedLaw
import Nginx.UpstreamNextLaw
import Nginx.SsiParseLaw
import Nginx.WriteFilterLaw
import Nginx.RangeParseLaw
import Nginx.ResolverRecords
import Nginx.UriBuffer
import Nginx.HeaderLinesLaw
import Nginx.HttpHost
import Nginx.HttpVersion
import Nginx.ParseUnits
import Nginx.ExactHashLaw
import Nginx.GeoRangesVisits
import Nginx.SplitClients
import Nginx.SecureLink
import Nginx.MultiHeaderLines
import Nginx.GeoBlockLaw
import Nginx.RealIp
import Nginx.AutoindexPage
import Nginx.HeaderBlock
import Nginx.MinUses
import Nginx.NgxQueue
import Nginx.FormErrScan
import Nginx.KeyedTrees
import Nginx.Inet6Text
import Nginx.TempFileNames
import Nginx.DavDestination
import Nginx.PoolArrayLaw
import Nginx.MailCommandLaw
import Nginx.AcceptMutex
import Nginx.Postpone
import Nginx.Connections
import Nginx.ImapReads
