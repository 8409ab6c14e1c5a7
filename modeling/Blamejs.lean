import Blamejs.Proofs.CanonicalContent
import Blamejs.Proofs.AuditWalk
import Blamejs.Proofs.AuditRange
import Blamejs.Proofs.PurgeAnchor
import Blamejs.Proofs.CborEntries
import Blamejs.Proofs.CborLossless
import Blamejs.Proofs.FsmHistory
import Blamejs.Proofs.MemoryCache
import Blamejs.Proofs.DualControl
import Blamejs.Proofs.Outbox
import Blamejs.Proofs.QueueLease
import Blamejs.Proofs.QueueWake
import Blamejs.Proofs.ClusterCache
import Blamejs.Proofs.ClusterLease
import Blamejs.Proofs.CircuitBreaker
import Blamejs.Proofs.NonceStore
import Blamejs.Proofs.BatchingSink
import Blamejs.Js.Base64
import Blamejs.Ref.StructuredFields
import Blamejs.Proofs.Dnssec
import Blamejs.Proofs.HttpCache
import Blamejs.Proofs.WebSocketWire
import Blamejs.Proofs.WebSocketEvents
import Blamejs.Proofs.TcfAgain
import Blamejs.Proofs.RedisClient
import Blamejs.Proofs.XmlC14n
import Blamejs.Proofs.BreakGlass
import Blamejs.Proofs.JsonPath
import Blamejs.Proofs.AgentIdempotency
import Blamejs.Proofs.SingleFlight
import Blamejs.Proofs.Lockout
import Blamejs.Proofs.Srs
import Blamejs.Proofs.CookieJar
import Blamejs.Proofs.SafeDns
import Blamejs.Proofs.TarExtract
import Blamejs.Proofs.Tar
import Blamejs.Proofs.AgentSaga
import Blamejs.Proofs.Permissions
import Blamejs.Proofs.SsrfGuard
import Blamejs.Proofs.StatusList
import Blamejs.Proofs.Dkim
import Blamejs.Proofs.FrameParser
import Blamejs.Proofs.RrsetSigned
import Blamejs.Proofs.Calendar
import Blamejs.Proofs.IpUtils
import Blamejs.Proofs.Tsig
import Blamejs.Proofs.RateLimit
import Blamejs.Proofs.TenantQuota
import Blamejs.Proofs.SafeSmtp
import Blamejs.Proofs.BodyScanner
import Blamejs.Proofs.Inbox
import Blamejs.Proofs.AiQuota
import Blamejs.Proofs.IdempotencyKey
import Blamejs.Proofs.JsonPathText
import Blamejs.Proofs.PresentationName
import Blamejs.Proofs.SieveGlob
import Blamejs.Proofs.SieveToken
import Blamejs.Proofs.VaultAad
import Blamejs.Proofs.LocalTx
import Blamejs.Proofs.CellKey
import Blamejs.Proofs.SqlScan
import Blamejs.Proofs.EncodedCharacter
import Blamejs.Proofs.RestoreRollback
import Blamejs.Proofs.HtmlBalance
import Blamejs.Proofs.Asn1Der
import Blamejs.Proofs.Parallel
import Blamejs.Proofs.Semaphore
import Blamejs.Proofs.KeyedSerializer
import Blamejs.Proofs.OrSet
import Blamejs.Proofs.OrMap
import Blamejs.Proofs.Scheduler
