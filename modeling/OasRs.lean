import OasRs.RateLimit
import OasRs.RateLimitBounds
import OasRs.Path
import OasRs.RouterSpec
import OasRs.Middleware
import OasRs.AppSpec
import OasRs.Dispatch
import OasRs.ScopeSafety
import OasRs.Reference
import OasRs.RouteLimit
import OasRs.Captures
import OasRs.Normalization
import OasRs.Escape
import OasRs.Aliases
import OasRs.Registry
import OasRs.TypeGraph
import OasRs.SplitOutputs
import OasRs.SplitRequests
import OasRs.Split
import OasRs.Sse
import OasRs.Http
import OasRs.Cors
import OasRs.CorsBrowser
import OasRs.Compress
import OasRs.Multipart
import OasRs.Runtime
import OasRs.DeadRoutes
import OasRs.Derive
import OasRs.Document
import OasRs.DocumentSpec
import OasRs.DocumentUnique
import OasRs.Query
import OasRs.QueryText
import OasRs.QueryFields
import OasRs.QueryReadings
import OasRs.QueryAgree
import OasRs.Chain
import OasRs.PercentDecoding
import OasRs.Extraction
import OasRs.ErrorsDocumented
import OasRs.CapturesFaithful
import OasRs.RateLimitTable
import OasRs.DelimiterChunks
import OasRs.Lib.Transducer
import OasRs.FrameScanner
import OasRs.Lib.InitialSegment
import OasRs.H2Detection
import OasRs.HeaderLists
import OasRs.Activity
import OasRs.Lib.Settling
import OasRs.JsonSchema
import OasRs.StructGraph
import OasRs.RequestSchema
import OasRs.Lib.Returning
import OasRs.Lib.Walk
import OasRs.DerivePlan
import OasRs.Recursion
import OasRs.DocumentCache
import OasRs.Oneshot
import OasRs.Lib.Utf8
import OasRs.SetCookie
import OasRs.Cookies
import OasRs.StaticFiles
import OasRs.Lib.Machine
import OasRs.Serving
import OasRs.Driving
import OasRs.SendTimeout
import OasRs.BearerAuth
import OasRs.FileDelivery
import OasRs.WebSocket
import OasRs.JsonMap
import OasRs.Answers
import OasRs.Legible
import OasRs.References
import OasRs.OutputComponents
import OasRs.RequestComponents
import OasRs.Components
import OasRs.DocumentClosed
import OasRs.Validity
import OasRs.Serialization
import OasRs.Describable
import OasRs.ObjectSchemas
import OasRs.EnumSchemas
import OasRs.Described
import OasRs.DocumentDescribed
