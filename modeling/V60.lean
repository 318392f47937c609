import V60.Regex
import V60.RegexMethods
import V60.RegexSemantics
import V60.RegexLanguage
import V60.Pcre
import V60.Meta
import V60.Object
import V60.Routing
import V60.Ctre
import V60.Http
import V60.Request
import V60.Response
import V60.Routable
import V60.Middleware
import V60.Tree
import V60.RouteTable
import V60.Server
import V60.GuardedDispatch
import V60.NotFound
import V60.FallThrough
import V60.Ending
import V60.Answered
import V60.Parametricity
import V60.Persistence
import V60.Segments
import V60.Parameters
import V60.Nesting
import V60.Cookies
import V60.Combinators
import V60.Splitting
import V60.Template
import V60.TypeLists
import V60.SortedSets
import V60.Conversion
import V60.UniformObjects
import V60.PathSegments
import V60.RegexMap
import V60.LiteralText
import V60.PatternLanguage
import V60.Enrichment
import V60.Machines
import V60.Network
import V60.Session
import V60.Process
import V60.Settled
import V60.Confinement
import V60.Messages
import V60.Framing
import V60.Stacks
import V60.Survival
import V60.Progress
import V60.Site
import V60.Swallowing
import V60.RouteOrder
import V60.Equivalence
import V60.HangUps
import V60.Reconnecting
import V60.Visits
import V60.Handed
import V60.CookieHeaders
import V60.Detours
