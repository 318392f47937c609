import V60.Routable

/-!
# Middlewares

`use(mw, next)` matches as `next` does and calls the middleware function on the
request, the response and `next`. The cookie parser splits the header, reads
each part with `(\S+)=(\S+)`, keeps the first value of a name, and gives every
declared member the value of its key.
-/

namespace V60

open Regex Pcre

def splitLoop (delims : List Char) (first : List Char) : List (List Char) :=
  if first = [] then []
  else
    let token := first.takeWhile fun c => !delims.contains c
    let second := first.dropWhile fun c => !delims.contains c
    (if token = [] then [] else [token]) ++
      (if second = [] then [] else splitLoop delims second.tail)
termination_by first.length
decreasing_by
  have hle := (List.dropWhile_suffix (fun c => !delims.contains c) (l := first)).length_le
  have hpos := List.length_pos_iff.mpr ‹¬first = []›
  simp only [List.length_tail]
  omega

def split (str delims : List Char) : List (List Char) := splitLoop delims str

def cookieRe : Re :=
  seqAll [.capture 1 none (plus nonSpace), literal '=', .capture 2 none (plus nonSpace)]

example : parse "(\\S+)=(\\S+)".toList = some cookieRe := rfl

def matchCookie (part : List Char) : Option (List Char × List Char) :=
  (fullMatch cookieRe part).map fun t =>
    ((t.caps.lookup 1).getD [], (t.caps.lookup 2).getD [])

abbrev Kv := List (List Char × List Char)

/-- `std::map::emplace`, which leaves a key that is there alone. -/
def Kv.emplace (kv : Kv) (key val : List Char) : Kv :=
  if (kv.lookup key).isSome then kv else kv ++ [(key, val)]

def readCookie (kv : Kv) (part : List Char) : Kv :=
  match matchCookie part with
  | some (key, val) => kv.emplace key val
  | none => kv

def parseCookies (header : List Char) : Kv := (split header "; ".toList).foldl readCookie []

def cookieObject (keys : List Key) (kv : Kv) : Object (List Char) :=
  let cookies : Object (List Char) := Object.ofKeys keys
  cookies.assign cookies.keys fun key => (kv.lookup key).getD []

/-- The middlewares of the library; the two parsers carry the keys of their object. -/
inductive Mw where
  | logging
  | profile
  | notFound
  | serverFault
  | cookieParser (keys : List Key)
  | objectBody (keys : List Key)

def notFoundMw (next : Routable) (req : Request) (resp : Response) : Run :=
  if next.isMatch req.method req.path then next.call req resp
  else (resp.status 404).send ("Not found: ".toList ++ req.path) fun _ => .done false

def answerFault (respBak : Response) : Run :=
  (respBak.status 500).send "Internal server error!".toList fun _ => .done false

def serverFaultMw (next : Routable) (req : Request) (resp : Response) : Run :=
  (next.call req resp).orElse (answerFault resp)

def cookieParserMw (keys : List Key) (next : Routable) (req : Request) (resp : Response) : Run :=
  match req.header "Cookie".toList with
  | none => .done false
  | some header => next.call (req.withMixin (cookieObject keys (parseCookies header))) resp

/-- `object_body` is only instantiated on a request whose body is still the text, in a build with
a parser that takes it: the shipped one takes no `string_view`. -/
def objectBodyMw (env : Env) (keys : List Key) (next : Routable) (req : Request)
    (resp : Response) : Run :=
  match req.body with
  | .object _ => next.call req resp
  | .text text =>
    match env.simdjson keys text with
    | none => .failed
    | some body => next.call (req.withBody (.object body)) resp

def Mw.call (env : Env) (mw : Mw) (next : Routable) : Request → Response → Run :=
  match mw with
  | .logging | .profile => next.call
  | .notFound => notFoundMw next
  | .serverFault => serverFaultMw next
  | .cookieParser keys => cookieParserMw keys next
  | .objectBody keys => objectBodyMw env keys next

def use (env : Env) (mw : Mw) (next : Routable) : Routable where
  isMatch := next.isMatch
  call := mw.call env next

section NotFound

variable {next : Routable} {req : Request}

theorem notFoundMw_match (resp : Response) (h : next.isMatch req.method req.path = true) :
    notFoundMw next req resp = next.call req resp := by
  rw [notFoundMw, if_pos h]

theorem notFoundMw_miss {resp : Response} (hresp : resp.sender = true)
    (h : next.isMatch req.method req.path = false) :
    notFoundMw next req resp =
      ⟨[.wrote ((resp.status 404).message ("Not found: ".toList ++ req.path))],
        .returned false⟩ := by
  rw [notFoundMw, if_neg (by simp [h]), Response.send_alive (r := resp.status 404) hresp]
  rfl

end NotFound

section Parsers

variable {env : Env} {keys : List Key} {next : Routable} {req : Request} (resp : Response)

theorem cookieParserMw_none (h : req.header "Cookie".toList = none) :
    cookieParserMw keys next req resp = .done false := by
  rw [cookieParserMw, h]

theorem cookieParserMw_some {header : List Char} (h : req.header "Cookie".toList = some header) :
    cookieParserMw keys next req resp =
      next.call (req.withMixin (cookieObject keys (parseCookies header))) resp := by
  rw [cookieParserMw, h]

theorem objectBodyMw_object {body : Object (List Char)} (h : req.body = .object body) :
    objectBodyMw env keys next req resp = next.call req resp := by
  rw [objectBodyMw, h]

theorem objectBodyMw_failed {text : List Char} (h : req.body = .text text)
    (hread : env.simdjson keys text = none) :
    objectBodyMw env keys next req resp = .failed := by
  simp only [objectBodyMw, h, hread]

theorem objectBodyMw_read {text : List Char} {body : Object (List Char)}
    (h : req.body = .text text) (hread : env.simdjson keys text = some body) :
    objectBodyMw env keys next req resp = next.call (req.withBody (.object body)) resp := by
  simp only [objectBodyMw, h, hread]

end Parsers

theorem answerFault_sends {resp : Response} (hresp : resp.sender = true) :
    answerFault resp =
      ⟨[.wrote ((resp.status 500).message "Internal server error!".toList)],
        .returned false⟩ := by
  rw [answerFault, Response.send_alive (r := resp.status 500) hresp]
  rfl

theorem refuse_handlers (resp : Response) (code : ℕ) (data : List Char) :
    ((resp.status code).send data fun _ => .done false).handlers = [] := by
  rw [Response.send]
  split_ifs <;> rfl

/-- What a call of a middleware comes to. -/
inductive Mw.Called (next : Routable) (req : Request) (resp : Response) : Run → Prop
  | handsOn (req' : Request) : req'.raw = req.raw → req'.remaining = req.remaining →
    req'.params = req.params → Called next req resp (next.call req' resp)
  | refuses (data : List Char) :
    Called next req resp ((resp.status 404).send data fun _ => .done false)
  | recovers : Called next req resp ((next.call req resp).orElse (answerFault resp))
  | declines : Called next req resp (.done false)
  | fails : Called next req resp .failed

theorem Mw.called (env : Env) (mw : Mw) (next : Routable) (req : Request) (resp : Response) :
    Mw.Called next req resp (mw.call env next req resp) := by
  cases mw with
  | logging => exact .handsOn req rfl rfl rfl
  | profile => exact .handsOn req rfl rfl rfl
  | notFound =>
    simp only [call, notFoundMw]
    split_ifs
    · exact .handsOn req rfl rfl rfl
    · exact .refuses _
  | serverFault => exact .recovers
  | cookieParser keys =>
    simp only [call, cookieParserMw]
    split
    · exact .declines
    · exact .handsOn _ rfl rfl rfl
  | objectBody keys =>
    simp only [call, objectBodyMw]
    split
    · exact .handsOn req rfl rfl rfl
    · split
      · exact .fails
      · exact .handsOn _ rfl rfl rfl

end V60
