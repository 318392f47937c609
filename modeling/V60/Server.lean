import V60.Tree

/-!
# The server

`handle_request` checks the target and calls the root route, without asking it
for a match. `do_session` reads the requests of one connection in turn and
stops when the last response written asked for the end of the stream.
-/

namespace V60

def hasDots : List Char → Bool
  | '.' :: '.' :: _ => true
  | _ :: cs => hasDots cs
  | [] => false

def badTarget (target : List Char) : Bool :=
  target.isEmpty || target.head? != some '/' || hasDots target

def badRequest (beast : Beast) (raw : StrRequest) (why : List Char) : StrResponse :=
  let res : StrResponse := ⟨raw.version, 400, [], []⟩
  let res := { res with fields := res.fields.set "Server".toList beast.versionString }
  let res := { res with fields := res.fields.set "Content-Type".toList "text/html".toList }
  let res := { res with
    fields := beast.setKeepAlive res.version (beast.keepAlive raw.version raw.fields) res.fields }
  { res with body := why }.contentLength why.length

/-- The response the route is given. The request was moved into the routed request before its
`keep_alive` is read. -/
def freshMessage (beast : Beast) (raw : StrRequest) : StrResponse :=
  let reqq := Request.ofRaw raw
  let req := raw.movedFrom
  let res : StrResponse := ⟨.http11, 200, [], []⟩
  let res := { res with
    fields := res.fields.set "Server".toList ("v60_over_".toList ++ beast.versionString) }
  let res := { res with version := reqq.version }
  { res with
    fields := beast.setKeepAlive res.version (beast.keepAlive req.version req.fields) res.fields }

def freshResponse (beast : Beast) (raw : StrRequest) : Response :=
  Response.new (freshMessage beast raw)

def handleRequest (beast : Beast) (root : Routable) (raw : StrRequest) : Run :=
  if badTarget raw.target then
    (Run.done true).after [.wrote (badRequest beast raw "Illegal request-target".toList)]
  else root.call (Request.ofRaw raw) (freshResponse beast raw)

inductive Io where
  | read (raw : StrRequest)
  | wrote (resp : StrResponse)
  | shutdown
  | failed
  | aborted

def Io.wrote? : Io → Option StrResponse
  | .wrote resp => some resp
  | .read _ | .shutdown | .failed | .aborted => none

def responses (log : List Io) : List StrResponse := log.filterMap Io.wrote?

def closeAfter (beast : Beast) (close : Bool) (writes : List StrResponse) : Bool :=
  writes.foldl (fun _ msg => beast.needEof msg) close

theorem closeAfter_append (beast : Beast) (close : Bool) (writes writes' : List StrResponse) :
    closeAfter beast close (writes ++ writes') =
      closeAfter beast (closeAfter beast close writes) writes' :=
  List.foldl_append

/-- The loop of `do_session` over the requests the connection delivers, with the flag `close`.
An exception leaves the loop; after the last request the read fails. -/
def sessionLoop (beast : Beast) (root : Routable) : Bool → List StrRequest → List Io
  | _, [] => []
  | close, raw :: rest =>
    let run := handleRequest beast root raw
    let close := closeAfter beast close run.writes
    .read raw :: run.writes.map .wrote ++
      match run.outcome with
      | .aborted => [.aborted]
      | .threw => [.failed]
      | .returned _ => if close then [.shutdown] else sessionLoop beast root close rest

def doSession (beast : Beast) (root : Routable) (requests : List StrRequest) : List Io :=
  sessionLoop beast root false requests

theorem freshResponse_sender (beast : Beast) (raw : StrRequest) :
    (freshResponse beast raw).sender = true := rfl

theorem handleRequest_bad {beast : Beast} {root : Routable} {raw : StrRequest}
    (h : badTarget raw.target = true) :
    handleRequest beast root raw =
      ⟨[.wrote (badRequest beast raw "Illegal request-target".toList)], .returned true⟩ := by
  rw [handleRequest, if_pos h]
  rfl

theorem handleRequest_good {beast : Beast} {root : Routable} {raw : StrRequest}
    (h : badTarget raw.target = false) :
    handleRequest beast root raw = root.call (Request.ofRaw raw) (freshResponse beast raw) := by
  rw [handleRequest, if_neg (by simp [h])]

end V60
