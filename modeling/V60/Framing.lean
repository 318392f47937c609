import V60.Messages

/-!
# The length of a message

`send` sets the `Content-Length` of a message after everything a handler set,
and a message that was moved away keeps its version. So every message that any
session writes tells its client where it ends, once, and has the version of the
request (`Process.framed`): handlers and middlewares cannot break this.
-/

namespace V60

/-- The message has this version, and one field that says how long its body is. -/
structure StrResponse.Framed (version : Version) (m : StrResponse) : Prop where
  version : m.version = version
  length : m.fields.filter (fun f => iequals f.1 "Content-Length".toList) =
    [("Content-Length".toList, m.body.length.repr.toList)]

theorem Fields.filter_set (fields : Fields) (name value : List Char) :
    (fields.set name value).filter (fun f => iequals f.1 name) = [(name, value)] := by
  have hself : iequals name name = true := by simp [iequals]
  rw [Fields.set, Fields.erase, List.filter_append, List.filter_filter]
  simp [hself]

theorem StrResponse.contentLength_framed (m : StrResponse) :
    (m.contentLength m.body.length).Framed m.version :=
  ⟨rfl, Fields.filter_set _ _ _⟩

theorem Response.message_framed (r : Response) (data : List Char) :
    (r.message data).Framed r.resp.version :=
  StrResponse.contentLength_framed { r.resp with body := data }

theorem framed_stable (version : Version) :
    Stable (fun _ => True) (fun m => m.version = version) (StrResponse.Framed version) where
  status _ h := h
  header _ _ h := h
  moved h := h
  message data h := h ▸ Response.message_framed _ data
  contentType := trivial

theorem handleRequest_framed (env : Env) (beast : Beast) (t : Tree) (raw : StrRequest) :
    ∀ m ∈ (handleRequest beast (t.routable env) raw).writes, m.Framed raw.version := by
  cases hraw : badTarget raw.target with
  | true =>
    rw [handleRequest_bad hraw]
    intro m hm
    obtain rfl : m = badRequest beast raw "Illegal request-target".toList := by
      simpa [Run.writes, Run.wrote?] using hm
    exact ⟨rfl, Fields.filter_set _ _ _⟩
  | false =>
    rw [handleRequest_good hraw]
    have hall := t.all_of_forall (fun _ => trivial) Handler.sets_any
    exact Tree.call_stable (framed_stable raw.version) hall (Request.ofRaw raw) rfl

/-- In every run of a process, whatever its routes are and its handlers call, every message that is
written answers the request that its session read last, in the version of that request, and has one
`Content-Length` field, the length of its body. -/
theorem Process.framed {env : Env} {beast : Beast} {t : Tree} {labels : List Label} {p : Process}
    (h : Run env beast t start labels p) {i : ℕ} {m : StrResponse} {pre post : List Act}
    (hacts : Machines.acts i (moves labels) = pre ++ .event (.wrote m) :: post) :
    ∃ client before raw, ∃ since : List Event, (clients labels)[i]? = some client ∧
      raw ∈ client.requests ∧ pre = before ++ .read raw :: since.map .event ∧
      .wrote m ∈ (handleRequest beast (t.routable env) raw).events ∧ m.Framed raw.version := by
  obtain ⟨client, before, raw, since, hclient, hraw, hpre, hprefix⟩ := run_event h hacts
  have hevent : .wrote m ∈ (handleRequest beast (t.routable env) raw).events :=
    hprefix.subset (by simp)
  refine ⟨client, before, raw, since, hclient, hraw, hpre, hevent, ?_⟩
  exact handleRequest_framed env beast t raw m (List.mem_filterMap.mpr ⟨_, hevent, rfl⟩)

/-- A request of HTTP/1.1 and one of HTTP/1.0 on one connection. -/
def versionsClient : Client := ⟨[v60Request, { worldRequest with version := .http10 }], 2⟩

theorem Process.framed_versions :
    ∃ labels p, Run (pcreEnv .debug) .reference parameterRoute start labels p ∧
      (responses (shown 0 labels)).map StrResponse.version = [.http11, .http10] ∧
      ∀ (pre : List Act) m post, Machines.acts 0 (moves labels) =
          pre ++ .event (.wrote m) :: post →
        ∃ before raw, ∃ since : List Event,
          pre = before ++ .read raw :: since.map .event ∧ m.Framed raw.version := by
  have halive : ∀ client ∈ [versionsClient], ∀ raw ∈ client.requests, (handleRequest .reference
      (parameterRoute.routable (pcreEnv .debug)) raw).outcome ≠ .aborted := by
    decide +kernel
  obtain ⟨labels, p, hrun, -, -, -, hshown⟩ :=
    run_ended (pcreEnv .debug) .reference parameterRoute [versionsClient] halive
  refine ⟨labels, p, hrun, ?_, ?_⟩
  · rw [hshown 0 versionsClient rfl]
    decide +kernel
  · intro pre m post hacts
    obtain ⟨-, before, raw, since, -, -, hpre, -, hframed⟩ := framed hrun hacts
    exact ⟨before, raw, since, hpre, hframed⟩

end V60
