import V60.Parametricity

/-!
# Persistence of a connection

`handle_request` copies the `keep_alive` of the request into its responses, on
the routed path after the request was moved, when its header fields are gone.
What a route makes of the response it is given does not depend on that response,
so the `Connection` field of what is sent is the one the route sets, or else
the one of a request without header fields.
-/

namespace V60

theorem Fields.find_congr (fields : Fields) {name other : List Char}
    (h : iequals name other = true) : fields.find name = fields.find other := by
  have hpred : (fun f : List Char × List Char => iequals f.1 name) =
      fun f => iequals f.1 other := by
    funext f
    simp only [iequals, beq_iff_eq] at h ⊢
    rw [h]
  rw [Fields.find, Fields.find, hpred]

namespace StrResponse

def connection (m : StrResponse) : Option (List Char) := m.fields.find "Connection".toList

/-- `m` has this version, and this `Connection` field unless `m'` has one of its own. -/
structure Inherits (version : Version) (value : Option (List Char)) (m m' : StrResponse) :
    Prop where
  version : m.version = version
  connection : m.connection = m'.connection.or value

variable {version : Version} {value : Option (List Char)} {m m' : StrResponse}

theorem inherits_kept : Kept (fun _ => True) (Inherits version value) where
  status _ h := ⟨h.version, h.connection⟩
  body _ h := ⟨h.version, h.connection⟩
  header {m m' key} text _ h := by
    refine ⟨h.version, ?_⟩
    simp only [StrResponse.connection]
    cases hkey : iequals key "Connection".toList with
    | true =>
      rw [← Fields.find_congr _ hkey, ← Fields.find_congr _ hkey, Fields.find_set_self,
        Fields.find_set_self, Option.some_or]
    | false =>
      rw [Fields.find_set_of_ne _ hkey, Fields.find_set_of_ne _ hkey]
      exact h.connection
  contentType := trivial
  contentLength := trivial

/-- The changes that leave the `Connection` field alone. -/
def LeavesConnection (key : List Char) : Prop := iequals key "Connection".toList = false

theorem connectionless_kept :
    Kept LeavesConnection fun m _ : StrResponse => m.connection = none where
  status _ h := h
  body _ h := h
  header text hkey h := (Fields.find_set_of_ne text hkey).trans h
  contentType := by
    rw [LeavesConnection]
    decide
  contentLength := by
    rw [LeavesConnection]
    decide

end StrResponse

theorem Handler.sets_any (h : Handler) : h.Sets fun _ => True := by
  intro req call _
  cases call <;> trivial

theorem Tree.all_of_forall {p : Mw → Prop} {q : Handler → Prop} (hp : ∀ mw, p mw)
    (hq : ∀ h, q h) (t : Tree) : t.All p q := by
  induction t using Tree.induct with
  | endPoint method fn => exact hq fn
  | binding path next ih => exact ih
  | group routes ih => exact allRoutes_iff.mpr ih
  | use mw next ih => exact ⟨hp mw, ih⟩

/-! ## The response to a routed request -/

def Response.bare : Response := ⟨true, ⟨.http11, 200, [], []⟩⟩

def ownConnection (root : Routable) (req : Request) : Option (List Char) :=
  (root.call req .bare).writes.head?.bind StrResponse.connection

/-- What the response to a routed request asks for, whatever the header of the request says. -/
def routedKeepAlive (beast : Beast) (root : Routable) (raw : StrRequest) : Bool :=
  match ownConnection root (Request.ofRaw raw) with
  | some value => persists beast.hasToken raw.version (some value)
  | none => raw.version = .http11

/-- A route whose handlers leave the `Connection` field alone sets none. -/
theorem ownConnection_eq_none (env : Env) {t : Tree}
    (ht : t.All (fun _ => True) (Handler.Sets StrResponse.LeavesConnection)) (req : Request) :
    ownConnection (t.routable env) req = none := by
  have hbare : Response.Mirrors (fun m _ => m.connection = none) .bare .bare :=
    ⟨rfl, fun _ => rfl⟩
  have hfirst := (Tree.treatsAlike StrResponse.connectionless_kept env ht req _ _ hbare).first
  rw [ownConnection]
  generalize ((t.routable env).call req .bare).writes.head? = head at hfirst ⊢
  cases hfirst with
  | none => rfl
  | some hm => exact hm.1

theorem freshMessage_connection (beast : Beast) (raw : StrRequest) :
    (freshResponse beast raw).resp.connection =
      beast.keepAliveValue raw.version (decide (raw.version = .http11)) none := by
  have hmoved : beast.keepAlive raw.movedFrom.version raw.movedFrom.fields =
      decide (raw.version = .http11) := beast.keepAlive_nil raw.version
  have hserver : (Fields.set [] "Server".toList
      ("v60_over_".toList ++ beast.versionString)).find "Connection".toList = none := by
    rw [Fields.find_set_of_ne _ (by decide), Fields.find_nil]
  simp only [freshResponse, Response.new, Response.contentType, Response.header, Response.status,
    StrResponse.connection, freshMessage, hmoved]
  rw [Fields.find_set_of_ne _ (by decide), Beast.find_setKeepAlive, hserver]
  rfl

theorem freshResponse_mirrors (beast : Beast) (raw : StrRequest) :
    (freshResponse beast raw).Mirrors (StrResponse.Inherits raw.version
      (beast.keepAliveValue raw.version (decide (raw.version = .http11)) none)) .bare :=
  ⟨rfl, fun _ => ⟨rfl, freshMessage_connection beast raw⟩⟩

theorem Beast.needEof_sized (beast : Beast) {m : StrResponse}
    (h : (m.fields.find "Content-Length".toList).isSome = true) :
    beast.needEof m = !beast.keepAlive m.version m.fields := by
  rw [needEof, if_pos h]

section Routed

variable {env : Env} {beast : Beast} {t : Tree} {raw : StrRequest} {msg : StrResponse}

theorem routed_mirrors (env : Env) (beast : Beast) (t : Tree) (raw : StrRequest) :
    ((t.routable env).call (Request.ofRaw raw) (freshResponse beast raw)).Mirrors
      (StrResponse.Inherits raw.version
        (beast.keepAliveValue raw.version (decide (raw.version = .http11)) none))
      ((t.routable env).call (Request.ofRaw raw) .bare) :=
  Tree.treatsAlike StrResponse.inherits_kept env
    (t.all_of_forall (fun _ => trivial) Handler.sets_any) _ _ _ (freshResponse_mirrors beast raw)

theorem routed_keepAlive
    (h : ((t.routable env).call (Request.ofRaw raw) (freshResponse beast raw)).writes = [msg]) :
    beast.keepAlive msg.version msg.fields = routedKeepAlive beast (t.routable env) raw ∧
      beast.needEof msg = !beast.keepAlive msg.version msg.fields := by
  have hfirst := (routed_mirrors env beast t raw).first
  rw [h, List.head?_cons] at hfirst
  generalize hbare : ((t.routable env).call (Request.ofRaw raw) .bare).writes.head? = head at hfirst
  cases hfirst with
  | @some _ m' hm =>
    obtain ⟨hinherits, hsized⟩ := hm
    refine ⟨?_, beast.needEof_sized hsized⟩
    have hconnection := hinherits.connection
    simp only [StrResponse.connection] at hconnection
    simp only [routedKeepAlive, ownConnection, hbare, Option.bind_some, StrResponse.connection]
    rw [Beast.keepAlive, hinherits.version, hconnection]
    cases m'.fields.find "Connection".toList with
    | some value => rfl
    | none => exact beast.keepAliveValue_spec _ _ _

theorem badRequest_keepAlive (beast : Beast) (raw : StrRequest) (why : List Char) :
    let msg := badRequest beast raw why
    beast.keepAlive msg.version msg.fields = beast.keepAlive raw.version raw.fields ∧
      beast.needEof msg = !beast.keepAlive msg.version msg.fields := by
  intro msg
  refine ⟨?_, beast.needEof_sized ?_⟩
  · simp only [msg, badRequest, StrResponse.contentLength, Beast.keepAlive]
    rw [Fields.find_set_of_ne _ (by decide)]
    exact beast.keepAlive_setKeepAlive _ _ _
  · simp only [msg, badRequest, StrResponse.contentLength]
    rw [Fields.find_set_self]
    rfl

end Routed

/-! ## Sessions -/

/-- The requests up to the first that does not ask to keep the connection. -/
def attended (beast : Beast) : List StrRequest → List StrRequest
  | [] => []
  | raw :: rest => raw :: if beast.keepAlive raw.version raw.fields then attended beast rest else []

theorem mem_of_mem_attended {beast : Beast} {requests : List StrRequest} {raw : StrRequest}
    (h : raw ∈ attended beast requests) : raw ∈ requests := by
  induction requests with
  | nil => exact h
  | cons first rest ih =>
    rw [attended] at h
    rcases List.mem_cons.mp h with rfl | hrest
    · exact List.mem_cons_self
    · split_ifs at hrest
      · exact List.mem_cons_of_mem _ (ih hrest)
      · exact absurd hrest List.not_mem_nil

/-- Each request gets one response with its own `keep_alive`, and the connection goes on after it
exactly if it asked for that. -/
def FollowsRequests (beast : Beast) : List StrRequest → List Io → Prop
  | [], log => log = []
  | raw :: rest, log => ∃ msg after, log = .read raw :: .wrote msg :: after ∧
      beast.keepAlive msg.version msg.fields = beast.keepAlive raw.version raw.fields ∧
      if beast.keepAlive raw.version raw.fields then FollowsRequests beast rest after
      else after = [.shutdown]

/-- The route returns, and what its response asks for is what the request asked for. -/
def KeepsPersistence (beast : Beast) (root : Routable) (raw : StrRequest) : Prop :=
  badTarget raw.target = true ∨
    (∃ res, (root.call (Request.ofRaw raw) .bare).outcome = .returned res) ∧
      routedKeepAlive beast root raw = beast.keepAlive raw.version raw.fields

section Session

variable {env : Env} {beast : Beast} {t : Tree} {raw : StrRequest} {msg : StrResponse}

theorem handleRequest_keepsPersistence_iff
    (h : (handleRequest beast (t.routable env) raw).writes = [msg]) :
    beast.needEof msg = (!beast.keepAlive msg.version msg.fields) ∧
      (KeepsPersistence beast (t.routable env) raw ↔
        (∃ res, (handleRequest beast (t.routable env) raw).outcome = .returned res) ∧
          beast.keepAlive msg.version msg.fields = beast.keepAlive raw.version raw.fields) := by
  cases hbad : badTarget raw.target with
  | true =>
    rw [handleRequest_bad hbad] at h ⊢
    obtain rfl : badRequest beast raw "Illegal request-target".toList = msg :=
      List.singleton_inj.mp h
    obtain ⟨hkeep, hneed⟩ := badRequest_keepAlive beast raw "Illegal request-target".toList
    exact ⟨hneed, iff_of_true (Or.inl hbad) ⟨⟨true, rfl⟩, hkeep⟩⟩
  | false =>
    rw [handleRequest_good hbad] at h ⊢
    obtain ⟨hkeep, hneed⟩ := routed_keepAlive h
    refine ⟨hneed, ?_⟩
    rw [KeepsPersistence, hkeep, (routed_mirrors env beast t raw).outcome, hbad]
    simp

theorem followsRequests_cons {rest : List StrRequest} {after : List Io} :
    FollowsRequests beast (raw :: rest) (.read raw :: .wrote msg :: after) ↔
      beast.keepAlive msg.version msg.fields = beast.keepAlive raw.version raw.fields ∧
        if beast.keepAlive raw.version raw.fields then FollowsRequests beast rest after
        else after = [.shutdown] := by
  rw [FollowsRequests]
  constructor
  · intro h
    obtain ⟨msg', after', hlog, h⟩ := h
    obtain ⟨rfl, rfl⟩ : msg = msg' ∧ after = after' := by simpa using hlog
    exact h
  · intro h
    exact ⟨msg, after, rfl, h⟩

theorem not_followsRequests_singleton (requests : List StrRequest) (io : Io) :
    ¬FollowsRequests beast requests [io] := by
  cases requests with
  | nil => exact List.cons_ne_nil _ _
  | cons raw rest =>
    intro h
    obtain ⟨msg, after, hlog, -⟩ := h
    exact absurd (congrArg List.length hlog) (by simp)

theorem not_followsRequests_stop {requests : List StrRequest} {io : Io} (h : io ≠ .shutdown) :
    ¬FollowsRequests beast (raw :: requests) [.read raw, .wrote msg, io] := by
  intro hfollows
  have hafter := (followsRequests_cons.mp hfollows).2
  split_ifs at hafter
  · exact not_followsRequests_singleton _ _ hafter
  · exact h (List.singleton_inj.mp hafter)

theorem sessionLoop_follows_iff (close : Bool) (requests : List StrRequest)
    (h : ∀ raw ∈ attended beast requests,
      (handleRequest beast (t.routable env) raw).writes.length = 1) :
    FollowsRequests beast requests (sessionLoop beast (t.routable env) close requests) ↔
      ∀ raw ∈ attended beast requests, KeepsPersistence beast (t.routable env) raw := by
  induction requests generalizing close with
  | nil => simp [FollowsRequests, sessionLoop, attended]
  | cons raw rest ih =>
    obtain ⟨msg, hmsg⟩ := List.length_eq_one_iff.mp (h raw List.mem_cons_self)
    obtain ⟨hneed, hkeeps⟩ := handleRequest_keepsPersistence_iff hmsg
    rw [attended, List.forall_mem_cons, hkeeps, sessionLoop, hmsg]
    simp only [List.map_cons, List.map_nil, closeAfter, List.foldl_cons, List.foldl_nil, hneed]
    cases ho : (handleRequest beast (t.routable env) raw).outcome with
    | aborted => exact iff_of_false (not_followsRequests_stop (by simp)) (by simp)
    | threw => exact iff_of_false (not_followsRequests_stop (by simp)) (by simp)
    | returned res =>
      apply followsRequests_cons.trans
      cases hkeep : beast.keepAlive raw.version raw.fields with
      | false => simp +contextual
      | true =>
        have hrest := ih false fun raw' hmem => h raw' (by simp [attended, hkeep, hmem])
        simp +contextual [hrest]

/-- A session follows the persistence of its requests exactly when the target of each is turned
away, or the version and the route's own `Connection` field ask for what the request asks. -/
theorem doSession_follows_iff (env : Env) (beast : Beast) (t : Tree)
    (requests : List StrRequest)
    (h : ∀ raw ∈ attended beast requests,
      (handleRequest beast (t.routable env) raw).writes.length = 1) :
    FollowsRequests beast requests (doSession beast (t.routable env) requests) ↔
      ∀ raw ∈ attended beast requests, KeepsPersistence beast (t.routable env) raw :=
  sessionLoop_follows_iff false requests h

/-- Of these requests the first keeps the connection, and the second, of HTTP/1.0, closes it. -/
def lastRequests : List StrRequest :=
  [v60Request, { worldRequest with version := .http10 }, v60Request]

theorem doSession_follows_hello :
    let root := (guarded parameterRoute).routable (pcreEnv .debug)
    let log := doSession .reference root lastRequests
    FollowsRequests .reference lastRequests log ∧
      (responses log).map StrResponse.version = [.http11, .http10] := by
  intro root log
  have hone : ∀ raw ∈ attended .reference lastRequests,
      (handleRequest .reference root raw).writes.length = 1 := by
    decide +kernel
  refine ⟨(doSession_follows_iff _ _ _ _ hone).mpr ?_, by decide +kernel⟩
  have hkeep : ∀ raw ∈ attended .reference lastRequests, routedKeepAlive .reference root raw =
      Beast.reference.keepAlive raw.version raw.fields := by
    decide +kernel
  have hreturned : ∀ raw ∈ attended .reference lastRequests,
      (root.call (Request.ofRaw raw) .bare).outcome = .returned true := by
    decide +kernel
  intro raw hraw
  exact Or.inr ⟨⟨true, hreturned raw hraw⟩, hkeep raw hraw⟩

def closingRequest : StrRequest :=
  { getRequest "/hello/v60".toList (by decide) with
    fields := [("Connection".toList, "close".toList)] }

/-- The response to a request that asks to close keeps the connection, and the session reads on. -/
theorem closingRequest_kept :
    (handleRequest .reference ((guarded parameterRoute).routable (pcreEnv .debug))
      closingRequest).writes.length = 1 ∧
    ¬FollowsRequests .reference [closingRequest, closingRequest]
      (doSession .reference ((guarded parameterRoute).routable (pcreEnv .debug))
        [closingRequest, closingRequest]) := by
  have hanswered : (handleRequest .reference ((guarded parameterRoute).routable (pcreEnv .debug))
      closingRequest).writes.length = 1 := by decide +kernel
  refine ⟨hanswered, fun hfollows => ?_⟩
  have hkeeps := (sessionLoop_follows_iff false [closingRequest, closingRequest]
    fun raw hraw => by
      obtain rfl : raw = closingRequest := by simpa using mem_of_mem_attended hraw
      exact hanswered).mp hfollows closingRequest List.mem_cons_self
  rcases hkeeps with hbad | ⟨-, hkeep⟩
  · exact absurd hbad (by decide +kernel)
  · exact absurd hkeep (by decide +kernel)

end Session

end V60
