import V60.RouteTable
import V60.Server

/-!
# Dispatch of a whole request

Behind `server_fault_mw` and `not_found_mw` every admitted request runs the
entry of the route table that accepts it, or gets a 404. Without them the root
route is called unasked, and only a root that is a group or that matches keeps
end points and bindings inside what they assume.
-/

namespace V60

def Call.sends : Call → Bool
  | .send _ | .json _ => true
  | .status _ | .header .. | .contentType _ => false

def Script.Answers (s : Script) : Prop := s.throws = false ∧ s.calls.countP Call.sends = 1

def Script.Fails (s : Script) : Prop := s.throws = true ∧ s.calls.countP Call.sends = 0

def Handler.Behaves (h : Handler) : Prop := ∀ req, (h.script req).Answers ∨ (h.script req).Fails

namespace Response

theorem perform_silent {throws : Bool} {calls : List Call} (h : calls.countP Call.sends = 0)
    (r : Response) : r.perform throws calls = if throws then .failed else .done true := by
  induction calls generalizing r with
  | nil => rfl
  | cons call calls ih =>
    cases call with
    | status code => exact ih (by simpa [Call.sends] using h) _
    | header key value => exact ih (by simpa [Call.sends] using h) _
    | contentType type => exact ih (by simpa [Call.sends] using h) _
    | send data => simp [Call.sends] at h
    | json data => simp [Call.sends] at h

theorem perform_once (throws : Bool) {calls : List Call} (h : calls.countP Call.sends = 1)
    {r : Response} (hr : r.sender = true) :
    ∃ resp, r.perform throws calls =
      (if throws then Run.failed else .done true).after [.wrote resp] := by
  induction calls generalizing r with
  | nil => simp at h
  | cons call calls ih =>
    cases call with
    | status code => exact ih (by simpa [Call.sends] using h) hr
    | header key value => exact ih (by simpa [Call.sends] using h) hr
    | contentType type => exact ih (by simpa [Call.sends] using h) hr
    | send data =>
      have hrest : calls.countP Call.sends = 0 := by
        rw [List.countP_cons_of_pos rfl] at h
        omega
      exact ⟨r.message data, by rw [perform, send_alive hr, perform_silent hrest]⟩
    | json data =>
      have hrest : calls.countP Call.sends = 0 := by
        rw [List.countP_cons_of_pos rfl] at h
        omega
      exact ⟨(r.contentType "application/json".toList).message data, by
        rw [perform, send_alive (r := r.contentType _) hr, perform_silent hrest]⟩

end Response

namespace Handler

variable {h : Handler} {req : Request} {resp : Response}

theorem run_answers (verb : Verb) (hs : (h.script req).Answers) (hresp : resp.sender = true) :
    ∃ r, h.run verb req resp = ⟨[.ran verb h.name req, .wrote r], .returned true⟩ := by
  obtain ⟨r, hr⟩ := Response.perform_once (h.script req).throws hs.2 hresp
  refine ⟨r, ?_⟩
  rw [run, hr, hs.1]
  rfl

theorem run_fails (verb : Verb) (resp : Response) (hs : (h.script req).Fails) :
    h.run verb req resp = ⟨[.ran verb h.name req], .threw⟩ := by
  rw [run, Response.perform_silent hs.2, hs.1]
  rfl

end Handler

theorem Tree.All.mono {p p' : Mw → Prop} {q q' : Handler → Prop} (hp : ∀ mw, p mw → p' mw)
    (hq : ∀ h, q h → q' h) {t : Tree} (ht : t.All p q) : t.All p' q' := by
  induction t using Tree.induct with
  | endPoint method fn => exact hq fn ht
  | binding path next ih => exact ih ht
  | group routes ih =>
    rw [Tree.All, Tree.allRoutes_iff] at ht ⊢
    exact fun t hmem => ih t hmem (ht t hmem)
  | use mw next ih => exact ⟨hp mw ht.1, ih ht.2⟩

theorem Tree.All.entry {p : Mw → Prop} {q : Handler → Prop} {t : Tree} (ht : t.All p q)
    {e : Entry} (he : e ∈ t.entries) : q e.handler := by
  induction t using Tree.induct generalizing e with
  | endPoint method fn =>
    obtain rfl : e = ⟨[], method, fn⟩ := by simpa [Tree.entries] using he
    exact ht
  | binding path next ih =>
    rw [Tree.entries, List.mem_map] at he
    obtain ⟨e', he', rfl⟩ := he
    have hq : q e'.handler := ih ht he'
    exact hq
  | group routes ih =>
    rw [Tree.All, Tree.allRoutes_iff] at ht
    rw [Tree.entries, Tree.routesEntries_eq, List.mem_flatMap] at he
    obtain ⟨t, hmem, het⟩ := he
    exact ih t hmem (ht t hmem) het
  | use mw next ih => exact ih ht.2 he

section Guarded

variable {env : Env} {t : Tree} (req : Request) {resp : Response}

theorem guarded_miss (hreq : req.remaining = req.path) (hresp : resp.sender = true)
    (h : (t.routable env).isMatch req.method req.remaining = false) :
    ((guarded t).routable env).call req resp =
      ⟨[.wrote ((resp.status 404).message ("Not found: ".toList ++ req.path))],
        .returned false⟩ := by
  rw [hreq] at h
  have hnext : notFoundMw (t.routable env) req resp = _ := notFoundMw_miss hresp h
  simp only [guarded, Tree.routable, use, Mw.call, serverFaultMw, hnext]
  exact Run.orElse_of_ne (by simp) _

theorem guarded_match (hreq : req.remaining = req.path)
    (h : (t.routable env).isMatch req.method req.remaining = true) :
    ((guarded t).routable env).call req resp =
      ((t.routable env).call req resp).orElse (answerFault resp) := by
  rw [hreq] at h
  simp only [guarded, Tree.routable, use, Mw.call, serverFaultMw, notFoundMw_match resp h]

end Guarded

/-! ## The guarded root -/

/-- What the run of the one handler makes of the request: its own response, or a 500. -/
def AnsweredBy (e : Entry) (req : Request) (resp : Response) (sent : StrResponse) : Prop :=
  ((e.handler.script req).Answers ∧ (e.handler.run e.verb req resp).writes = [sent]) ∨
    ((e.handler.script req).Fails ∧ sent.result = 500)

theorem Entry.run_orElse {env : Env} {e : Entry} (req : Request) {resp : Response}
    (he : e.handler.Behaves) (hresp : resp.sender = true)
    (h : e.accepts env.ctre req.method req.remaining = true) :
    let run := (e.run env req resp).orElse (answerFault resp)
    run.outcome ≠ .aborted ∧ ∃ req' sent, descend env e.chain req = some req' ∧
      req'.remaining = [] ∧ run.handlers = [(e.verb, e.handler.name, req')] ∧
      run.writes = [sent] ∧ AnsweredBy e req' resp sent := by
  obtain ⟨req', hreq', hrem, -⟩ := descend_of_accepts h
  have hrun : e.run env req resp = e.handler.run e.verb req' resp := by rw [run, hreq']
  rw [hrun]
  rcases he req' with hs | hs
  · obtain ⟨sent, hsent⟩ := Handler.run_answers e.verb hs hresp
    rw [Run.orElse_of_ne (by simp [hsent])]
    refine ⟨by simp [hsent], req', sent, hreq', hrem, Handler.run_handlers _ _ _ _, ?_,
      Or.inl ⟨hs, ?_⟩⟩ <;> rw [hsent] <;> rfl
  · have hfail := Handler.run_fails e.verb resp hs
    rw [Run.orElse_threw (by rw [hfail]), answerFault_sends hresp]
    refine ⟨by simp, req', _, hreq', hrem, ?_, by rw [hfail]; rfl, Or.inr ⟨hs, rfl⟩⟩
    rw [hfail]
    rfl

/-- Behind the two guards a request runs the first entry that accepts it, once, on an empty
remaining path, and gets exactly one response; a request without an entry gets a 404. -/
theorem guarded_dispatch (env : Env) (beast : Beast) {t : Tree}
    (ht : t.All Mw.Passes Handler.Behaves) (raw : StrRequest)
    (hraw : badTarget raw.target = false) :
    let run := handleRequest beast ((guarded t).routable env) raw
    let matched := (t.routable env).isMatch raw.method raw.target
    run.outcome ≠ .aborted ∧
      (matched = false → run.handlers = [] ∧ ∃ sent, run.writes = [sent] ∧ sent.result = 404) ∧
      (matched = true → ∃ e req sent, t.lookup env.ctre raw.method raw.target = some e ∧
        Entry.descend env e.chain (Request.ofRaw raw) = some req ∧ req.remaining = [] ∧
        run.handlers = [(e.verb, e.handler.name, req)] ∧ run.writes = [sent] ∧
        AnsweredBy e req (freshResponse beast raw) sent) := by
  intro run matched
  have hrun : run = ((guarded t).routable env).call (Request.ofRaw raw)
      (freshResponse beast raw) := handleRequest_good hraw
  cases hm : matched with
  | false =>
    rw [guarded_miss (Request.ofRaw raw) rfl (freshResponse_sender beast raw) hm] at hrun
    refine ⟨by simp [hrun], fun _ => ?_, by simp⟩
    rw [hrun]
    exact ⟨rfl, _, rfl, rfl⟩
  | true =>
    have hlookup := hm
    simp only [matched, Tree.isMatch_eq, Option.isSome_iff_exists] at hlookup
    obtain ⟨e, he⟩ := hlookup
    have hcall := Tree.call_eq (ht.mono (fun _ h => h) fun _ _ => trivial) (Request.ofRaw raw)
      (freshResponse beast raw) he
    rw [guarded_match (Request.ofRaw raw) rfl hm, hcall] at hrun
    have hbehaves : e.handler.Behaves := ht.entry (List.mem_of_find?_eq_some he)
    obtain ⟨habort, req, sent, h⟩ := Entry.run_orElse (Request.ofRaw raw) hbehaves
      (freshResponse_sender beast raw) (Tree.lookup_accepts he)
    rw [← hrun] at habort h
    exact ⟨habort, by simp, fun _ => ⟨e, req, sent, he, h⟩⟩

def helloHandler : Handler :=
  ⟨0, fun req => ⟨[.send ("Hello from v60, ".toList ++ (req.params.get "name".toList).getD [])],
    false⟩⟩

def parameterRoute : Tree := .getAt "/hello/:name".toList helloHandler

def pcreEnv (build : Build) : Env := ⟨Ctre.pcre, build, fun _ _ => none⟩

def getRequest (target : List Char) (h : target.length < 0x80000000) : StrRequest :=
  ⟨.get, target, .http11, [], [], h⟩

theorem world_lt : "/hello/world".toList.length < 0x80000000 := by decide

theorem v60_lt : "/hello/v60".toList.length < 0x80000000 := by decide

theorem page_lt : "/page".toList.length < 0x80000000 := by decide

def worldRequest : StrRequest := getRequest "/hello/world".toList world_lt

def v60Request : StrRequest := getRequest "/hello/v60".toList v60_lt

def pageRequest : StrRequest := getRequest "/page".toList page_lt

theorem parameterRoute_all : parameterRoute.All Mw.Passes Handler.Behaves :=
  fun _ => Or.inl ⟨rfl, rfl⟩

theorem guarded_dispatch_hello :
    let raw := getRequest "/hello/world".toList (by decide)
    ∃ e req sent, parameterRoute.lookup Ctre.pcre .get "/hello/world".toList = some e ∧
      Entry.descend (pcreEnv .debug) e.chain (Request.ofRaw raw) = some req ∧
      req.remaining = [] ∧
      (handleRequest .reference ((guarded parameterRoute).routable (pcreEnv .debug)) raw).handlers =
        [(e.verb, e.handler.name, req)] ∧
      (handleRequest .reference ((guarded parameterRoute).routable (pcreEnv .debug)) raw).writes =
        [sent] ∧
      AnsweredBy e req (freshResponse .reference raw) sent :=
  (guarded_dispatch (pcreEnv .debug) .reference parameterRoute_all
    (getRequest "/hello/world".toList (by decide)) (by decide)).2.2 (by decide +kernel)

/-! ## A root called unasked -/

def Tree.rootIsGroup : Tree → Bool
  | .endPoint .. | .binding .. => false
  | .group _ => true
  | .use _ next => next.rootIsGroup

/-- No assertion failed, and every handler ran for its own verb on an empty path. -/
def Run.InBounds (r : Run) : Prop :=
  r.outcome ≠ .aborted ∧ ∀ x ∈ r.handlers, x.1 = x.2.2.method ∧ x.2.2.remaining = []

theorem Entry.run_inBounds {env : Env} {e : Entry} {req : Request} (resp : Response)
    (h : e.accepts env.ctre req.method req.remaining = true) :
    (e.run env req resp).InBounds := by
  obtain ⟨req', hreq', hrem, hmethod⟩ := descend_of_accepts h
  have hrun : e.run env req resp = e.handler.run e.verb req' resp := by rw [run, hreq']
  rw [hrun, Run.InBounds, Handler.run_handlers]
  refine ⟨?_, by simp [hrem, hmethod]⟩
  rcases e.handler.run_outcome e.verb req' resp with ho | ho <;> simp [ho]

theorem Tree.inBounds_of_match {env : Env} {t : Tree} (ht : t.All Mw.Passes fun _ => True)
    (req : Request) (resp : Response)
    (h : (t.routable env).isMatch req.method req.remaining = true) :
    ((t.routable env).call req resp).InBounds := by
  rw [Tree.isMatch_eq, Option.isSome_iff_exists] at h
  obtain ⟨e, he⟩ := h
  rw [Tree.call_eq ht req resp he]
  exact e.run_inBounds resp (Tree.lookup_accepts he)

theorem Tree.inBounds_of_rootIsGroup {env : Env} {t : Tree} (ht : t.All Mw.Passes fun _ => True)
    (hroot : t.rootIsGroup = true) (req : Request) (resp : Response) :
    ((t.routable env).call req resp).InBounds := by
  cases hm : (t.routable env).isMatch req.method req.remaining with
  | true => exact t.inBounds_of_match ht req resp hm
  | false =>
    induction t using Tree.induct with
    | endPoint method fn => simp [Tree.rootIsGroup] at hroot
    | binding path next ih => simp [Tree.rootIsGroup] at hroot
    | group routes ih =>
      have hcall : ((Tree.group routes).routable env).call req resp = .done false := by
        rw [Tree.routable]
        exact groupCall_none hm
      rw [hcall]
      exact ⟨by simp [Run.done], by simp [Run.done, Run.handlers]⟩
    | use mw next ih =>
      rw [Tree.call_use ht.1]
      exact ih ht.2 hroot hm

theorem Tree.not_inBounds {env : Env} (hasserts : env.build.asserts = true) {t : Tree}
    (ht : t.All Mw.Passes fun _ => True) (hroot : t.rootIsGroup = false) (req : Request)
    (resp : Response) (hm : (t.routable env).isMatch req.method req.remaining = false) :
    ¬((t.routable env).call req resp).InBounds := by
  induction t using Tree.induct with
  | endPoint method fn =>
    intro h
    obtain ⟨-, hin⟩ := h
    rw [Tree.routable, endPoint_call, Handler.run_handlers] at hin
    obtain ⟨hmethod, hrem⟩ : method = req.method ∧ req.remaining = [] :=
      hin _ List.mem_cons_self
    have hmiss : (decide (req.method = method) && req.remaining.isEmpty) = false := hm
    simp [hmethod, hrem] at hmiss
  | binding path next ih =>
    intro h
    obtain ⟨habort, -⟩ := h
    exact habort (by rw [Tree.routable, binding_call_abort resp hasserts hm]; rfl)
  | group routes ih => simp [Tree.rootIsGroup] at hroot
  | use mw next ih =>
    rw [Tree.call_use ht.1]
    exact ih ht.2 hroot hm

/-- A root without `not_found_mw` keeps its assumptions in every build exactly when it is a group
or the request matches. -/
theorem unguarded_inBounds_iff (env : Env) (beast : Beast) {t : Tree}
    (ht : t.All Mw.Passes fun _ => True) (raw : StrRequest)
    (hraw : badTarget raw.target = false) :
    (∀ build, (handleRequest beast (t.routable { env with build := build }) raw).InBounds) ↔
      t.rootIsGroup = true ∨ (t.routable env).isMatch raw.method raw.target = true := by
  have hmatch : ∀ build, (t.routable { env with build := build }).isMatch raw.method raw.target =
      (t.routable env).isMatch raw.method raw.target := fun build => by
    rw [Tree.isMatch_eq, Tree.isMatch_eq]
  simp only [handleRequest_good hraw]
  constructor
  · intro hall
    cases hroot : t.rootIsGroup with
    | true => exact Or.inl rfl
    | false =>
      apply Or.inr
      cases hm : (t.routable env).isMatch raw.method raw.target with
      | true => rfl
      | false =>
        have hdebug : (t.routable { env with build := .debug }).isMatch raw.method raw.target =
            false := (hmatch .debug).trans hm
        exact absurd (hall .debug) (Tree.not_inBounds rfl ht hroot (Request.ofRaw raw) _ hdebug)
  · intro h build
    rcases h with hroot | hm
    · exact t.inBounds_of_rootIsGroup ht hroot _ _
    · exact t.inBounds_of_match ht (Request.ofRaw raw) _ ((hmatch build).trans hm)

theorem unguarded_inBounds_group :
    (handleRequest .reference ((Tree.group [parameterRoute]).routable (pcreEnv .release))
      (getRequest "/x".toList (by decide))).InBounds :=
  (unguarded_inBounds_iff (pcreEnv .debug) .reference (t := .group [parameterRoute])
    ⟨trivial, trivial⟩ (getRequest "/x".toList (by decide)) (by decide)).mpr (Or.inl rfl) .release

/-- The parameter example on `GET /x`: the assertion of its binding fails; an end point as the
root runs its handler on the whole path. -/
theorem unguarded_out_of_bounds :
    let raw := getRequest "/x".toList (by decide)
    badTarget raw.target = false ∧
      (handleRequest .reference (parameterRoute.routable (pcreEnv .debug)) raw).outcome = .aborted ∧
      (handleRequest .reference ((Tree.get helloHandler).routable
        (pcreEnv .release)) raw).handlers.map (fun x => x.2.2.remaining) = ["/x".toList] := by
  decide +kernel

end V60
