import V60.GuardedDispatch

/-!
# Every request is answered

A `cookie_parser` that finds no `Cookie` header returns false without a word,
and nobody above it takes that for anything but an answer. For requests that do
not come to such a parser the session answers each before it reads the next or
ends.
-/

namespace V60

namespace Tree

mutual

/-- The way of a request through the tree, on each group to the first route that matches, passes
a `cookie_parser`. -/
def meetsCookieParser (env : Env) (v : Verb) (path : List Char) : Tree → List Char → Bool
  | .endPoint .., _ => false
  | .binding pattern next, input =>
    match env.ctre.startsWith (re pattern) input with
    | none => false
    | some m => next.meetsCookieParser env v path (input.drop m.len)
  | .group routes, input => routesMeet env v path routes input
  | .use mw next, input =>
    match mw with
    | .cookieParser _ => true
    | .notFound => (next.routable env).isMatch v path && next.meetsCookieParser env v path input
    | .logging | .profile | .serverFault | .objectBody _ =>
      next.meetsCookieParser env v path input

def routesMeet (env : Env) (v : Verb) (path : List Char) : List Tree → List Char → Bool
  | [], _ => false
  | t :: ts, input =>
    if (t.routable env).isMatch v input then t.meetsCookieParser env v path input
    else routesMeet env v path ts input

end

def KeepsCookies (env : Env) (t : Tree) (req : Request) : Prop :=
  (req.header "Cookie".toList).isSome = true ∨
    t.meetsCookieParser env req.method req.path req.remaining = false

end Tree

def Run.Speaks (r : Run) : Prop := r.writes ≠ [] ∨ r.outcome = .threw

theorem Run.Speaks.after {r : Run} (h : r.Speaks) (events : List Event) :
    (r.after events).Speaks := by
  rcases h with h | h
  · exact Or.inl (by simp [h])
  · exact Or.inr h

theorem Run.Speaks.writes {r rest : Run} (h : r.Speaks) (ho : r.outcome ≠ .threw) :
    (rest.after r.events).Speaks := by
  have hwrites := h.resolve_right ho
  refine Or.inl fun hnil => hwrites ?_
  rw [Run.writes_after] at hnil
  exact (List.append_eq_nil_iff.mp hnil).1

theorem Run.Speaks.answered {r : Run} (h : r.Speaks) {resp : Response}
    (hresp : resp.sender = true) : (r.orElse (answerFault resp)).writes ≠ [] := by
  by_cases ho : r.outcome = .threw
  · rw [Run.orElse_threw ho, answerFault_sends hresp, Run.writes_after]
    simp [Run.writes, Run.wrote?]
  · rw [Run.orElse_of_ne ho]
    exact h.resolve_right ho

theorem Handler.run_speaks {h : Handler} (hh : h.Behaves) (verb : Verb) (req : Request)
    {resp : Response} (hresp : resp.sender = true) : (h.run verb req resp).Speaks := by
  rcases hh req with hs | hs
  · obtain ⟨sent, hsent⟩ := run_answers verb hs hresp
    exact Or.inl (by simp [hsent, Run.writes, Run.wrote?])
  · exact Or.inr (by rw [run_fails verb resp hs])

namespace Tree

/-- On a matched request that keeps clear of declining parsers, the tree answers or throws. -/
def SpeaksUp (env : Env) (t : Tree) : Prop :=
  ∀ req resp, resp.sender = true → (t.routable env).isMatch req.method req.remaining = true →
    t.KeepsCookies env req → ((t.routable env).call req resp).Speaks

variable {env : Env}

theorem binding_speaksUp {next : Tree} (hnext : next.SpeaksUp env) (path : List Char) :
    (Tree.binding path next).SpeaksUp env := by
  intro req resp hresp hmatch hcookies
  cases hm : env.ctre.startsWith (re path) req.remaining with
  | none =>
    rw [routable, binding_isMatch_none hm] at hmatch
    exact absurd hmatch Bool.false_ne_true
  | some m =>
    rw [routable, binding_isMatch_some hm] at hmatch
    rw [routable, binding_call resp hm hmatch]
    apply hnext (bindRequest env path m req) resp hresp hmatch
    rw [KeepsCookies, meetsCookieParser] at hcookies
    simp only [hm] at hcookies
    exact hcookies

theorem group_speaksUp {routes : List Tree} (hroutes : ∀ t ∈ routes, t.SpeaksUp env) :
    (Tree.group routes).SpeaksUp env := by
  intro req resp hresp hmatch hcookies
  simp only [routable, routables_eq, V60.group] at hmatch ⊢
  rw [KeepsCookies, meetsCookieParser] at hcookies
  induction routes with
  | nil => simp at hmatch
  | cons t ts ih =>
    rw [List.map_cons] at hmatch ⊢
    rw [routesMeet] at hcookies
    cases hm : (t.routable env).isMatch req.method req.remaining with
    | false =>
      rw [List.any_cons, hm, Bool.false_or] at hmatch
      rw [hm, if_neg Bool.false_ne_true] at hcookies
      rw [groupCall_skip _ hm]
      exact ih (fun t hmem => hroutes t (List.mem_cons_of_mem _ hmem)) hcookies hmatch
    | true =>
      rw [hm, if_pos rfl] at hcookies
      have hhead := hroutes t List.mem_cons_self req resp hresp hm hcookies
      by_cases ho : ((t.routable env).call req resp).outcome = .returned false
      · rw [groupCall_decline _ hm ho]
        exact hhead.writes (by simp [ho])
      · rw [groupCall_take _ hm ho]
        exact hhead

theorem use_speaksUp {next : Tree} (hnext : next.SpeaksUp env) (mw : Mw) :
    (Tree.use mw next).SpeaksUp env := by
  intro req resp hresp hmatch hcookies
  cases mw with
  | logging => exact hnext req resp hresp hmatch hcookies
  | profile => exact hnext req resp hresp hmatch hcookies
  | notFound =>
    simp only [routable, V60.use, Mw.call]
    cases hfull : (next.routable env).isMatch req.method req.path with
    | true =>
      rw [notFoundMw_match resp hfull]
      simp only [KeepsCookies, meetsCookieParser, hfull, Bool.true_and] at hcookies
      exact hnext req resp hresp hmatch hcookies
    | false =>
      rw [notFoundMw_miss hresp hfull]
      exact Or.inl (by simp [Run.writes, Run.wrote?])
  | serverFault => exact Or.inl ((hnext req resp hresp hmatch hcookies).answered hresp)
  | cookieParser keys =>
    have hsome : (req.header "Cookie".toList).isSome = true :=
      hcookies.resolve_right Bool.noConfusion
    obtain ⟨header, hheader⟩ := Option.isSome_iff_exists.mp hsome
    simp only [routable, V60.use, Mw.call]
    rw [cookieParserMw_some resp hheader]
    exact hnext _ resp hresp hmatch (Or.inl hsome)
  | objectBody keys =>
    simp only [routable, V60.use, Mw.call]
    cases hbody : req.body with
    | object body =>
      rw [objectBodyMw_object resp hbody]
      exact hnext req resp hresp hmatch hcookies
    | text text =>
      cases hread : env.simdjson keys text with
      | none =>
        rw [objectBodyMw_failed resp hbody hread]
        exact Or.inr rfl
      | some body =>
        rw [objectBodyMw_read resp hbody hread]
        exact hnext (req.withBody (.object body)) resp hresp hmatch hcookies

theorem speaksUp {t : Tree} (ht : t.All (fun _ => True) Handler.Behaves) : t.SpeaksUp env := by
  induction t using Tree.induct with
  | endPoint method fn =>
    intro req resp hresp _ _
    rw [routable, endPoint_call]
    exact Handler.run_speaks ht method req hresp
  | binding path next ih => exact binding_speaksUp (ih ht) path
  | group routes ih =>
    rw [All, allRoutes_iff] at ht
    exact group_speaksUp fun t hmem => ih t hmem (ht t hmem)
  | use mw next ih => exact use_speaksUp (ih ht.2) mw

end Tree

/-- The request never gets to a `cookie_parser` that misses its header. -/
def Undeclined (env : Env) (t : Tree) (raw : StrRequest) : Prop :=
  badTarget raw.target = true ∨ (t.routable env).isMatch raw.method raw.target = false ∨
    t.KeepsCookies env (Request.ofRaw raw)

theorem handleRequest_answers (env : Env) (beast : Beast) {t : Tree}
    (ht : t.All (fun _ => True) Handler.Behaves) {raw : StrRequest} (h : Undeclined env t raw) :
    (handleRequest beast ((guarded t).routable env) raw).writes ≠ [] := by
  cases hbad : badTarget raw.target with
  | true =>
    rw [handleRequest_bad hbad]
    simp [Run.writes, Run.wrote?]
  | false =>
    rw [handleRequest_good hbad]
    cases hm : (t.routable env).isMatch raw.method raw.target with
    | false =>
      rw [guarded_miss (Request.ofRaw raw) rfl (freshResponse_sender beast raw) hm]
      simp [Run.writes, Run.wrote?]
    | true =>
      rw [guarded_match (Request.ofRaw raw) rfl hm]
      have hcookies : t.KeepsCookies env (Request.ofRaw raw) :=
        (h.resolve_left (by simp [hbad])).resolve_left (by simp [hm])
      exact (Tree.speaksUp ht (Request.ofRaw raw) _ (freshResponse_sender beast raw) hm
        hcookies).answered (freshResponse_sender beast raw)

/-- After each read there is a write before anything else; `pending` says that a request waits for
one, which it must not when the log ends. -/
def answersReads (pending : Bool) : List Io → Bool
  | [] => !pending
  | .read _ :: log => !pending && answersReads true log
  | .wrote _ :: log => answersReads false log
  | .shutdown :: log | .failed :: log | .aborted :: log => !pending && answersReads false log

theorem answersReads_writes {writes : List StrResponse} (h : writes ≠ []) (pending : Bool)
    {log : List Io} (hlog : answersReads false log = true) :
    answersReads pending (writes.map Io.wrote ++ log) = true := by
  induction writes generalizing pending with
  | nil => exact absurd rfl h
  | cons w ws ih =>
    cases ws with
    | nil => exact hlog
    | cons w' ws => exact ih (List.cons_ne_nil _ _) false

theorem sessionLoop_answers (env : Env) (beast : Beast) {t : Tree}
    (ht : t.All (fun _ => True) Handler.Behaves) (close : Bool) (requests : List StrRequest)
    (h : ∀ raw, .read raw ∈ sessionLoop beast ((guarded t).routable env) close requests →
      Undeclined env t raw) :
    answersReads false (sessionLoop beast ((guarded t).routable env) close requests) = true := by
  induction requests generalizing close with
  | nil => rfl
  | cons raw rest ih =>
    rw [sessionLoop] at h ⊢
    have hraw := handleRequest_answers env beast ht (h raw (List.mem_cons_self ..))
    apply answersReads_writes hraw true
    cases ho : (handleRequest beast ((guarded t).routable env) raw).outcome with
    | aborted => rfl
    | threw => rfl
    | returned res =>
      simp only [ho] at h ⊢
      split_ifs at h ⊢
      · rfl
      · exact ih _ fun raw' hread => h raw' (by simp [hread])

theorem mem_requests_of_read {beast : Beast} {root : Routable} {close : Bool}
    {requests : List StrRequest} {raw : StrRequest}
    (h : .read raw ∈ sessionLoop beast root close requests) : raw ∈ requests := by
  induction requests generalizing close with
  | nil => simp [sessionLoop] at h
  | cons first rest ih =>
    rw [sessionLoop] at h
    rcases List.mem_cons.mp h with hfirst | hlater
    · exact List.mem_cons.mpr (Or.inl (Io.read.inj hfirst))
    · apply List.mem_cons_of_mem
      rcases List.mem_append.mp hlater with hwrite | hafter
      · simp at hwrite
      · cases ho : (handleRequest beast root first).outcome with
        | aborted => simp [ho] at hafter
        | threw => simp [ho] at hafter
        | returned res =>
          simp only [ho] at hafter
          split_ifs at hafter
          · simp at hafter
          · exact ih hafter

/-- In a session whose requests keep clear of declining parsers, each request is answered before
the next one is read, and the last one before the session ends. -/
theorem every_request_answered (env : Env) (beast : Beast) {t : Tree}
    (ht : t.All (fun _ => True) Handler.Behaves) (requests : List StrRequest)
    (h : ∀ raw, .read raw ∈ doSession beast ((guarded t).routable env) requests →
      Undeclined env t raw) :
    answersReads false (doSession beast ((guarded t).routable env) requests) = true :=
  sessionLoop_answers env beast ht false requests h

def cookieRoute : Tree :=
  .use (.cookieParser ["name".toList]) (.getAt "/hello".toList helloHandler)

theorem cookieRoute_all : cookieRoute.All (fun _ => True) Handler.Behaves :=
  ⟨trivial, fun _ => Or.inl ⟨rfl, rfl⟩⟩

def cookieRequest : StrRequest :=
  { getRequest "/hello".toList (by decide) with
    fields := [("Cookie".toList, "name=v60".toList)] }

theorem every_request_answered_cookie :
    answersReads false (doSession .reference ((guarded cookieRoute).routable (pcreEnv .debug))
      [cookieRequest, cookieRequest]) = true := by
  apply every_request_answered (pcreEnv .debug) .reference cookieRoute_all
  intro raw hread
  have hraw : raw = cookieRequest := by
    simpa using mem_requests_of_read hread
  subst hraw
  exact Or.inr (Or.inr (Or.inl (by decide)))

theorem cookieRoute_unanswered :
    answersReads false (doSession .reference ((guarded cookieRoute).routable (pcreEnv .debug))
      [getRequest "/hello".toList (by decide), getRequest "/hello".toList (by decide)]) =
        false := by
  decide +kernel

end V60
