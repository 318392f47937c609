import V60.GuardedDispatch

/-!
# How often a request is answered

`Tree.ending` says of a tree and a request what a caller can see of the run
without its texts: whether it answers, how it ends, and whether a
`server_fault_mw` that still holds a copy of the response catches the exception
of a route that has answered. `Tree.endsRight` relates it to the run itself.
-/

namespace V60

structure Ending where
  answered : Bool
  outcome : Outcome
  /-- an exception was caught after an answer -/
  doubled : Bool
  deriving DecidableEq

namespace Ending

def silent (outcome : Outcome) : Ending := ⟨false, outcome, false⟩

def refusal (live : Bool) : Ending :=
  if live then ⟨true, .returned false, false⟩ else silent .threw

/-- What `server_fault_mw` makes of the ending of its route. -/
def caught (live : Bool) (e : Ending) : Ending :=
  if e.outcome = .threw then
    ⟨e.answered || live, if live then .returned false else .threw,
      e.doubled || (live && e.answered)⟩
  else e

def orElse (e rest : Ending) : Ending :=
  if e.outcome = .returned false then
    ⟨e.answered || rest.answered, rest.outcome, e.doubled || rest.doubled⟩
  else e

end Ending

def Script.ending (s : Script) (live : Bool) : Ending :=
  if s.calls.any Call.sends && !live then .silent .threw
  else ⟨s.calls.any Call.sends, if s.throws then .threw else .returned true, false⟩

namespace Tree

mutual

def ending (env : Env) : Tree → Bool → Request → Ending
  | .endPoint _ fn, live, req => (fn.script req).ending live
  | .binding path next, live, req =>
    match bindStep env path (next.routable env).isMatch req with
    | .ok req => next.ending env live req
    | .error outcome => .silent outcome
  | .group routes, live, req => routesEnding env routes live req
  | .use mw next, live, req =>
    match mw with
    | .logging | .profile => next.ending env live req
    | .notFound =>
      if (next.routable env).isMatch req.method req.path then next.ending env live req
      else .refusal live
    | .serverFault => (next.ending env live req).caught live
    | .cookieParser keys =>
      match req.header "Cookie".toList with
      | none => .silent (.returned false)
      | some header =>
        next.ending env live (req.withMixin (cookieObject keys (parseCookies header)))
    | .objectBody keys =>
      match req.body with
      | .object _ => next.ending env live req
      | .text text =>
        match env.simdjson keys text with
        | none => .silent .threw
        | some body => next.ending env live (req.withBody (.object body))

def routesEnding (env : Env) : List Tree → Bool → Request → Ending
  | [], _, _ => .silent (.returned false)
  | t :: ts, live, req =>
    if (t.routable env).isMatch req.method req.remaining then
      (t.ending env live req).orElse (routesEnding env ts false (req.movedFrom env.build))
    else routesEnding env ts live req

end

end Tree

def Handler.SendsAtMostOnce (h : Handler) : Prop :=
  ∀ req, (h.script req).calls.countP Call.sends ≤ 1

/-- A run with this ending. A dead response is never answered. -/
structure Run.EndsAs (r : Run) (live : Bool) (e : Ending) : Prop where
  outcome : r.outcome = e.outcome
  answered : r.writes = [] ↔ e.answered = false
  doubled : r.writes.length ≤ 1 ↔ e.doubled = false
  dead : live = false → r.writes = []

namespace Run

theorem endsAs_silent (outcome : Outcome) (live : Bool) :
    (⟨[], outcome⟩ : Run).EndsAs live (.silent outcome) :=
  ⟨rfl, by simp [writes, Ending.silent], by simp [writes, Ending.silent], fun _ => rfl⟩

theorem endsAs_refusal (resp : Response) (code : ℕ) (data : List Char) :
    ((resp.status code).send data fun _ => .done false).EndsAs resp.sender
      (.refusal resp.sender) := by
  cases h : resp.sender with
  | false =>
    rw [Response.send_dead (r := resp.status code) h]
    exact endsAs_silent .threw false
  | true =>
    rw [Response.send_alive (r := resp.status code) h]
    exact ⟨rfl, by simp [Run.wrote?, Ending.refusal],
      by simp [Run.wrote?, Run.done, writes, Ending.refusal], by simp⟩

theorem EndsAs.caught {r : Run} {e : Ending} {resp : Response} (h : r.EndsAs resp.sender e) :
    (r.orElse (answerFault resp)).EndsAs resp.sender (e.caught resp.sender) := by
  rw [Ending.caught]
  by_cases ho : e.outcome = .threw
  · rw [if_pos ho, orElse_threw (h.outcome.trans ho)]
    cases hresp : resp.sender with
    | false =>
      have hnone := h.dead hresp
      rw [answerFault, Response.send_dead (r := resp.status 500) hresp]
      rw [writes] at hnone
      have hanswered := h.answered.mp hnone
      have hdoubled : e.doubled = false := h.doubled.mp (by rw [writes, hnone]; simp)
      exact ⟨rfl, by simp [hnone, hanswered, failed, writes],
        by simp [hnone, hdoubled, failed, writes], fun _ => by simp [hnone, failed, writes]⟩
    | true =>
      rw [answerFault_sends hresp]
      have hwrites : ((⟨[.wrote ((resp.status 500).message "Internal server error!".toList)],
          .returned false⟩ : Run).after r.events).writes =
          r.writes ++ [(resp.status 500).message "Internal server error!".toList] := by
        rw [writes_after]
        rfl
      refine ⟨rfl, by rw [hwrites]; simp, ?_, by simp⟩
      rw [hwrites]
      cases hw : r.writes with
      | nil =>
        have hanswered := h.answered.mp hw
        have hdoubled : e.doubled = false := h.doubled.mp (by simp [hw])
        simp [hanswered, hdoubled]
      | cons w ws =>
        have hanswered : e.answered = true := by
          by_contra hne
          have hnil := h.answered.mpr (by simpa using hne)
          simp [hw] at hnil
        simp [hanswered]
  · rw [if_neg ho, orElse_of_ne (by rwa [h.outcome])]
    exact h

theorem EndsAs.append {r rest : Run} {e e' : Ending} {live : Bool} (h : r.EndsAs live e)
    (hrest : rest.EndsAs false e') (ho : e.outcome = .returned false) :
    (rest.after r.events).EndsAs live (e.orElse e') := by
  have hnil := hrest.dead rfl
  have hwrites : (rest.after r.events).writes = r.writes := by
    rw [writes_after, hnil, List.append_nil]
    rfl
  have hanswered := hrest.answered.mp hnil
  have hdoubled : e'.doubled = false := hrest.doubled.mp (by simp [hnil])
  rw [Ending.orElse, if_pos ho]
  exact ⟨hrest.outcome, by rw [hwrites, h.answered, hanswered, Bool.or_false],
    by rw [hwrites, h.doubled, hdoubled, Bool.or_false], fun hl => by rw [hwrites, h.dead hl]⟩

end Run

theorem Response.perform_dead {throws : Bool} {calls : List Call}
    (h : calls.any Call.sends = true) {r : Response} (hr : r.sender = false) :
    r.perform throws calls = .failed := by
  induction calls generalizing r with
  | nil => simp at h
  | cons call calls ih =>
    cases call with
    | status code => exact ih (by simpa [Call.sends] using h) hr
    | header key value => exact ih (by simpa [Call.sends] using h) hr
    | contentType type => exact ih (by simpa [Call.sends] using h) hr
    | send data => exact send_dead hr data _
    | json data => exact send_dead (r := r.contentType _) hr data _

theorem Response.perform_endsAs {s : Script} (hs : s.calls.countP Call.sends ≤ 1)
    (resp : Response) :
    (resp.perform s.throws s.calls).EndsAs resp.sender (s.ending resp.sender) := by
  have hany : s.calls.any Call.sends = true ↔ 0 < s.calls.countP Call.sends := by
    rw [List.any_eq_true, List.countP_pos_iff]
  rw [Script.ending]
  by_cases hsends : s.calls.any Call.sends = true
  · have hone : s.calls.countP Call.sends = 1 := by
      have hpos := hany.mp hsends
      omega
    cases hresp : resp.sender with
    | false =>
      rw [perform_dead hsends hresp, hsends]
      exact Run.endsAs_silent .threw false
    | true =>
      obtain ⟨sent, hsent⟩ := perform_once s.throws hone hresp
      rw [hsent, hsends]
      cases s.throws <;> exact ⟨rfl, by simp [Run.wrote?], by simp [Run.wrote?, Run.done,
        Run.failed, Run.writes], by simp⟩
  · have hnone : s.calls.countP Call.sends = 0 := by
      rw [hany] at hsends
      omega
    rw [perform_silent hnone, Bool.not_eq_true] at *
    rw [hsends]
    cases s.throws <;> exact Run.endsAs_silent _ _

theorem Handler.run_endsAs {h : Handler} (hh : h.SendsAtMostOnce) (verb : Verb) (req : Request)
    (resp : Response) :
    (h.run verb req resp).EndsAs resp.sender ((h.script req).ending resp.sender) := by
  have hperform := Response.perform_endsAs (hh req) resp
  have hwrites : (h.run verb req resp).writes =
      (resp.perform (h.script req).throws (h.script req).calls).writes := by
    rw [run, Run.writes_after]
    rfl
  exact ⟨hperform.outcome, by rw [hwrites, hperform.answered],
    by rw [hwrites, hperform.doubled], fun hl => by rw [hwrites, hperform.dead hl]⟩

namespace Tree

/-- The runs of the tree have the endings computed for it. -/
def EndsRight (env : Env) (t : Tree) : Prop :=
  ∀ req resp, ((t.routable env).call req resp).EndsAs resp.sender (t.ending env resp.sender req)

variable {env : Env}

theorem endPoint_endsRight {fn : Handler} (h : fn.SendsAtMostOnce) (method : Verb) :
    (Tree.endPoint method fn).EndsRight env := by
  intro req resp
  rw [routable, endPoint_call, ending]
  exact Handler.run_endsAs h method req resp

theorem binding_endsRight {next : Tree} (hnext : next.EndsRight env) (path : List Char) :
    (Tree.binding path next).EndsRight env := by
  intro req resp
  simp only [routable, ending, V60.binding]
  cases bindStep env path (next.routable env).isMatch req with
  | error outcome => exact Run.endsAs_silent outcome resp.sender
  | ok req => exact hnext req resp

theorem group_endsRight {routes : List Tree} (hroutes : ∀ t ∈ routes, t.EndsRight env) :
    (Tree.group routes).EndsRight env := by
  intro req resp
  simp only [routable, ending, routables_eq, V60.group]
  induction routes generalizing req resp with
  | nil => exact Run.endsAs_silent _ _
  | cons t ts ih =>
    have htail := fun req resp =>
      ih (fun t hmem => hroutes t (List.mem_cons_of_mem _ hmem)) req resp
    have hhead := hroutes t List.mem_cons_self req resp
    rw [List.map_cons, routesEnding]
    cases hm : (t.routable env).isMatch req.method req.remaining with
    | false =>
      rw [groupCall_skip _ hm, if_neg Bool.false_ne_true]
      exact htail req resp
    | true =>
      rw [if_pos rfl]
      by_cases ho : ((t.routable env).call req resp).outcome = .returned false
      · rw [groupCall_decline _ hm ho]
        exact hhead.append (htail _ resp.movedFrom) (hhead.outcome.symm.trans ho)
      · rw [groupCall_take _ hm ho, Ending.orElse, if_neg (by rwa [← hhead.outcome])]
        exact hhead

theorem use_endsRight {next : Tree} (hnext : next.EndsRight env) (mw : Mw) :
    (Tree.use mw next).EndsRight env := by
  intro req resp
  cases mw with
  | logging => exact hnext req resp
  | profile => exact hnext req resp
  | notFound =>
    simp only [routable, V60.use, Mw.call, notFoundMw, ending]
    split_ifs
    · exact hnext req resp
    · exact Run.endsAs_refusal resp 404 _
  | serverFault => exact (hnext req resp).caught
  | cookieParser keys =>
    simp only [routable, V60.use, Mw.call, ending]
    cases hheader : req.header "Cookie".toList with
    | none =>
      rw [cookieParserMw_none resp hheader]
      exact Run.endsAs_silent _ _
    | some header =>
      rw [cookieParserMw_some resp hheader]
      exact hnext _ resp
  | objectBody keys =>
    simp only [routable, V60.use, Mw.call, ending]
    cases hbody : req.body with
    | object body =>
      rw [objectBodyMw_object resp hbody]
      exact hnext req resp
    | text text =>
      cases hread : env.simdjson keys text with
      | none =>
        rw [objectBodyMw_failed resp hbody hread]
        simp only [hread]
        exact Run.endsAs_silent _ _
      | some body =>
        rw [objectBodyMw_read resp hbody hread]
        simp only [hread]
        exact hnext _ resp

theorem endsRight {t : Tree} (ht : t.All (fun _ => True) Handler.SendsAtMostOnce) :
    t.EndsRight env := by
  induction t using Tree.induct with
  | endPoint method fn => exact endPoint_endsRight ht method
  | binding path next ih => exact binding_endsRight (ih ht) path
  | group routes ih =>
    rw [All, allRoutes_iff] at ht
    exact group_endsRight fun t hmem => ih t hmem (ht t hmem)
  | use mw next ih => exact use_endsRight (ih ht.2) mw

end Tree

/-- One request is answered at most once exactly when no `server_fault_mw` that can still send
catches an exception of a route that has answered. -/
theorem answered_once_iff (env : Env) {t : Tree}
    (ht : t.All (fun _ => True) Handler.SendsAtMostOnce) (req : Request) (resp : Response) :
    ((t.routable env).call req resp).writes.length ≤ 1 ↔
      (t.ending env resp.sender req).doubled = false :=
  (Tree.endsRight ht req resp).doubled

def lateHandler : Handler := ⟨0, fun _ => ⟨[.send "Hello".toList], true⟩⟩

def lateRoute : Tree := .use .serverFault (.getAt "/hello".toList lateHandler)

example : lateHandler.SendsAtMostOnce := fun _ => le_rfl

theorem answered_once_hello :
    let raw := getRequest "/hello/world".toList (by decide)
    (((guarded parameterRoute).routable (pcreEnv .debug)).call (Request.ofRaw raw)
      (freshResponse .reference raw)).writes.length ≤ 1 :=
  (answered_once_iff (pcreEnv .debug) (t := guarded parameterRoute)
    ⟨trivial, trivial, fun _ => le_rfl⟩ _ _).mpr (by decide +kernel)

theorem lateRoute_answers_twice :
    let raw := getRequest "/hello".toList (by decide)
    ((lateRoute.routable (pcreEnv .debug)).call (Request.ofRaw raw)
      (freshResponse .reference raw)).writes.map StrResponse.result = [200, 500] := by
  decide +kernel

end V60
