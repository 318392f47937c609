import V60.GuardedDispatch

/-!
# What routes do to responses

A route never looks into the response it is given: it sets the status, header
fields and the body, copies it, moves it and sends it. So a relation between
messages that these changes keep also holds between the first responses of two
runs of the same route, when it holds between the responses they start from
(`Tree.treatsAlike`).
-/

namespace V60

/-- A relation that every change keeps; header fields are set for `allowed` keys only. -/
structure Kept (allowed : List Char → Prop) (R : StrResponse → StrResponse → Prop) : Prop where
  status : ∀ {m m' : StrResponse} (code : ℕ), R m m' →
    R { m with result := code } { m' with result := code }
  header : ∀ {m m' : StrResponse} {key : List Char} (text : List Char), allowed key → R m m' →
    R { m with fields := m.fields.set key text } { m' with fields := m'.fields.set key text }
  body : ∀ {m m' : StrResponse} (data : List Char), R m m' →
    R { m with body := data } { m' with body := data }
  contentType : allowed "content-type".toList
  contentLength : allowed "Content-Length".toList

def Call.Sets (allowed : List Char → Prop) : Call → Prop
  | .header key _ => allowed key
  | .status _ | .contentType _ | .send _ | .json _ => True

/-- A handler that sets header fields of these keys only. -/
def Handler.Sets (allowed : List Char → Prop) (h : Handler) : Prop :=
  ∀ req, ∀ call ∈ (h.script req).calls, call.Sets allowed

structure Response.Mirrors (R : StrResponse → StrResponse → Prop) (r r' : Response) : Prop where
  sender : r.sender = r'.sender
  resp : r.sender = true → R r.resp r'.resp

/-- Two runs that end alike, and whose first responses are related. -/
structure Run.Mirrors (R : StrResponse → StrResponse → Prop) (r r' : Run) : Prop where
  outcome : r.outcome = r'.outcome
  first : Option.Rel (fun m m' => R m m' ∧
    (m.fields.find "Content-Length".toList).isSome = true) r.writes.head? r'.writes.head?

section Mirrors

variable {allowed : List Char → Prop} {R : StrResponse → StrResponse → Prop}

theorem Run.Mirrors.done (res : Bool) : (Run.done res).Mirrors R (.done res) := ⟨rfl, .none⟩

theorem Run.Mirrors.failed : Run.failed.Mirrors R .failed := ⟨rfl, .none⟩

theorem Run.Mirrors.append {r r' rest rest' : Run} (h : r.Mirrors R r')
    (hrest : rest.Mirrors R rest') : (rest.after r.events).Mirrors R (rest'.after r'.events) := by
  refine ⟨hrest.outcome, ?_⟩
  rw [Run.writes_after, Run.writes_after, List.head?_append, List.head?_append]
  have hfirst := h.first
  change Option.Rel _ ((r.writes.head?).or _) ((r'.writes.head?).or _)
  generalize r.writes.head? = head, r'.writes.head? = head' at hfirst ⊢
  cases hfirst with
  | none => exact hrest.first
  | some hm => exact .some hm

theorem Run.Mirrors.orElse {r r' rest rest' : Run} (h : r.Mirrors R r')
    (hrest : rest.Mirrors R rest') : (r.orElse rest).Mirrors R (r'.orElse rest') := by
  by_cases ho : r.outcome = .threw
  · rw [Run.orElse_threw ho, Run.orElse_threw (h.outcome ▸ ho)]
    exact h.append hrest
  · rw [Run.orElse_of_ne ho, Run.orElse_of_ne (h.outcome ▸ ho)]
    exact h

theorem Response.Mirrors.dead {r r' : Response} : r.movedFrom.Mirrors R r'.movedFrom :=
  ⟨rfl, fun hr => absurd hr Bool.false_ne_true⟩

theorem Response.message_sized (r : Response) (data : List Char) :
    ((r.message data).fields.find "Content-Length".toList).isSome = true := by
  rw [message, StrResponse.contentLength, Fields.find_set_self]
  rfl

theorem Response.perform_outcome_congr (throws : Bool) (calls : List Call) (r r' : Response)
    (h : r.sender = r'.sender) :
    (r.perform throws calls).outcome = (r'.perform throws calls).outcome := by
  induction calls generalizing r r' with
  | nil => rfl
  | cons call calls ih =>
    cases call with
    | status code => exact ih _ _ h
    | header key text => exact ih _ _ h
    | contentType type => exact ih _ _ h
    | send data =>
      simp only [perform, Response.send, h]
      split_ifs
      · exact ih _ _ rfl
      · rfl
    | json data =>
      have hsender : (r.contentType "application/json".toList).sender =
          (r'.contentType "application/json".toList).sender := h
      simp only [perform, Response.send, hsender]
      split_ifs
      · exact ih _ _ rfl
      · rfl

variable (hR : Kept allowed R) {r r' : Response}
include hR

theorem Response.Mirrors.status (h : r.Mirrors R r') (code : ℕ) :
    (r.status code).Mirrors R (r'.status code) :=
  ⟨h.sender, fun hr => hR.status code (h.resp hr)⟩

theorem Response.Mirrors.header (h : r.Mirrors R r') {key : List Char} (hkey : allowed key)
    (text : List Char) : (r.header key text).Mirrors R (r'.header key text) :=
  ⟨h.sender, fun hr => hR.header text hkey (h.resp hr)⟩

-- the message sent is related, whatever follows on what is left of the response
theorem Response.Mirrors.send (h : r.Mirrors R r') (data : List Char)
    {rest rest' : Response → Run}
    (hrest : ∀ r r' : Response, r.sender = r'.sender → (rest r).outcome = (rest' r').outcome) :
    (r.send data rest).Mirrors R (r'.send data rest') := by
  cases hr : r.sender with
  | false =>
    rw [Response.send_dead hr, Response.send_dead (h.sender ▸ hr)]
    exact .failed
  | true =>
    rw [Response.send_alive hr, Response.send_alive (h.sender ▸ hr)]
    have hmessage : R (r.message data) (r'.message data) :=
      hR.header _ hR.contentLength (hR.body data (h.resp hr))
    exact ⟨hrest _ _ h.sender, .some ⟨hmessage, r.message_sized data⟩⟩

theorem Response.perform_mirrors (throws : Bool) {calls : List Call}
    (hcalls : ∀ call ∈ calls, call.Sets allowed) (h : r.Mirrors R r') :
    (r.perform throws calls).Mirrors R (r'.perform throws calls) := by
  induction calls generalizing r r' with
  | nil =>
    cases throws with
    | true => exact .failed
    | false => exact .done true
  | cons call calls ih =>
    have htail := fun {r r'} (h : Response.Mirrors R r r') =>
      ih (fun call hmem => hcalls call (List.mem_cons_of_mem _ hmem)) h
    cases call with
    | status code => exact htail (h.status hR code)
    | header key text =>
      have hkey : allowed key := hcalls _ List.mem_cons_self
      exact htail (h.header hR hkey text)
    | contentType type => exact htail (h.header hR hR.contentType type)
    | send data => exact h.send hR data (perform_outcome_congr throws calls)
    | json data =>
      exact (h.header hR hR.contentType _).send hR data (perform_outcome_congr throws calls)

theorem Handler.run_mirrors {fn : Handler} (hfn : fn.Sets allowed) (verb : Verb) (req : Request)
    (h : r.Mirrors R r') : (fn.run verb req r).Mirrors R (fn.run verb req r') := by
  have hperform := Response.perform_mirrors hR (fn.script req).throws (hfn req) h
  refine ⟨hperform.outcome, ?_⟩
  rw [run, run, Run.writes_after, Run.writes_after]
  exact hperform.first

theorem refusal_mirrors (h : r.Mirrors R r') (code : ℕ) (data : List Char) :
    ((r.status code).send data fun _ => .done false).Mirrors R
      ((r'.status code).send data fun _ => .done false) :=
  (h.status hR code).send hR data fun _ _ _ => rfl

end Mirrors

/-! ## Routes -/

/-- A route whose runs on two related responses are related. -/
def Routable.TreatsAlike (R : StrResponse → StrResponse → Prop) (route : Routable) : Prop :=
  ∀ req r r', Response.Mirrors R r r' → (route.call req r).Mirrors R (route.call req r')

section Routes

variable {allowed : List Char → Prop} {R : StrResponse → StrResponse → Prop}

theorem endPoint_treatsAlike (hR : Kept allowed R) {fn : Handler} (hfn : fn.Sets allowed)
    (method : Verb) : (endPoint method fn).TreatsAlike R := by
  intro req r r' h
  rw [endPoint_call, endPoint_call]
  exact Handler.run_mirrors hR hfn method req h

theorem binding_treatsAlike (env : Env) (path : List Char) {next : Routable}
    (hnext : next.TreatsAlike R) :
    (binding env path next).TreatsAlike R := by
  intro req r r' h
  simp only [binding]
  cases bindStep env path next.isMatch req with
  | error outcome => exact ⟨rfl, .none⟩
  | ok req => exact hnext req r r' h

theorem group_treatsAlike (b : Build) {routes : List Routable}
    (hroutes : ∀ route ∈ routes, route.TreatsAlike R) :
    (group b routes).TreatsAlike R := by
  intro req r r' h
  change (groupCall b routes req r).Mirrors R (groupCall b routes req r')
  induction routes generalizing req r r' with
  | nil => exact .done false
  | cons route routes ih =>
    have hhead := hroutes route List.mem_cons_self req r r' h
    have htail := fun req r r' h =>
      ih (fun route hmem => hroutes route (List.mem_cons_of_mem _ hmem)) req r r' h
    cases hm : route.isMatch req.method req.remaining with
    | false =>
      rw [groupCall_skip _ hm, groupCall_skip _ hm]
      exact htail req r r' h
    | true =>
      by_cases ho : (route.call req r).outcome = .returned false
      · rw [groupCall_decline _ hm ho, groupCall_decline _ hm (hhead.outcome ▸ ho)]
        exact hhead.append (htail _ _ _ Response.Mirrors.dead)
      · rw [groupCall_take _ hm ho, groupCall_take _ hm (hhead.outcome ▸ ho)]
        exact hhead

theorem use_treatsAlike (hR : Kept allowed R) (env : Env) (mw : Mw) {next : Routable}
    (hnext : next.TreatsAlike R) : (use env mw next).TreatsAlike R := by
  intro req r r' h
  cases mw with
  | logging => exact hnext req r r' h
  | profile => exact hnext req r r' h
  | notFound =>
    simp only [use, Mw.call, notFoundMw]
    split_ifs
    · exact hnext req r r' h
    · exact refusal_mirrors hR h 404 _
  | serverFault => exact (hnext req r r' h).orElse (refusal_mirrors hR h 500 _)
  | cookieParser keys =>
    simp only [use, Mw.call]
    cases hheader : req.header "Cookie".toList with
    | none =>
      rw [cookieParserMw_none r hheader, cookieParserMw_none r' hheader]
      exact .done false
    | some header =>
      rw [cookieParserMw_some r hheader, cookieParserMw_some r' hheader]
      exact hnext _ r r' h
  | objectBody keys =>
    simp only [use, Mw.call]
    cases hbody : req.body with
    | object body =>
      rw [objectBodyMw_object r hbody, objectBodyMw_object r' hbody]
      exact hnext req r r' h
    | text text =>
      cases hread : env.simdjson keys text with
      | none =>
        rw [objectBodyMw_failed r hbody hread, objectBodyMw_failed r' hbody hread]
        exact .failed
      | some body =>
        rw [objectBodyMw_read r hbody hread, objectBodyMw_read r' hbody hread]
        exact hnext _ r r' h

theorem Tree.treatsAlike (hR : Kept allowed R) (env : Env) {t : Tree}
    (ht : t.All (fun _ => True) (Handler.Sets allowed)) : (t.routable env).TreatsAlike R := by
  induction t using Tree.induct with
  | endPoint method fn => exact endPoint_treatsAlike hR ht method
  | binding path next ih => exact binding_treatsAlike env path (ih ht)
  | group routes ih =>
    rw [All, allRoutes_iff] at ht
    rw [routable, routables_eq]
    apply group_treatsAlike
    intro route hroute
    obtain ⟨t, hmem, rfl⟩ := List.mem_map.mp hroute
    exact ih t hmem (ht t hmem)
  | use mw next ih => exact use_treatsAlike hR env mw (ih ht.2)

end Routes

end V60
