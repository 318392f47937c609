import V60.GuardedDispatch
import V60.Process

/-!
# Failed assertions

The assertions of `binding::operator()` are the only way a session ends the
process. A tree that matches what it is called with never reaches one, and a
group and `not_found_mw` ask before they call. So a server goes down in some run
exactly when some request takes its root there (`survives_iff`), which is a
question about the first route below the middlewares (`survives_iff_root`).
-/

namespace V60

namespace Run

theorem andThen_outcome_ne {r : Run} {f : Bool → Run} {o : Outcome} (h : r.outcome ≠ o)
    (hf : ∀ res, (f res).outcome ≠ o) : (r.andThen f).outcome ≠ o := by
  cases ho : r.outcome with
  | returned res =>
    rw [andThen_returned ho]
    exact hf res
  | threw =>
    rw [andThen_threw ho]
    exact h
  | aborted =>
    rw [andThen_aborted ho]
    exact h

theorem orElse_not_aborted {r handler : Run} (h : r.outcome ≠ .aborted)
    (hhandler : handler.outcome ≠ .aborted) : (r.orElse handler).outcome ≠ .aborted := by
  by_cases ho : r.outcome = .threw
  · rw [orElse_threw ho]
    exact hhandler
  · rw [orElse_of_ne ho]
    exact h

theorem cut_not_aborted {r : Run} (h : r.outcome ≠ .aborted) (n : ℕ) :
    (r.cut n).1.outcome ≠ .aborted := by
  by_cases hle : r.writes.length ≤ n
  · rw [cut_of_le hle]
    exact h
  · rw [cut_of_lt (by omega)]
    simp

end Run

theorem Response.send_not_aborted (r : Response) (data : List Char) {rest : Response → Run}
    (h : ∀ r, (rest r).outcome ≠ .aborted) : (r.send data rest).outcome ≠ .aborted := by
  cases hr : r.sender with
  | true =>
    rw [send_alive hr]
    exact h _
  | false =>
    rw [send_dead hr]
    simp [Run.failed]

theorem refuse_not_aborted (resp : Response) (code : ℕ) (data : List Char) :
    ((resp.status code).send data fun _ => .done false).outcome ≠ .aborted :=
  (resp.status code).send_not_aborted data fun _ => by simp [Run.done]

/-! ## Trees -/

namespace Tree

variable {env : Env}

/-- The routes of a group are asked before they are called, also after one of them declined. -/
theorem groupCall_not_aborted {routes : List Tree}
    (hroutes : ∀ t ∈ routes, ∀ req resp, (t.routable env).isMatch req.method req.remaining = true →
      ((t.routable env).call req resp).outcome ≠ .aborted)
    (req : Request) (resp : Response) :
    (((Tree.group routes).routable env).call req resp).outcome ≠ .aborted := by
  simp only [routable, routables_eq, V60.group]
  induction routes generalizing req resp with
  | nil => simp [groupCall, Run.done]
  | cons t ts ih =>
    have htail := fun req resp =>
      ih (fun t hmem => hroutes t (List.mem_cons_of_mem _ hmem)) req resp
    rw [List.map_cons]
    cases hm : (t.routable env).isMatch req.method req.remaining with
    | false =>
      rw [groupCall_skip _ hm]
      exact htail req resp
    | true =>
      rw [groupCall, if_pos hm]
      apply Run.andThen_outcome_ne (hroutes t List.mem_cons_self req resp hm)
      intro res
      cases res with
      | true => simp [Run.done]
      | false => exact htail _ _

/-- A middleware calls the next route with the method and the paths it was called with. -/
theorem use_not_aborted (mw : Mw) {next : Tree} {req : Request} (resp : Response)
    (hnext : ∀ req', req'.method = req.method → req'.remaining = req.remaining →
      req'.path = req.path → ((next.routable env).call req' resp).outcome ≠ .aborted) :
    (((Tree.use mw next).routable env).call req resp).outcome ≠ .aborted := by
  have hcalled := Mw.called env mw (next.routable env) req resp
  simp only [routable, V60.use]
  generalize mw.call env (next.routable env) req resp = run at hcalled ⊢
  cases hcalled with
  | handsOn req' hraw hremaining _ =>
    exact hnext req' (congrArg StrRequest.method hraw) hremaining (congrArg StrRequest.target hraw)
  | refuses data => exact refuse_not_aborted resp 404 data
  | recovers => exact Run.orElse_not_aborted (hnext req rfl rfl rfl) (refuse_not_aborted resp 500 _)
  | declines => simp [Run.done]
  | fails => simp [Run.failed]

/-- No tree fails an assertion on a request it matches. -/
theorem call_not_aborted (t : Tree) (req : Request) (resp : Response)
    (h : (t.routable env).isMatch req.method req.remaining = true) :
    ((t.routable env).call req resp).outcome ≠ .aborted := by
  induction t using Tree.induct generalizing req resp with
  | endPoint method fn =>
    rw [routable, endPoint_call]
    rcases fn.run_outcome method req resp with ho | ho <;> simp [ho]
  | binding path next ih =>
    cases hm : env.ctre.startsWith (re path) req.remaining with
    | none =>
      rw [routable, binding_isMatch_none hm] at h
      cases h
    | some m =>
      rw [routable, binding_isMatch_some hm] at h
      rw [routable, binding_call resp hm h]
      exact ih _ resp h
  | group routes ih => exact groupCall_not_aborted ih req resp
  | use mw next ih =>
    apply use_not_aborted
    intro req' hmethod hremaining _
    apply ih
    rw [hmethod, hremaining]
    exact h

/-- Whether a request reaches a binding before anything asks if it matches. -/
def opensWithBinding : Tree → Bool
  | .binding .. => true
  | .endPoint .. | .group _ => false
  | .use .notFound _ => false
  | .use _ next => next.opensWithBinding

/-- A root that does not open with a binding fails no assertion, on any request. -/
theorem root_not_aborted {t : Tree} (ht : t.opensWithBinding = false) {req : Request}
    (hreq : req.remaining = req.path) (resp : Response) :
    ((t.routable env).call req resp).outcome ≠ .aborted := by
  induction t using Tree.induct generalizing req with
  | endPoint method fn =>
    rw [routable, endPoint_call]
    rcases fn.run_outcome method req resp with ho | ho <;> simp [ho]
  | binding path next ih => simp [opensWithBinding] at ht
  | group routes ih =>
    exact groupCall_not_aborted (fun t _ req resp h => t.call_not_aborted req resp h) req resp
  | use mw next ih =>
    by_cases hmw : mw = .notFound
    · subst hmw
      simp only [routable, V60.use, Mw.call, notFoundMw]
      split_ifs with hm
      · exact next.call_not_aborted req resp (by rwa [hreq])
      · exact refuse_not_aborted resp 404 _
    · have hnext : next.opensWithBinding = false := by
        cases mw <;> first | exact ht | exact absurd rfl hmw
      apply use_not_aborted
      intro req' _ hremaining hpath
      exact ih hnext (by rw [hremaining, hpath, hreq])

/-- The middlewares in front of the first route. -/
def rootMws : Tree → List Mw
  | .use mw next => mw :: next.rootMws
  | .endPoint .. | .binding .. | .group _ => []

/-- A binding at the front fails an assertion on what it does not match, unless a middleware
before it does not call it: a cookie parser without a header, or a body that cannot be read. -/
theorem root_aborts (hasserts : env.build.asserts = true) {t : Tree}
    (ht : t.opensWithBinding = true) (hmws : ∀ keys, Mw.objectBody keys ∉ t.rootMws)
    {req : Request} (hcookie : (req.header "Cookie".toList).isSome = true)
    (hmiss : (t.routable env).isMatch req.method req.remaining = false) (resp : Response) :
    ((t.routable env).call req resp).outcome = .aborted := by
  induction t using Tree.induct generalizing req with
  | endPoint method fn => simp [opensWithBinding] at ht
  | binding path next ih =>
    rw [routable, binding_call_abort resp hasserts hmiss]
    rfl
  | group routes ih => simp [opensWithBinding] at ht
  | use mw next ih =>
    have hrest : ∀ keys, Mw.objectBody keys ∉ next.rootMws := fun keys hmem =>
      hmws keys (List.mem_cons_of_mem _ hmem)
    cases mw with
    | logging => exact ih ht hrest hcookie hmiss
    | profile => exact ih ht hrest hcookie hmiss
    | notFound => simp [opensWithBinding] at ht
    | serverFault =>
      have hnext := ih ht hrest hcookie hmiss
      simp only [routable, V60.use, Mw.call, serverFaultMw]
      rw [Run.orElse_of_ne (by simp [hnext])]
      exact hnext
    | cookieParser keys =>
      obtain ⟨header, hheader⟩ := Option.isSome_iff_exists.mp hcookie
      simp only [routable, V60.use, Mw.call]
      rw [cookieParserMw_some resp hheader]
      exact ih ht hrest hcookie hmiss
    | objectBody keys => exact absurd List.mem_cons_self (hmws keys)

/-- Nothing matches a request for a verb no end point is for. -/
theorem isMatch_verb {t : Tree} {v : Verb} (hv : ∀ e ∈ t.entries, e.verb ≠ v)
    (input : List Char) : (t.routable env).isMatch v input = false := by
  rw [isMatch_eq, lookup, Option.isSome_eq_false_iff, Option.isNone_iff_eq_none,
    List.find?_eq_none]
  intro e he haccepts
  rw [Entry.accepts, Bool.and_eq_true, decide_eq_true_eq] at haccepts
  exact hv e he haccepts.1.symm

end Tree

/-! ## The process -/

section Survival

variable {env : Env} {beast : Beast} {t : Tree}

namespace Session

/-- The run a session is in the middle of does not end in a failed assertion. -/
def Sound : Session → Prop
  | .handling _ run _ => run.outcome ≠ .aborted
  | .reading .. | .ended => True

theorem step_sound (hroot : ∀ raw, (handleRequest beast (t.routable env) raw).outcome ≠ .aborted)
    {s s' : Session} {a : Act} (hs : s.Sound) (h : s.step env beast t = some (a, s')) :
    a ≠ .aborted ∧ s'.Sound := by
  cases step_cases h with
  | readFailed close n => exact ⟨by simp, trivial⟩
  | read close raw rest n =>
    refine ⟨by simp, ?_⟩
    rw [Sound, handleRequestOn_eq]
    exact Run.cut_not_aborted (hroot raw) n
  | event close event events outcome client => exact ⟨by simp, hs⟩
  | shutdown res client => exact ⟨by simp, trivial⟩
  | returned res client => exact ⟨by simp, trivial⟩
  | failed close client => exact ⟨by simp, trivial⟩
  | aborted close client => exact absurd rfl hs

end Session

namespace Process

variable {p p' : Process} {labels : List Label}

def Survives (env : Env) (beast : Beast) (t : Tree) : Prop :=
  ∀ labels p, Run env beast t start labels p → p.up = true

/-- What every step keeps when no request takes the root to a failed assertion. -/
structure Sound (p : Process) : Prop where
  up : p.up = true
  sessions : ∀ s ∈ p.sessions, s.Sound

theorem step_sound (hroot : ∀ raw, (handleRequest beast (t.routable env) raw).outcome ≠ .aborted)
    {label : Label} (h : p.Sound) (hstep : Step env beast t p label p') : p'.Sound := by
  cases hstep with
  | setUp hup hl => exact ⟨h.up, h.sessions⟩
  | refused message hup hl => exact ⟨h.up, h.sessions⟩
  | accepted client hup hl =>
    refine ⟨h.up, ?_⟩
    intro s hs
    rcases List.mem_append.mp hs with hs | hs
    · exact h.sessions s hs
    · obtain rfl := List.mem_singleton.mp hs
      exact trivial
  | acceptFailed hup hl => exact ⟨h.up, h.sessions⟩
  | @acted i a s s' hup hs hstep =>
    obtain ⟨ha, hs'⟩ := Session.step_sound hroot (h.sessions s (List.mem_of_getElem? hs)) hstep
    rw [act_survives hup ha]
    refine ⟨hup, ?_⟩
    intro q hq
    rcases List.mem_or_eq_of_mem_set hq with hq | rfl
    · exact h.sessions q hq
    · exact hs'

theorem run_start_sound
    (hroot : ∀ raw, (handleRequest beast (t.routable env) raw).outcome ≠ .aborted)
    (h : Run env beast t start labels p) : p.Sound := by
  have hstart : start.Sound := ⟨rfl, by simp [start]⟩
  exact h.history (p := fun _ p => p.Sound) (l := []) (fun _ _ _ _ => step_sound hroot) hstart

/-- One client with one request ends the process, if the request takes the root to a failed
assertion. -/
theorem goes_down {raw : StrRequest}
    (hraw : (handleRequest beast (t.routable env) raw).outcome = .aborted) :
    ∃ labels p, Run env beast t start labels p ∧ p.up = false := by
  obtain ⟨labels, p, close, client, hrun, hup, hs, -⟩ := run_request env beast t raw
  rw [hraw] at hs
  exact ⟨_, _, hrun.append (.one (.acted hup hs rfl)), rfl⟩

/-- The server survives every run exactly when no request takes its root to a failed assertion. -/
theorem survives_iff (env : Env) (beast : Beast) (t : Tree) :
    Survives env beast t ↔
      ∀ raw, (handleRequest beast (t.routable env) raw).outcome ≠ .aborted := by
  constructor
  · intro h raw hraw
    obtain ⟨labels, p, hrun, hdown⟩ := goes_down hraw
    rw [h labels p hrun] at hdown
    cases hdown
  · intro hroot labels p hrun
    exact (run_start_sound hroot hrun).up

/-- A root that does not open with a binding survives, whatever its handlers and middlewares do. -/
theorem survives_of_root (env : Env) (beast : Beast) {t : Tree}
    (ht : t.opensWithBinding = false) : Survives env beast t := by
  intro labels p hrun
  refine (run_start_sound ?_ hrun).up
  intro raw
  cases hraw : badTarget raw.target with
  | true =>
    rw [handleRequest_bad hraw]
    simp
  | false =>
    rw [handleRequest_good hraw]
    exact Tree.root_not_aborted ht rfl _

def cookieRequest (v : Verb) : StrRequest :=
  ⟨v, "/".toList, .http11, [("Cookie".toList, [])], [], by decide⟩

/-- With assertions, and a verb no end point is for, a root that opens with a binding is taken
down by some client, and no other root is. -/
theorem survives_iff_root (env : Env) (beast : Beast) (hasserts : env.build.asserts = true)
    {t : Tree} (hmws : ∀ keys, Mw.objectBody keys ∉ t.rootMws) {v : Verb}
    (hv : ∀ e ∈ t.entries, e.verb ≠ v) :
    Survives env beast t ↔ t.opensWithBinding = false := by
  constructor
  · intro h
    by_contra hopens
    have haborts : (handleRequest beast (t.routable env) (cookieRequest v)).outcome =
        .aborted := by
      rw [handleRequest_good rfl]
      exact Tree.root_aborts hasserts (by simpa using hopens) hmws rfl (Tree.isMatch_verb hv _) _
    obtain ⟨labels, p, hrun, hdown⟩ := goes_down haborts
    rw [h labels p hrun] at hdown
    cases hdown
  · exact survives_of_root env beast

theorem survives_iff_root_parameter :
    Survives (pcreEnv .debug) .reference (.use .serverFault parameterRoute) ↔
      (Tree.use .serverFault parameterRoute).opensWithBinding = false :=
  survives_iff_root (pcreEnv .debug) .reference rfl (by simp [Tree.rootMws, parameterRoute,
    Tree.getAt]) (v := .delete) (by simp [Tree.entries, parameterRoute, Tree.getAt, Tree.get,
    Entry.under])

end Process

end Survival

end V60
