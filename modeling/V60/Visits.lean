import V60.Equivalence

/-!
# The order of visits

Routes that decline pass a request on, and the next route may take it again. The
handlers that a request is shown to, in any tree and with any middlewares, are
still a part of the tree's end points in the order they are written, none of
them twice (`Process.visits_in_order`).
-/

namespace V60

/-- The verbs and handlers that were called. -/
def visited (events : List Event) : List (Verb × ℕ) :=
  (events.filterMap Run.ran?).map fun (verb, handler, _) => (verb, handler)

theorem Run.visited_eq (r : Run) :
    visited r.events = r.handlers.map fun (verb, handler, _) => (verb, handler) := rfl

/-- The end points in the order they are written. -/
def Tree.visits (t : Tree) : List (Verb × ℕ) :=
  t.entries.map fun e => (e.verb, e.handler.name)

theorem visited_append (events events' : List Event) :
    visited (events ++ events') = visited events ++ visited events' := by
  rw [visited, List.filterMap_append, List.map_append]
  rfl

theorem visited_of_handlers {r : Run} (h : r.handlers = []) : visited r.events = [] := by
  rw [r.visited_eq, h, List.map_nil]

namespace Tree

variable {env : Env}

theorem visits_under (path : List Char) (next : Tree) :
    (Tree.binding path next).visits = next.visits := by
  rw [visits, entries, List.map_map]
  rfl

theorem visits_cons (t : Tree) (ts : List Tree) :
    (Tree.group (t :: ts)).visits = t.visits ++ (Tree.group ts).visits := by
  rw [visits, entries, routesEntries, List.map_append]
  rfl

theorem group_visited {routes : List Tree}
    (ih : ∀ t ∈ routes, ∀ req resp,
      (visited ((t.routable env).call req resp).events).Sublist t.visits)
    (req : Request) (resp : Response) :
    (visited (((Tree.group routes).routable env).call req resp).events).Sublist
      (Tree.group routes).visits := by
  simp only [routable, routables_eq, V60.group]
  induction routes generalizing req resp with
  | nil => exact List.Sublist.refl _
  | cons t ts ihts =>
    have hrest := ihts fun t hmem => ih t (List.mem_cons_of_mem _ hmem)
    have hfirst := ih t List.mem_cons_self req resp
    rw [List.map_cons, visits_cons]
    cases hm : (t.routable env).isMatch req.method req.remaining with
    | false =>
      rw [groupCall_skip _ hm]
      exact (hrest req resp).trans (List.sublist_append_right _ _)
    | true =>
      by_cases hdecline : ((t.routable env).call req resp).outcome = .returned false
      · rw [groupCall_decline _ hm hdecline, Run.after_events, visited_append]
        exact hfirst.append (hrest _ _)
      · rw [groupCall_take _ hm hdecline]
        exact hfirst.trans (List.sublist_append_left _ _)

theorem call_visited (t : Tree) (req : Request) (resp : Response) :
    (visited ((t.routable env).call req resp).events).Sublist t.visits := by
  induction t using Tree.induct generalizing req resp with
  | endPoint method fn =>
    rw [routable, endPoint_call, Run.visited_eq, Handler.run_handlers]
    exact List.Sublist.refl _
  | binding path next ih =>
    rw [visits_under]
    simp only [routable, V60.binding]
    cases bindStep env path (next.routable env).isMatch req with
    | error outcome => exact List.nil_sublist _
    | ok req' => exact ih req' resp
  | group routes ih => exact group_visited ih req resp
  | use mw next ih =>
    have hvisits : (Tree.use mw next).visits = next.visits := rfl
    have hcalled := Mw.called env mw (next.routable env) req resp
    rw [hvisits]
    simp only [routable, V60.use]
    generalize mw.call env (next.routable env) req resp = run at hcalled ⊢
    cases hcalled with
    | handsOn req' hraw hremaining hparams => exact ih req' resp
    | refuses data =>
      rw [visited_of_handlers (refuse_handlers _ _ _)]
      exact List.nil_sublist _
    | recovers =>
      by_cases ho : ((next.routable env).call req resp).outcome = .threw
      · have hfault : visited (answerFault resp).events = [] :=
          visited_of_handlers (refuse_handlers _ _ _)
        rw [Run.orElse_threw ho, Run.after_events, visited_append, hfault, List.append_nil]
        exact ih req resp
      · rw [Run.orElse_of_ne ho]
        exact ih req resp
    | declines => exact List.nil_sublist _
    | fails => exact List.nil_sublist _

end Tree

section Requests

variable {env : Env} {beast : Beast} {t : Tree}

theorem handleRequest_visited (raw : StrRequest) :
    (visited (handleRequest beast (t.routable env) raw).events).Sublist t.visits := by
  cases hraw : badTarget raw.target with
  | true =>
    rw [handleRequest_bad hraw]
    exact List.nil_sublist _
  | false =>
    rw [handleRequest_good hraw]
    exact t.call_visited _ _

/-- The events of a session come in the order of the run it handles. -/
theorem Session.run_block {close : Bool} {run : Run} {client : Client} {since : List Event}
    {after : List Act} {s : Session}
    (h : Machines.Run (Session.step env beast t) (.handling close run client)
      (since.map .event ++ after) s) : since <+: run.events := by
  induction since generalizing close run with
  | nil => exact List.nil_prefix
  | cons e since ih =>
    obtain ⟨s', hstep, hrest⟩ := h.of_cons
    cases step_cases hstep with
    | event close e events outcome client => exact List.cons_prefix_cons.mpr ⟨rfl, ih hrest⟩

theorem Session.run_since {client : Client} {before after : List Act} {raw : StrRequest}
    {since : List Event} {s : Session}
    (h : Machines.Run (Session.step env beast t) (.start client)
      (before ++ .read raw :: (since.map .event ++ after)) s) :
    since <+: (handleRequest beast (t.routable env) raw).events := by
  obtain ⟨s', -, hread⟩ := h.of_append
  obtain ⟨s'', hstep, hrest⟩ := hread.of_cons
  cases step_cases hstep with
  | read close raw rest n =>
    have hprefix := Session.run_block hrest
    rw [handleRequestOn_eq] at hprefix
    exact hprefix.trans (Run.cut_isPrefix _ n)

/-- What a session does between one request and the next is the beginning of what the request comes
to. -/
theorem Process.run_since {labels : List Label} {p : Process} (h : Run env beast t start labels p)
    {i : ℕ} {before after : List Act} {raw : StrRequest} {since : List Event}
    (hacts : Machines.acts i (moves labels) =
      before ++ .read raw :: (since.map .event ++ after)) :
    since <+: (handleRequest beast (t.routable env) raw).events := by
  have hread : .read raw ∈ Machines.acts i (moves labels) := by
    rw [hacts]
    exact List.mem_append_right _ List.mem_cons_self
  obtain ⟨client, hclient⟩ := run_client h ((run_pool h).lt_of_acts hread)
  obtain ⟨s, -, hrun⟩ := run_session h hclient
  rw [hacts] at hrun
  exact Session.run_since hrun

/-- What a session calls between one request and the next are end points of its tree, in their
order. -/
theorem Process.visits_in_order {labels : List Label} {p : Process}
    (h : Run env beast t start labels p) {i : ℕ} {before after : List Act} {raw : StrRequest}
    {since : List Event}
    (hacts : Machines.acts i (moves labels) =
      before ++ .read raw :: (since.map .event ++ after)) :
    (visited since).Sublist t.visits := by
  have hvisited : (visited (handleRequest beast (t.routable env) raw).events).Sublist t.visits :=
    handleRequest_visited raw
  exact (((run_since h hacts).sublist.filterMap _).map _).trans hvisited

end Requests

def welcomeHandler : Handler := ⟨4, fun _ => ⟨[.send "Welcome!".toList], false⟩⟩

/-- The first route declines a request for the page for want of a cookie, and the second takes what
is left of it. -/
def decliningRoutes : Tree :=
  .binding "/hello".toList
    (.group [.use (.cookieParser ["name".toList]) (.get helloHandler), .get welcomeHandler])

/-- Only the second handler is called. -/
theorem Process.visits_in_order_declined :
    let raw := getRequest "/hello".toList (by decide)
    let run := (handleRequestOn (pcreEnv .debug) .reference decliningRoutes raw 1).1
    ∃ labels p, Run (pcreEnv .debug) .reference decliningRoutes start labels p ∧
      Machines.acts 0 (moves labels) = .read raw :: handled .reference run ∧
      (visited run.events).Sublist decliningRoutes.visits ∧
      visited run.events = [(.get, 4)] ∧ decliningRoutes.visits = [(.get, 0), (.get, 4)] := by
  intro raw run
  obtain ⟨p, hp⟩ := run_handled (pcreEnv .debug) .reference decliningRoutes raw 1
  have hacts : Machines.acts 0 (moves (requestLabels raw 1 (.read raw :: handled .reference run))) =
      [] ++ .read raw :: handled .reference run := acts_requestLabels raw 1 _
  exact ⟨_, p, hp, hacts, visits_in_order hp hacts, by decide +kernel, rfl⟩

end V60
