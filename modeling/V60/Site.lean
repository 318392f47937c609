import V60.Nesting
import V60.Progress
import V60.Stacks

/-!
# Sites

What a server is for: a site is a list of routes, each a chain of segment
patterns, a verb and a page computed from the request and the texts of its
parameters, and it is a function from requests to responses. A tree of its routes
behind the two guards is that function on every connection (`doSession_site`), and
so is the process that serves it, whatever its clients do (`Process.serves_site`).
-/

namespace V60

structure Route where
  chain : List Pattern
  verb : Verb
  name : ℕ
  page : StrRequest → (Key → Option (List Char)) → Script
  behaves : ∀ raw values, (page raw values).Answers ∨ (page raw values).Fails

/-- The texts of the parameters of a chain that takes the whole path, each pattern the longest
prefix it fits. The patterns inside come first. -/
def readChain : List Pattern → List Char → Option Values
  | [], [] => some []
  | [], _ :: _ => none
  | P :: chain, path =>
    (splits P.segments path).head?.bind fun m => (readChain chain m.2).map (· ++ m.1)

namespace Route

def read (r : Route) (v : Verb) (path : List Char) : Option Values :=
  if v = r.verb then readChain r.chain path else none

def handler (r : Route) : Handler := ⟨r.name, fun req => r.page req.raw req.params.get⟩

def entry (r : Route) : Entry := ⟨r.chain.map Pattern.text, r.verb, r.handler⟩

end Route

abbrev Site := List Route

/-- The response of the first `send`. -/
def Response.reply : List Call → Response → StrResponse
  | [], r => r.resp
  | .status code :: calls, r => reply calls (r.status code)
  | .header key value :: calls, r => reply calls (r.header key value)
  | .contentType type :: calls, r => reply calls (r.contentType type)
  | .send data :: _, r => r.message data
  | .json data :: _, r => (r.contentType "application/json".toList).message data

def Script.reply (s : Script) (r : Response) : StrResponse :=
  if s.throws then (r.status 500).message "Internal server error!".toList else r.reply s.calls

namespace Site

def find (site : Site) (v : Verb) (path : List Char) : Option (Route × Values) :=
  site.findSome? fun r => (r.read v path).map (r, ·)

def answer (beast : Beast) (site : Site) (raw : StrRequest) : StrResponse :=
  if badTarget raw.target then badRequest beast raw "Illegal request-target".toList
  else
    match site.find raw.method raw.target with
    | none => ((freshResponse beast raw).status 404).message ("Not found: ".toList ++ raw.target)
    | some (r, values) => (r.page raw fun key => values.lookup key).reply (freshResponse beast raw)

/-- What a client is shown: an answer to each request, up to the first that closes. -/
def serve (beast : Beast) (site : Site) : List StrRequest → List Io
  | [] => []
  | raw :: rest =>
    .read raw :: .wrote (site.answer beast raw) ::
      if beast.needEof (site.answer beast raw) then [.shutdown] else serve beast site rest

/-- The tree is made of the routes of the site. -/
structure Describes (site : Site) (t : Tree) : Prop where
  passes : t.All Mw.Passes fun _ => True
  entries : t.entries = site.map Route.entry

end Site

/-! ## Trees of routes -/

namespace Entry

/-- The route of one entry. -/
def tree (e : Entry) : Tree := e.chain.foldr Tree.binding (.endPoint e.verb e.handler)

theorem tree_passes (e : Entry) : e.tree.All Mw.Passes fun _ => True := by
  obtain ⟨chain, verb, handler⟩ := e
  induction chain with
  | nil => trivial
  | cons path chain ih => exact ih

theorem tree_entries (e : Entry) : e.tree.entries = [e] := by
  obtain ⟨chain, verb, handler⟩ := e
  induction chain with
  | nil => rfl
  | cons path chain ih => exact congrArg (List.map (under path)) ih

/-- A group with a route for each entry. -/
def routes (table : List Entry) : Tree := .group (table.map tree)

theorem routes_passes (table : List Entry) :
    (routes table).All Mw.Passes fun _ => True := by
  rw [routes, Tree.All, Tree.allRoutes_iff]
  intro t ht
  obtain ⟨e, -, rfl⟩ := List.mem_map.mp ht
  exact e.tree_passes

theorem routes_entries (table : List Entry) : (routes table).entries = table := by
  have htree : (fun e : Entry => e.tree.entries) = fun e => [e] := funext tree_entries
  rw [routes, Tree.entries, Tree.routesEntries_eq, List.flatMap_map, htree]
  exact List.flatMap_singleton' table

end Entry

theorem Site.routes_describes (site : Site) :
    site.Describes (Entry.routes (site.map Route.entry)) :=
  ⟨Entry.routes_passes _, Entry.routes_entries _⟩

/-! ## Chains -/

theorem lookup_or (vs : Values) (key : Key) (o : Option (List Char)) :
    (vs.lookup key).or o = if key ∈ vs.map Prod.fst then some (captured vs key) else o := by
  cases hlookup : vs.lookup key with
  | none =>
    have hkey : key ∉ vs.map Prod.fst := by
      intro hmem
      obtain ⟨v, hv, rfl⟩ := List.mem_map.mp hmem
      have hne := List.lookup_eq_none_iff.mp hlookup v hv
      simp at hne
    rw [if_neg hkey, Option.none_or]
  | some value =>
    have hkey : key ∈ vs.map Prod.fst := by
      have hsome : (vs.lookup key).isSome = true := Option.isSome_of_eq_some hlookup
      obtain ⟨v, hv, heq⟩ := List.lookup_isSome_iff.mp hsome
      exact List.mem_map.mpr ⟨v, hv, (beq_iff_eq.mp heq).symm⟩
    rw [if_pos hkey, Option.some_or, captured, hlookup, Option.getD_some]

section Chain

variable {env : Env} (henv : env.ctre = Ctre.pcre)
include henv

theorem startsWith_pattern (P : Pattern) (input : List Char) :
    env.ctre.startsWith (re P.text) input =
      (splits P.segments input).head?.map fun m =>
        ⟨input.length - m.2.length, captured m.1⟩ := by
  rw [henv]
  exact startsWith_text P.valid input

theorem follow_chain (chain : List Pattern) (input : List Char) :
    Entry.follow env.ctre (chain.map Pattern.text) input = some [] ↔
      (readChain chain input).isSome = true := by
  induction chain generalizing input with
  | nil => cases input <;> simp [Entry.follow, readChain]
  | cons P chain ih =>
    rw [List.map_cons, Entry.follow, startsWith_pattern henv, readChain]
    cases hhead : (splits P.segments input).head? with
    | none => simp
    | some m =>
      obtain ⟨t, -, ht⟩ := mem_splits.mp (List.mem_of_head? hhead)
      have hdrop : input.drop (input.length - m.2.length) = m.2 := by
        rw [ht]
        simp
      rw [Option.map_some, Option.bind_some, Option.bind_some, Option.isSome_map, hdrop]
      exact ih m.2

theorem descend_chain {chain : List Pattern} {req : Request} {vs : Values}
    (h : readChain chain req.remaining = some vs) :
    ∃ req', Entry.descend env (chain.map Pattern.text) req = some req' ∧ req'.raw = req.raw ∧
      ∀ key, req'.params.get key = (vs.lookup key).or (req.params.get key) := by
  induction chain generalizing req vs with
  | nil =>
    cases hrem : req.remaining with
    | nil =>
      rw [hrem] at h
      obtain rfl := Option.some.inj h
      exact ⟨req, rfl, rfl, fun key => rfl⟩
    | cons c path =>
      rw [hrem] at h
      cases h
  | cons P chain ih =>
    obtain ⟨m, hhead, htail⟩ := Option.bind_eq_some_iff.mp h
    obtain ⟨ws, hws, rfl⟩ := Option.map_eq_some_iff.mp htail
    obtain ⟨t, hinst, ht⟩ := mem_splits.mp (List.mem_of_head? hhead)
    have hengine := startsWith_pattern henv P req.remaining
    rw [hhead, Option.map_some] at hengine
    have hdrop : req.remaining.drop (req.remaining.length - m.2.length) = m.2 := by
      rw [ht]
      simp
    have hparams := get_bindParams (env.ctre.names (re P.text)) (captured m.1) req.params
    have hnames : env.ctre.names (re P.text) = m.1.map Prod.fst := by
      rw [henv, hinst.names_eq]
      exact names_text P.valid
    have hrest : readChain chain (bindRequest env P.text
        ⟨req.remaining.length - m.2.length, captured m.1⟩ req).remaining = some ws := by
      rw [← hws]
      exact congrArg _ hdrop
    obtain ⟨req', hreq', hraw, hget⟩ := ih hrest
    refine ⟨req', ?_, hraw, ?_⟩
    · rw [List.map_cons, Entry.descend, hengine, Option.bind_some]
      exact hreq'
    · intro key
      rw [hget, List.lookup_append, Option.or_assoc, lookup_or m.1, ← hnames]
      exact congrArg _ (hparams key)

end Chain

/-! ## One request -/

section Dispatch

variable {env : Env} (henv : env.ctre = Ctre.pcre) {beast : Beast} {site : Site} {t : Tree}

include henv in
theorem accepts_entry (r : Route) (v : Verb) (path : List Char) :
    r.entry.accepts env.ctre v path = (r.read v path).isSome := by
  rw [Bool.eq_iff_iff, Entry.accepts, Bool.and_eq_true, decide_eq_true_eq, decide_eq_true_eq,
    Route.entry, follow_chain henv, Route.read]
  split_ifs with hv
  · simp [hv]
  · simp [hv]

include henv in
theorem find_entry (site : Site) (v : Verb) (path : List Char) :
    ((site.map Route.entry).find? fun e => e.accepts env.ctre v path) =
      (site.find v path).map fun found => found.1.entry := by
  induction site with
  | nil => rfl
  | cons r site ih =>
    rw [List.map_cons, List.find?_cons, accepts_entry henv, Site.find, List.findSome?_cons]
    cases hread : r.read v path with
    | none => exact ih
    | some vs => rfl

theorem Site.find_read {v : Verb} {path : List Char} {r : Route} {vs : Values}
    (h : site.find v path = some (r, vs)) : r.read v path = some vs := by
  obtain ⟨q, -, hq⟩ := List.exists_of_findSome?_eq_some h
  obtain ⟨ws, hws, heq⟩ := Option.map_eq_some_iff.mp hq
  obtain ⟨rfl, rfl⟩ := Prod.mk.inj heq
  exact hws

theorem Response.perform_reply {calls : List Call} (h : calls.countP Call.sends = 1)
    {r : Response} (hr : r.sender = true) :
    r.perform false calls = ⟨[.wrote (r.reply calls)], .returned true⟩ := by
  induction calls generalizing r with
  | nil => simp at h
  | cons call calls ih =>
    cases call with
    | status code => exact ih (by simpa [Call.sends] using h) hr
    | header key value => exact ih (by simpa [Call.sends] using h) hr
    | contentType type => exact ih (by simpa [Call.sends] using h) hr
    | send data =>
      rw [List.countP_cons_of_pos rfl] at h
      rw [perform, send_alive hr, perform_silent (by omega)]
      rfl
    | json data =>
      rw [List.countP_cons_of_pos rfl] at h
      rw [perform, send_alive (r := r.contentType _) hr, perform_silent (by omega)]
      rfl

/-- A handler that answers or fails makes `server_fault_mw` write the reply of its script. -/
theorem Handler.run_reply {h : Handler} {req : Request} {resp : Response} (verb : Verb)
    (hs : (h.script req).Answers ∨ (h.script req).Fails) (hresp : resp.sender = true) :
    let run := (h.run verb req resp).orElse (answerFault resp)
    run.writes = [(h.script req).reply resp] ∧ ∃ res, run.outcome = .returned res := by
  rcases hs with hs | hs
  · have hrun : h.run verb req resp =
        ⟨[.ran verb h.name req, .wrote ((h.script req).reply resp)], .returned true⟩ := by
      rw [Handler.run, Script.reply, hs.1, Response.perform_reply hs.2 hresp]
      rfl
    rw [hrun, Run.orElse_of_ne (by simp)]
    exact ⟨rfl, true, rfl⟩
  · rw [Handler.run_fails verb resp hs, Run.orElse_threw rfl, answerFault_sends hresp,
      Script.reply, hs.1]
    exact ⟨rfl, false, rfl⟩

variable (beast) in
include henv in
/-- Behind the two guards a request is answered as the site says. -/
theorem handleRequest_site (hsite : site.Describes t) (raw : StrRequest) :
    let run := handleRequest beast ((guarded t).routable env) raw
    run.writes = [site.answer beast raw] ∧ ∃ res, run.outcome = .returned res := by
  have hlookup : t.lookup env.ctre raw.method raw.target =
      (site.find raw.method raw.target).map fun found => found.1.entry := by
    rw [Tree.lookup, hsite.entries]
    exact find_entry henv site raw.method raw.target
  have hmatch : (t.routable env).isMatch raw.method raw.target =
      (site.find raw.method raw.target).isSome := by
    rw [Tree.isMatch_eq, hlookup, Option.isSome_map]
  cases hraw : badTarget raw.target with
  | true =>
    rw [handleRequest_bad hraw, Site.answer, if_pos hraw]
    exact ⟨rfl, true, rfl⟩
  | false =>
    rw [handleRequest_good hraw, Site.answer, if_neg (by simp [hraw])]
    cases hfind : site.find raw.method raw.target with
    | none =>
      rw [hfind] at hmatch
      rw [guarded_miss (Request.ofRaw raw) rfl (freshResponse_sender beast raw) hmatch]
      exact ⟨rfl, false, rfl⟩
    | some found =>
      obtain ⟨r, vs⟩ := found
      rw [hfind] at hmatch hlookup
      have hread := Site.find_read hfind
      rw [Route.read] at hread
      split_ifs at hread with hverb
      replace hread : readChain r.chain (Request.ofRaw raw).remaining = some vs := hread
      obtain ⟨req, hreq, hraw, hparams⟩ := descend_chain henv hread
      have hvalues : req.params.get = fun key => vs.lookup key := by
        funext key
        rw [hparams, Request.ofRaw, Object.get_ofKeys, if_neg List.not_mem_nil, Option.or_none]
      have hscript : r.entry.handler.script req = r.page raw fun key => vs.lookup key := by
        rw [← hvalues]
        exact congrArg (r.page · _) hraw
      rw [guarded_match (Request.ofRaw raw) rfl hmatch,
        Tree.call_eq hsite.passes (Request.ofRaw raw) _ hlookup, Entry.run]
      simp only [Route.entry] at hreq ⊢
      rw [hreq, ← hscript]
      exact Handler.run_reply r.verb (r.behaves _ _) (freshResponse_sender beast raw)

/-! ## Connections -/

include henv in
/-- The guarded server of a site is the site, on every connection. -/
theorem doSession_site (hsite : site.Describes t) (requests : List StrRequest) :
    doSession beast ((guarded t).routable env) requests = site.serve beast requests := by
  rw [doSession]
  generalize false = close
  induction requests generalizing close with
  | nil => rfl
  | cons raw rest ih =>
    obtain ⟨hwrites, res, hres⟩ := handleRequest_site henv beast hsite raw
    rw [sessionLoop, Site.serve, hwrites, hres]
    simp only [closeAfter, List.foldl_cons, List.foldl_nil, List.map_cons, List.map_nil, ih]
    rfl

include henv in
/-- A process that serves a site stays up, and shows each client the answers of the site as far as
the connection takes them, all of them once its session is over. -/
theorem Process.serves_site (hsite : site.Describes t) {guards : List Guard}
    (hguards : .notFound ∈ guards ∧ .serverFault ∈ guards) {labels : List Label} {p : Process}
    (h : Process.Run env beast (stack guards t) .start labels p) :
    p.up = true ∧ ∀ (i : ℕ) (client : Client), (clients labels)[i]? = some client →
      ∃ s, p.sessions[i]? = some s ∧
        shown i labels <+: cutIo client.takes (site.serve beast client.requests) ∧
        (s = .ended → shown i labels = cutIo client.takes (site.serve beast client.requests)) := by
  have hroot : ∀ raw, handleRequest beast ((stack guards t).routable env) raw =
      handleRequest beast ((guarded t).routable env) raw := by
    intro raw
    rw [stack_guarded hguards.1 hguards.2]
  replace h := Process.run_congr hroot h
  refine ⟨Process.survives_of_root env beast rfl labels p h, ?_⟩
  intro i client hi
  rw [← doSession_site henv hsite]
  exact Process.shows h hi

end Dispatch

def helloRoute : Route where
  chain := [helloPattern]
  verb := .get
  name := 0
  page _ values := ⟨[.send ("Hello from v60, ".toList ++ (values "name".toList).getD [])], false⟩
  behaves _ _ := Or.inl ⟨rfl, rfl⟩

/-- A request for the route, and one for none. -/
def siteClient : Client := ⟨[v60Request, pageRequest], 2⟩

theorem Process.serves_site_hello :
    let root := stack [.serverFault, .profile, .notFound] (Entry.routes [helloRoute.entry])
    ∃ labels p, Process.Run (pcreEnv .debug) .reference root .start labels p ∧ p.up = true ∧
      shown 0 labels = cutIo 2 (Site.serve .reference [helloRoute] siteClient.requests) ∧
      (responses (shown 0 labels)).map StrResponse.result = [200, 404] := by
  intro root
  have halive : ∀ client ∈ [siteClient], ∀ raw ∈ client.requests,
      (handleRequest .reference (root.routable (pcreEnv .debug)) raw).outcome ≠ .aborted := by
    decide +kernel
  obtain ⟨labels, p, hrun, hclients, -, hsessions, -⟩ :=
    Process.run_ended (pcreEnv .debug) .reference root [siteClient] halive
  have hguards : .notFound ∈ [Guard.serverFault, .profile, .notFound] ∧
      .serverFault ∈ [Guard.serverFault, .profile, .notFound] := ⟨by decide, by decide⟩
  have hserves := Process.serves_site (rfl : (pcreEnv .debug).ctre = Ctre.pcre)
    (Site.routes_describes [helloRoute]) hguards hrun
  obtain ⟨s, hs, -, hall⟩ := hserves.2 0 siteClient (by rw [hclients]; rfl)
  rw [hsessions] at hs
  have hshown := hall (Option.some.inj hs).symm
  refine ⟨labels, p, hrun, hserves.1, hshown, ?_⟩
  rw [hshown]
  decide +kernel

end V60
