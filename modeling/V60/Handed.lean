import V60.Enrichment
import V60.Settled
import V60.Visits

/-!
# What a handler is handed

A way down a tree is one of its end points with the patterns and the parsers over
it. As long as no route of a group is called after one that declined, the handler
that is called is the one at the end of the first way whose patterns take the path,
and what it is handed is the request that was read, as the layers of that way enrich
it, however many groups and middlewares stand between (`Process.handed`).
-/

namespace V60

theorem chainMatch_eq {env : Env} {v : Verb} {input : List Char} (chain : List (List Char))
    (verb : Verb) (handler : Handler) :
    chainMatch env verb chain v input =
      (⟨chain, verb, handler⟩ : Entry).accepts env.ctre v input := by
  rw [Entry.accepts]
  induction chain generalizing input with
  | nil => cases input <;> simp [chainMatch, Entry.follow]
  | cons path chain ih =>
    rw [chainMatch, Entry.follow]
    cases env.ctre.startsWith (re path) input with
    | none => simp
    | some m => exact ih

/-- An end point with the layers over it, outermost first. -/
structure Way where
  layers : List Layer
  verb : Verb
  handler : Handler

namespace Way

def under (layers : List Layer) (w : Way) : Way := { w with layers := layers ++ w.layers }

def entry (w : Way) : Entry := ⟨paths w.layers, w.verb, w.handler⟩

def takes (env : Env) (v : Verb) (input : List Char) (w : Way) : Bool :=
  chainMatch env w.verb (paths w.layers) v input

variable {env : Env} {v : Verb} {input : List Char}

theorem takes_eq (w : Way) : w.takes env v input = w.entry.accepts env.ctre v input :=
  chainMatch_eq (paths w.layers) w.verb w.handler

theorem takes_bind_some {path : List Char} {m : Match}
    (h : env.ctre.startsWith (re path) input = some m) (w : Way) :
    (w.under [.bind path]).takes env v input = w.takes env v (input.drop m.len) := by
  rw [takes_eq, takes_eq]
  exact Entry.accepts_under_some h v w.entry

end Way

/-- What a middleware adds to a way. -/
def Mw.layers : Mw → List Layer
  | .cookieParser keys => [.cookies keys]
  | .objectBody keys => [.body keys]
  | .logging | .profile | .notFound | .serverFault => []

theorem Mw.paths_layers (mw : Mw) : paths mw.layers = [] := by
  cases mw with
  | logging | profile | notFound | serverFault => rfl
  | cookieParser keys => rfl
  | objectBody keys => rfl

theorem Way.under_mw_entry (mw : Mw) (w : Way) : (w.under mw.layers).entry = w.entry := by
  have hpaths : paths (w.under mw.layers).layers = paths mw.layers ++ paths w.layers :=
    List.filterMap_append
  rw [entry, hpaths, mw.paths_layers, List.nil_append]
  rfl

namespace Tree

mutual

def ways : Tree → List Way
  | .endPoint method fn => [⟨[], method, fn⟩]
  | .binding path next => next.ways.map (Way.under [.bind path])
  | .group routes => waysRoutes routes
  | .use mw next => next.ways.map (Way.under mw.layers)

def waysRoutes : List Tree → List Way
  | [] => []
  | t :: ts => t.ways ++ waysRoutes ts

end

theorem waysRoutes_eq (ts : List Tree) : waysRoutes ts = ts.flatMap ways := by
  induction ts with
  | nil => rfl
  | cons t ts ih => rw [waysRoutes, ih, List.flatMap_cons]

/-- The ways of a tree are its entries, with the parsers on them. -/
theorem ways_entries (t : Tree) : t.ways.map Way.entry = t.entries := by
  induction t using Tree.induct with
  | endPoint method fn => rfl
  | binding path next ih =>
    rw [ways, entries, ← ih, List.map_map, List.map_map]
    rfl
  | group routes ih =>
    rw [ways, entries, waysRoutes_eq, routesEntries_eq, List.map_flatMap]
    exact List.flatMap_congr ih
  | use mw next ih =>
    rw [ways, entries, ← ih, List.map_map]
    exact List.map_congr_left fun w _ => Way.under_mw_entry mw w

/-- The first way whose patterns take the path. -/
def way (env : Env) (t : Tree) (v : Verb) (input : List Char) : Option Way :=
  t.ways.find? fun w => w.takes env v input

section Way

variable {env : Env} {v : Verb} {input : List Char}

theorem isMatch_way (t : Tree) :
    (t.routable env).isMatch v input = (t.way env v input).isSome := by
  have hlookup : t.lookup env.ctre v input = (t.way env v input).map Way.entry := by
    rw [lookup, ← ways_entries, List.find?_map, way]
    exact congrArg (Option.map Way.entry) (congrArg (List.find? · t.ways)
      (funext fun w => (Way.takes_eq w).symm))
  rw [isMatch_eq, hlookup, Option.isSome_map]

theorem way_bind_some {path : List Char} {m : Match}
    (h : env.ctre.startsWith (re path) input = some m) (next : Tree) :
    (Tree.binding path next).way env v input =
      (next.way env v (input.drop m.len)).map (Way.under [.bind path]) := by
  rw [way, ways, List.find?_map, way]
  exact congrArg (Option.map _) (congrArg (List.find? · next.ways)
    (funext fun w => Way.takes_bind_some h w))

theorem way_bind_none {path : List Char} (h : env.ctre.startsWith (re path) input = none)
    (next : Tree) : (Tree.binding path next).way env v input = none := by
  rw [← Option.not_isSome_iff_eq_none, ← isMatch_way, routable, binding_isMatch_none h]
  exact Bool.false_ne_true

theorem way_use (mw : Mw) (next : Tree) :
    (Tree.use mw next).way env v input = (next.way env v input).map (Way.under mw.layers) := by
  rw [way, ways, List.find?_map, way]
  refine congrArg (Option.map _) (congrArg (List.find? · next.ways) (funext fun w => ?_))
  rw [Function.comp_apply, Way.takes_eq, Way.under_mw_entry, ← Way.takes_eq]

end Way

/-- What the handler at the end of this way is handed for a request. -/
structure Handed (env : Env) (t : Tree) (req : Request) (w : Way) (r : Request) : Prop where
  mem : w ∈ t.ways
  first : ∀ w' ∈ t.way env req.method req.remaining, w' = w
  enriched : enrich env w.verb w.layers req = some r

/-- Every handler a run calls is the one of some way, on what that way hands it. -/
def HandsOut (env : Env) (t : Tree) (req : Request) (run : Run) : Prop :=
  ∀ x ∈ run.handlers, ∃ w r, t.Handed env req w r ∧ x = (w.verb, w.handler.name, r)

section Handed

variable {env : Env} {path : List Char} {next : Tree} {req req' r : Request} {w : Way} {run : Run}

theorem HandsOut.of_handlers (h : run.handlers = []) : next.HandsOut env req run := by
  intro x hx
  rw [h] at hx
  exact absurd hx List.not_mem_nil

/-- A binding only looks at the match of the next route to assert it. -/
theorem bindStep_congr {isMatch isMatch' : Verb → List Char → Bool}
    (h : bindStep env path isMatch req = .ok req')
    (hmatch : ∀ m, env.ctre.startsWith (re path) req.remaining = some m →
      isMatch req.method (req.remaining.drop m.len) = true →
        isMatch' req.method (req.remaining.drop m.len) = true) :
    bindStep env path isMatch' req = .ok req' := by
  rw [bindStep_eq] at h ⊢
  split_ifs at h with hasserts
  rw [if_neg, h]
  intro hfails
  rw [Bool.and_eq_true, Bool.not_eq_true'] at hasserts hfails
  refine hasserts ⟨hfails.1, ?_⟩
  cases hm : env.ctre.startsWith (re path) req.remaining with
  | none => rfl
  | some m =>
    rw [hm, Option.elim_some] at hfails
    rw [Option.elim_some, ← Bool.not_eq_true]
    intro hnext
    rw [hmatch m hm hnext] at hfails
    exact Bool.noConfusion hfails.2

theorem bindStep_rest {isMatch : Verb → List Char → Bool} {m : Match}
    (h : bindStep env path isMatch req = .ok req')
    (hm : env.ctre.startsWith (re path) req.remaining = some m) :
    req'.method = req.method ∧ req'.remaining = req.remaining.drop m.len := by
  have hfrom := bindStep_boundFrom h
  have hlen : m.len < 0x80000000 := lt_of_le_of_lt (env.ctre.len_le hm) req.remaining_lt
  have hremaining := hfrom.remaining
  simp only [bindMatch, hm, Request.castInt_of_lt hlen, Int.toNat_natCast] at hremaining
  exact ⟨congrArg StrRequest.method hfrom.raw, hremaining⟩

theorem Handed.under_bind (hstep : bindStep env path (next.routable env).isMatch req = .ok req')
    (h : next.Handed env req' w r) :
    (Tree.binding path next).Handed env req (w.under [.bind path]) r where
  mem := List.mem_map_of_mem h.mem
  first w' hw' := by
    cases hm : env.ctre.startsWith (re path) req.remaining with
    | none =>
      rw [way_bind_none hm] at hw'
      cases hw'
    | some m =>
      obtain ⟨hmethod, hremaining⟩ := bindStep_rest hstep hm
      rw [way_bind_some hm, ← hmethod, ← hremaining] at hw'
      obtain ⟨w'', hw'', rfl⟩ := Option.map_eq_some_iff.mp hw'
      rw [h.first w'' hw'']
  enriched := by
    -- the way is the first below, so that its own patterns match where the assertion holds
    have hown : bindStep env path (chainMatch env w.verb (paths w.layers)) req = .ok req' := by
      apply bindStep_congr hstep
      intro m hm hnext
      obtain ⟨hmethod, hremaining⟩ := bindStep_rest hstep hm
      rw [isMatch_way, Option.isSome_iff_exists] at hnext
      obtain ⟨w', hw'⟩ := hnext
      have htakes := List.find?_some hw'
      rw [← hmethod, ← hremaining] at hw'
      rwa [h.first w' hw'] at htakes
    have hlayers : (w.under [.bind path]).layers = .bind path :: w.layers := rfl
    rw [hlayers, enrich_bind]
    simp only [Way.under, hown]
    exact h.enriched

theorem Handed.under_mw (h : next.Handed env req' w r) (mw : Mw) (hraw : req'.raw = req.raw)
    (hremaining : req'.remaining = req.remaining)
    (henrich : ∀ verb layers,
      enrich env verb (mw.layers ++ layers) req = enrich env verb layers req') :
    (Tree.use mw next).Handed env req (w.under mw.layers) r where
  mem := List.mem_map_of_mem h.mem
  first w' hw' := by
    rw [way_use, ← hremaining, Request.method, ← hraw] at hw'
    obtain ⟨w'', hw'', rfl⟩ := Option.map_eq_some_iff.mp hw'
    rw [h.first w'' hw'']
  enriched := (henrich w.verb w.layers).trans h.enriched

theorem Handed.skip {t : Tree} {ts : List Tree}
    (hskip : (t.routable env).isMatch req.method req.remaining = false)
    (h : (Tree.group ts).Handed env req w r) : (Tree.group (t :: ts)).Handed env req w r where
  mem := List.mem_append_right t.ways h.mem
  first w' hw' := by
    rw [isMatch_way, Option.isSome_eq_false_iff, Option.isNone_iff_eq_none, way] at hskip
    rw [way, ways, waysRoutes, List.find?_append, hskip, Option.none_or] at hw'
    exact h.first w' hw'
  enriched := h.enriched

theorem Handed.take {t : Tree} {ts : List Tree}
    (htake : (t.routable env).isMatch req.method req.remaining = true)
    (h : t.Handed env req w r) : (Tree.group (t :: ts)).Handed env req w r where
  mem := List.mem_append_left _ h.mem
  first w' hw' := by
    rw [isMatch_way, Option.isSome_iff_exists] at htake
    obtain ⟨w'', hw''⟩ := htake
    have hfirst := h.first w'' hw''
    rw [way] at hw''
    rw [way, ways, waysRoutes, List.find?_append, hw'', Option.some_or] at hw'
    exact (Option.some.inj hw').symm.trans hfirst
  enriched := h.enriched

-- a steady route that is called does not decline, and the last has no other after it
theorem group_handsOut {routes : List Tree} (hsettled : SettledRoutes routes)
    (ih : ∀ t ∈ routes, ∀ resp, t.HandsOut env req ((t.routable env).call req resp))
    (resp : Response) :
    (Tree.group routes).HandsOut env req (((Tree.group routes).routable env).call req resp) := by
  simp only [routable, routables_eq, V60.group]
  induction routes with
  | nil => exact .of_handlers rfl
  | cons t ts ihts =>
    rw [List.map_cons]
    cases hm : (t.routable env).isMatch req.method req.remaining with
    | false =>
      rw [groupCall_skip _ hm]
      intro x hx
      obtain ⟨w, r, hw, rfl⟩ :=
        ihts hsettled.2.2 (fun t hmem => ih t (List.mem_cons_of_mem _ hmem)) x hx
      exact ⟨w, r, hw.skip hm, rfl⟩
    | true =>
      have hfirst : (Tree.group (t :: ts)).HandsOut env req ((t.routable env).call req resp) := by
        intro x hx
        obtain ⟨w, r, hw, rfl⟩ := ih t List.mem_cons_self resp x hx
        exact ⟨w, r, hw.take hm, rfl⟩
      by_cases hne : ((t.routable env).call req resp).outcome = .returned false
      · cases ts with
        | nil =>
          intro x hx
          rw [groupCall_decline _ hm hne, List.map_nil, groupCall, Run.handlers_after] at hx
          exact hfirst x (by simpa [Run.done, Run.handlers] using hx)
        | cons t' ts =>
          have hsteady := hsettled.2.1 (List.cons_ne_nil _ _)
          exact absurd hne (neverDeclines_of_steady hsteady req resp hm)
      · rw [groupCall_take _ hm hne]
        exact hfirst

theorem HandsOut.under_mw (h : next.HandsOut env req' run) (mw : Mw) (hraw : req'.raw = req.raw)
    (hremaining : req'.remaining = req.remaining)
    (henrich : ∀ verb layers,
      enrich env verb (mw.layers ++ layers) req = enrich env verb layers req') :
    (Tree.use mw next).HandsOut env req run := by
  intro x hx
  obtain ⟨w, r, hw, rfl⟩ := h x hx
  exact ⟨_, r, hw.under_mw mw hraw hremaining henrich, rfl⟩

theorem cookieParser_handsOut (keys : List Key)
    (ih : ∀ req resp, next.HandsOut env req ((next.routable env).call req resp))
    (resp : Response) :
    (Tree.use (.cookieParser keys) next).HandsOut env req
      (cookieParserMw keys (next.routable env) req resp) := by
  cases hheader : req.header "Cookie".toList with
  | none =>
    rw [cookieParserMw_none resp hheader]
    exact .of_handlers rfl
  | some header =>
    rw [cookieParserMw_some resp hheader]
    have hnext := ih (req.withMixin (cookieObject keys (parseCookies header))) resp
    refine hnext.under_mw (.cookieParser keys) rfl rfl fun verb layers => ?_
    have hlayers : (Mw.cookieParser keys).layers ++ layers = .cookies keys :: layers := rfl
    rw [hlayers, enrich_cookies, readCookies, hheader]
    rfl

theorem objectBody_handsOut (keys : List Key)
    (ih : ∀ req resp, next.HandsOut env req ((next.routable env).call req resp))
    (resp : Response) :
    (Tree.use (.objectBody keys) next).HandsOut env req
      (objectBodyMw env keys (next.routable env) req resp) := by
  have hlayers : ∀ layers, (Mw.objectBody keys).layers ++ layers = .body keys :: layers :=
    fun _ => rfl
  cases hbody : req.body with
  | object body =>
    rw [objectBodyMw_object resp hbody]
    refine (ih req resp).under_mw (.objectBody keys) rfl rfl fun verb layers => ?_
    have hsame : req.withBody (.object body) = req := by rw [← hbody]; rfl
    rw [hlayers, enrich_body, hbody, readBody, Option.bind_some, hsame]
  | text text =>
    cases hread : env.simdjson keys text with
    | none =>
      rw [objectBodyMw_failed resp hbody hread]
      exact .of_handlers rfl
    | some body =>
      rw [objectBodyMw_read resp hbody hread]
      have hnext := ih (req.withBody (.object body)) resp
      refine hnext.under_mw (.objectBody keys) rfl rfl fun verb layers => ?_
      rw [hlayers, enrich_body, hbody, readBody, hread]
      rfl

theorem use_handsOut (mw : Mw)
    (ih : ∀ req resp, next.HandsOut env req ((next.routable env).call req resp))
    (resp : Response) :
    (Tree.use mw next).HandsOut env req (((Tree.use mw next).routable env).call req resp) := by
  have hnext := ih req resp
  simp only [routable, V60.use]
  cases mw with
  | logging => exact hnext.under_mw .logging rfl rfl fun _ _ => rfl
  | profile => exact hnext.under_mw .profile rfl rfl fun _ _ => rfl
  | notFound =>
    simp only [Mw.call, notFoundMw]
    split_ifs
    · exact hnext.under_mw .notFound rfl rfl fun _ _ => rfl
    · exact .of_handlers (refuse_handlers _ _ _)
  | serverFault =>
    refine HandsOut.under_mw (fun x hx => ?_) .serverFault rfl rfl fun _ _ => rfl
    apply hnext x
    simp only [Mw.call, serverFaultMw] at hx
    by_cases ho : ((next.routable env).call req resp).outcome = .threw
    · rwa [Run.orElse_threw ho, Run.handlers_after, answerFault, refuse_handlers,
        List.append_nil] at hx
    · rwa [Run.orElse_of_ne ho] at hx
  | cookieParser keys => exact cookieParser_handsOut keys ih resp
  | objectBody keys => exact objectBody_handsOut keys ih resp

end Handed

theorem call_handsOut {env : Env} {t : Tree} (ht : t.Settled) (req : Request) (resp : Response) :
    t.HandsOut env req ((t.routable env).call req resp) := by
  induction t using Tree.induct generalizing req resp with
  | endPoint method fn =>
    intro x hx
    rw [routable, endPoint_call, Handler.run_handlers, List.mem_singleton] at hx
    have hway : (Tree.endPoint method fn).ways = [⟨[], method, fn⟩] := rfl
    have henrich : enrich env method [] req = some (req.equip [] req.body) := rfl
    refine ⟨⟨[], method, fn⟩, req, ⟨List.mem_singleton_self _, fun w' hw' => ?_, ?_⟩, hx⟩
    · exact List.mem_singleton.mp (hway ▸ List.mem_of_find?_eq_some hw')
    · rw [henrich, equip_nil]
  | binding path next ih =>
    simp only [routable, V60.binding]
    cases hstep : bindStep env path (next.routable env).isMatch req with
    | error outcome => exact .of_handlers rfl
    | ok req' =>
      intro x hx
      obtain ⟨w, r, hw, rfl⟩ := ih ht req' resp x hx
      exact ⟨_, r, hw.under_bind hstep, rfl⟩
  | group routes ih =>
    exact group_handsOut ht
      (fun t hmem resp => ih t hmem (settled_of_mem ht t hmem) req resp) resp
  | use mw next ih => exact use_handsOut mw (ih ht) resp

end Tree

section Requests

variable {env : Env} {beast : Beast} {t : Tree} {labels : List Label} {p : Process}

theorem handleRequest_handed (ht : t.Settled) {raw : StrRequest} {verb : Verb} {handler : ℕ}
    {req : Request}
    (hran : .ran verb handler req ∈ (handleRequest beast (t.routable env) raw).events) :
    ∃ w, t.Handed env (.ofRaw raw) w req ∧ w.verb = verb ∧ w.handler.name = handler := by
  have hcalled : (verb, handler, req) ∈ (handleRequest beast (t.routable env) raw).handlers :=
    List.mem_filterMap.mpr ⟨_, hran, rfl⟩
  cases hbad : badTarget raw.target with
  | true =>
    rw [handleRequest_bad hbad] at hcalled
    simp [Run.handlers, Run.ran?] at hcalled
  | false =>
    rw [handleRequest_good hbad] at hcalled
    obtain ⟨w, r, hw, heq⟩ := Tree.call_handsOut ht _ _ _ hcalled
    obtain ⟨rfl, rfl, rfl⟩ : verb = w.verb ∧ handler = w.handler.name ∧ req = r := by
      simpa using heq
    exact ⟨w, hw, rfl, rfl⟩

/-- What a session calls between one request and the next is the handler of the first way that the
request fits, if it fits one, on what its layers make of the request. -/
theorem Process.handed (ht : t.Settled) (h : Run env beast t start labels p) {i : ℕ}
    {before after : List Act} {raw : StrRequest} {since : List Event}
    (hacts : Machines.acts i (moves labels) =
      before ++ .read raw :: (since.map .event ++ after))
    {verb : Verb} {handler : ℕ} {req : Request} (hran : .ran verb handler req ∈ since) :
    ∃ w, t.Handed env (.ofRaw raw) w req ∧ w.verb = verb ∧ w.handler.name = handler :=
  handleRequest_handed ht ((run_since h hacts).subset hran)

/-- The process can take a request to one of the handlers it is for. -/
theorem Process.run_ran {raw : StrRequest} {n : ℕ}
    (hran : 0 < (handleRequestOn env beast t raw n).1.handlers.length) :
    ∃ labels p after verb handler req, Run env beast t start labels p ∧
      Machines.acts 0 (moves labels) = [] ++ .read raw ::
        ((handleRequestOn env beast t raw n).1.events.map .event ++ after) ∧
      .ran verb handler req ∈ (handleRequestOn env beast t raw n).1.events := by
  obtain ⟨p, hp⟩ := run_handled env beast t raw n
  obtain ⟨x, hx⟩ := List.exists_mem_of_length_pos hran
  obtain ⟨event, hevent, hx⟩ := List.mem_filterMap.mp hx
  cases event with
  | wrote resp => cases hx
  | ran verb handler req =>
    exact ⟨_, p, _, verb, handler, req, hp, acts_requestLabels raw n _, hevent⟩

end Requests

theorem Process.handed_name :
    let raw := helloRequest "name=v60"
    let run := (handleRequestOn (pcreEnv .debug) .reference textRoutes raw 1).1
    ∃ labels p after verb handler req,
      Run (pcreEnv .debug) .reference textRoutes start labels p ∧
        Machines.acts 0 (moves labels) = [] ++ .read raw :: (run.events.map .event ++ after) ∧
        .ran verb handler req ∈ run.events ∧
        ∃ w, textRoutes.Handed (pcreEnv .debug) (.ofRaw raw) w req ∧ w.verb = verb ∧
          w.handler.name = handler := by
  intro raw run
  have hone : run.handlers.length = 1 := by decide +kernel
  obtain ⟨labels, p, after, verb, handler, req, hp, hacts, hran⟩ := run_ran (hone ▸ Nat.one_pos)
  exact ⟨labels, p, after, verb, handler, req, hp, hacts, hran,
    handed settled_textRoutes hp hacts hran⟩

end V60
