import V60.GuardedDispatch

/-!
# Enrichment of requests

A chain of bindings with the two parsers anywhere along it hands its handler
the request it was called with, in which only the rest of the path, the
parameters, the cookies and the body are other ones. `enrich` is what the chain
makes of the request, read off the patterns and the parsers apart, so that it
does not matter where along the chain the parsers stand.
-/

namespace V60

inductive Layer where
  | bind (path : List Char)
  | cookies (keys : List Key)
  | body (keys : List Key)

namespace Layer

def wrap : Layer → Tree → Tree
  | .bind path, next => .binding path next
  | .cookies keys, next => .use (.cookieParser keys) next
  | .body keys, next => .use (.objectBody keys) next

def path? : Layer → Option (List Char)
  | .bind path => some path
  | .cookies _ | .body _ => none

def cookieKeys? : Layer → Option (List Key)
  | .cookies keys => some keys
  | .bind _ | .body _ => none

def bodyKeys? : Layer → Option (List Key)
  | .body keys => some keys
  | .bind _ | .cookies _ => none

end Layer

/-- The layers over an end point, outermost first. -/
def chain (layers : List Layer) (verb : Verb) (fn : Handler) : Tree :=
  layers.foldr Layer.wrap (.endPoint verb fn)

abbrev paths (layers : List Layer) : List (List Char) := layers.filterMap Layer.path?

abbrev cookieKeys (layers : List Layer) : List (List Key) := layers.filterMap Layer.cookieKeys?

abbrev bodyKeys (layers : List Layer) : List (List Key) := layers.filterMap Layer.bodyKeys?

section Enrich

variable (env : Env) (verb : Verb)

/-- What the bindings of these patterns over an end point answer. -/
def chainMatch : List (List Char) → Verb → List Char → Bool
  | [], v, input => v = verb && input.isEmpty
  | path :: paths, v, input =>
    match env.ctre.startsWith (re path) input with
    | none => false
    | some m => chainMatch paths v (input.drop m.len)

def bindAll : List (List Char) → Request → Option Request
  | [], req => some req
  | path :: paths, req =>
    match bindStep env path (chainMatch env verb paths) req with
    | .ok req => bindAll paths req
    | .error _ => none

def readCookies (req : Request) (keys : List Key) : Option (Object (List Char)) :=
  (req.header "Cookie".toList).map fun header => cookieObject keys (parseCookies header)

def readBody (body : Body) (keys : List Key) : Option Body :=
  match body with
  | .object _ => some body
  | .text text => (env.simdjson keys text).map .object

def Request.equip (req : Request) (cookies : List (Object (List Char))) (body : Body) : Request :=
  { req with cookies := req.cookies ++ cookies, body := body }

def enrich (layers : List Layer) (req : Request) : Option Request := do
  let cookies ← (cookieKeys layers).mapM (readCookies req)
  let body ← (bodyKeys layers).foldlM (readBody env) req.body
  bindAll env verb (paths layers) (req.equip cookies body)

end Enrich

section Steps

variable {env : Env} {verb : Verb}

theorem chain_isMatch (layers : List Layer) (fn : Handler) (v : Verb) (input : List Char) :
    ((chain layers verb fn).routable env).isMatch v input =
      chainMatch env verb (paths layers) v input := by
  induction layers generalizing input with
  | nil => rfl
  | cons layer layers ih =>
    cases layer with
    | bind path =>
      have hchain : (chain (.bind path :: layers) verb fn).routable env =
          binding env path ((chain layers verb fn).routable env) := rfl
      have hpaths : paths (.bind path :: layers) = path :: paths layers := rfl
      rw [hchain, hpaths, chainMatch]
      cases hm : env.ctre.startsWith (re path) input with
      | none => exact binding_isMatch_none hm
      | some m => rw [binding_isMatch_some hm, ih]
    | cookies keys => exact ih input
    | body keys => exact ih input

/-- The length and the captured texts a binding goes on with; without a match and without `assert`
the texts are empty views. -/
def bindMatch (env : Env) (path remaining : List Char) : ℤ × (Key → List Char) :=
  match env.ctre.startsWith (re path) remaining with
  | some m => (m.len, m.captured)
  | none => (env.build.wild remaining, fun _ => [])

theorem bindStep_eq (path : List Char) (next : Verb → List Char → Bool) (req : Request) :
    bindStep env path next req =
      if env.build.asserts && !(env.ctre.startsWith (re path) req.remaining).elim false
          fun m => next req.method (req.remaining.drop m.len) then .error .aborted
      else
        ((req.withParams (bindParams (env.ctre.names (re path))
          (bindMatch env path req.remaining).2 req.params)).consume
          (Request.castInt (bindMatch env path req.remaining).1)).elim (.error .threw) .ok := by
  unfold bindStep bindMatch
  cases env.ctre.startsWith (re path) req.remaining with
  | none =>
    simp only [Option.elim_none, Bool.not_false, Bool.and_true]
    cases Request.consume _ _ <;> rfl
  | some m =>
    simp only [Option.elim_some]
    cases Request.consume _ _ <;> rfl

@[simp] theorem equip_remaining (req : Request) (cookies : List (Object (List Char)))
    (body : Body) : (req.equip cookies body).remaining = req.remaining := rfl

@[simp] theorem equip_method (req : Request) (cookies : List (Object (List Char)))
    (body : Body) : (req.equip cookies body).method = req.method := rfl

@[simp] theorem equip_params (req : Request) (cookies : List (Object (List Char)))
    (body : Body) : (req.equip cookies body).params = req.params := rfl

theorem equip_withParams (req : Request) (params : Object (List Char))
    (cookies : List (Object (List Char))) (body : Body) :
    (req.equip cookies body).withParams params = (req.withParams params).equip cookies body := rfl

theorem consume_equip (req : Request) (n : ℤ) (cookies : List (Object (List Char)))
    (body : Body) :
    (req.equip cookies body).consume n = (req.consume n).map fun r => r.equip cookies body := by
  unfold Request.consume
  by_cases hn : 0 ≤ n ∧ n ≤ req.remaining.length
  · rw [if_pos hn, if_pos (show 0 ≤ n ∧ n ≤ (req.equip cookies body).remaining.length from hn)]
    rfl
  · rw [if_neg hn, if_neg (show ¬(0 ≤ n ∧ n ≤ (req.equip cookies body).remaining.length) from hn)]
    rfl

/-- A binding reads nothing of the cookies and the body, and hands them on. -/
theorem bindStep_equip (path : List Char) (next : Verb → List Char → Bool) (req : Request)
    (cookies : List (Object (List Char))) (body : Body) :
    bindStep env path next (req.equip cookies body) =
      (bindStep env path next req).map fun r => r.equip cookies body := by
  rw [bindStep_eq, bindStep_eq]
  simp only [equip_remaining, equip_method, equip_params, equip_withParams, consume_equip]
  split_ifs
  · rfl
  · cases Request.consume _ _ <;> rfl

structure BoundFrom (env : Env) (path : List Char) (req r : Request) : Prop where
  raw : r.raw = req.raw
  body : r.body = req.body
  cookies : r.cookies = req.cookies
  params : r.params =
    bindParams (env.ctre.names (re path)) (bindMatch env path req.remaining).2 req.params
  remaining : r.remaining =
    req.remaining.drop (Request.castInt (bindMatch env path req.remaining).1).toNat

theorem bindStep_boundFrom {path : List Char} {next : Verb → List Char → Bool} {req r : Request}
    (h : bindStep env path next req = .ok r) : BoundFrom env path req r := by
  rw [bindStep_eq] at h
  unfold Request.consume at h
  split_ifs at h
  · obtain rfl := Except.ok.inj h
    exact ⟨rfl, rfl, rfl, rfl, rfl⟩
  · cases h

/-- The rest of the path that a chain of bindings leaves to the next one. -/
def restAfter (env : Env) : List (List Char) → List Char → List Char
  | [], remaining => remaining
  | path :: paths, remaining =>
    restAfter env paths (remaining.drop (Request.castInt (bindMatch env path remaining).1).toNat)

theorem bindAll_frame {paths : List (List Char)} {req r : Request}
    (h : bindAll env verb paths req = some r) :
    r.raw = req.raw ∧ r.body = req.body ∧ r.cookies = req.cookies := by
  induction paths generalizing req with
  | nil =>
    obtain rfl := Option.some.inj h
    exact ⟨rfl, rfl, rfl⟩
  | cons path paths ih =>
    rw [bindAll] at h
    split at h
    · rename_i r' hstep
      have hfrom := bindStep_boundFrom hstep
      obtain ⟨hraw, hbody, hcookies⟩ := ih h
      exact ⟨hraw.trans hfrom.raw, hbody.trans hfrom.body, hcookies.trans hfrom.cookies⟩
    · cases h

/-- A name that the patterns do not have keeps its value. -/
theorem bindAll_other {paths : List (List Char)} {req r : Request}
    (h : bindAll env verb paths req = some r) {name : Key}
    (hname : ∀ path ∈ paths, name ∉ env.ctre.names (re path)) :
    r.params.get name = req.params.get name := by
  induction paths generalizing req with
  | nil =>
    obtain rfl := Option.some.inj h
    rfl
  | cons path paths ih =>
    rw [bindAll] at h
    split at h
    · rename_i r' hstep
      rw [ih h fun q hq => hname q (List.mem_cons_of_mem path hq),
        (bindStep_boundFrom hstep).params, get_bindParams,
        if_neg (hname path List.mem_cons_self)]
    · cases h

theorem bindAll_innermost {outer inner : List (List Char)} {path : List Char} {req r : Request}
    (h : bindAll env verb (outer ++ path :: inner) req = some r) {name : Key}
    (hname : name ∈ env.ctre.names (re path))
    (hinner : ∀ q ∈ inner, name ∉ env.ctre.names (re q)) :
    r.params.get name =
      some ((bindMatch env path (restAfter env outer req.remaining)).2 name) := by
  induction outer generalizing req with
  | nil =>
    rw [List.nil_append, bindAll] at h
    split at h
    · rename_i r' hstep
      rw [bindAll_other h hinner, (bindStep_boundFrom hstep).params, get_bindParams, if_pos hname]
      rfl
    · cases h
  | cons q outer ih =>
    rw [List.cons_append, bindAll] at h
    split at h
    · rename_i r' hstep
      rw [ih h, (bindStep_boundFrom hstep).remaining]
      rfl
    · cases h

end Steps

section Chain

variable {env : Env} {verb : Verb}

theorem equip_nil (req : Request) : req.equip [] req.body = req := by
  rw [Request.equip, List.append_nil]

theorem equip_withMixin (req : Request) (c : Object (List Char))
    (cookies : List (Object (List Char))) (body : Body) :
    (req.withMixin c).equip cookies body = req.equip (c :: cookies) body := by
  simp only [Request.equip, Request.withMixin, List.append_assoc, List.singleton_append]

theorem enrich_bind (path : List Char) (layers : List Layer) (req : Request) :
    enrich env verb (.bind path :: layers) req =
      match bindStep env path (chainMatch env verb (paths layers)) req with
      | .ok r => enrich env verb layers r
      | .error _ => none := by
  have hkeys : cookieKeys (.bind path :: layers) = cookieKeys layers := rfl
  have hbody : bodyKeys (.bind path :: layers) = bodyKeys layers := rfl
  have hpaths : paths (.bind path :: layers) = path :: paths layers := rfl
  rw [enrich, hkeys, hbody, hpaths]
  simp only [bindAll, bindStep_equip]
  cases hstep : bindStep env path (chainMatch env verb (paths layers)) req with
  | error outcome => simp [Except.map]
  | ok r =>
    have hfrom := bindStep_boundFrom hstep
    have hread : readCookies r = readCookies req := by
      funext keys
      rw [readCookies, readCookies, Request.header, Request.header, hfrom.raw]
    simp only [enrich, hread, hfrom.body]
    rfl

theorem enrich_cookies (keys : List Key) (layers : List Layer) (req : Request) :
    enrich env verb (.cookies keys :: layers) req =
      (readCookies req keys).bind fun c => enrich env verb layers (req.withMixin c) := by
  have hkeys : cookieKeys (.cookies keys :: layers) = keys :: cookieKeys layers := rfl
  have hbody : bodyKeys (.cookies keys :: layers) = bodyKeys layers := rfl
  have hpaths : paths (.cookies keys :: layers) = paths layers := rfl
  rw [enrich, hkeys, hbody, hpaths, List.mapM_cons]
  cases readCookies req keys with
  | none => rfl
  | some c =>
    have hread : readCookies (req.withMixin c) = readCookies req := rfl
    have hsame : (req.withMixin c).body = req.body := rfl
    simp only [enrich, hread, hsame, equip_withMixin, Option.bind_eq_bind, Option.bind_some,
      Option.pure_def, Option.bind_assoc]

theorem enrich_body (keys : List Key) (layers : List Layer) (req : Request) :
    enrich env verb (.body keys :: layers) req =
      (readBody env req.body keys).bind fun b => enrich env verb layers (req.withBody b) := by
  have hkeys : cookieKeys (.body keys :: layers) = cookieKeys layers := rfl
  have hbody : bodyKeys (.body keys :: layers) = keys :: bodyKeys layers := rfl
  have hpaths : paths (.body keys :: layers) = paths layers := rfl
  rw [enrich, hkeys, hbody, hpaths, List.foldlM_cons]
  cases hread : readBody env req.body keys with
  | none => simp
  | some b =>
    have hcookies : readCookies (req.withBody b) = readCookies req := rfl
    have hsame : (req.withBody b).body = b := rfl
    have hequip : ∀ cookies body, (req.withBody b).equip cookies body = req.equip cookies body :=
      fun _ _ => rfl
    simp only [enrich, hcookies, hsame, hequip, Option.bind_eq_bind, Option.bind_some]

/-- The chain runs its handler once, on the enriched request, or not at all. -/
theorem chain_handlers (layers : List Layer) (fn : Handler) (req : Request) (resp : Response) :
    (((chain layers verb fn).routable env).call req resp).handlers =
      ((enrich env verb layers req).map fun r => (verb, fn.name, r)).toList := by
  induction layers generalizing req with
  | nil =>
    have henrich : enrich env verb [] req = some (req.equip [] req.body) := rfl
    have hcall : ((chain [] verb fn).routable env).call req resp = fn.run verb req resp :=
      endPoint_call verb fn req resp
    rw [hcall, Handler.run_handlers, henrich, equip_nil]
    rfl
  | cons layer layers ih =>
    cases layer with
    | bind path =>
      have hnext : ((chain layers verb fn).routable env).isMatch =
          chainMatch env verb (paths layers) :=
        funext fun v => funext fun input => chain_isMatch layers fn v input
      have hcall : (chain (.bind path :: layers) verb fn).routable env =
          binding env path ((chain layers verb fn).routable env) := rfl
      rw [hcall, enrich_bind]
      simp only [binding, hnext]
      cases bindStep env path (chainMatch env verb (paths layers)) req with
      | ok r => exact ih r
      | error outcome => rfl
    | cookies keys =>
      have hcall : ((chain (.cookies keys :: layers) verb fn).routable env).call req resp =
          cookieParserMw keys ((chain layers verb fn).routable env) req resp := rfl
      rw [hcall, enrich_cookies, readCookies]
      cases hheader : req.header "Cookie".toList with
      | none =>
        rw [cookieParserMw_none resp hheader]
        rfl
      | some header =>
        rw [cookieParserMw_some resp hheader]
        exact ih _
    | body keys =>
      have hcall : ((chain (.body keys :: layers) verb fn).routable env).call req resp =
          objectBodyMw env keys ((chain layers verb fn).routable env) req resp := rfl
      rw [hcall, enrich_body, readBody.eq_def]
      cases hbody : req.body with
      | object body =>
        have hsame : req.withBody (.object body) = req := by rw [← hbody]; rfl
        rw [objectBodyMw_object resp hbody, Option.bind_some, hsame]
        exact ih req
      | text text =>
        cases hread : env.simdjson keys text with
        | none =>
          rw [objectBodyMw_failed resp hbody hread]
          simp [hread, Run.failed, Run.handlers]
        | some body =>
          rw [objectBodyMw_read resp hbody hread]
          simp only [hread, Option.map_some, Option.bind_some]
          exact ih _

/-- A path that the bindings match is matched by each of them at what the outer ones leave. -/
theorem chainMatch_at {outer inner : List (List Char)} {path : List Char} {v : Verb}
    {input : List Char} (hlt : input.length < 0x80000000)
    (h : chainMatch env verb (outer ++ path :: inner) v input = true) :
    ∃ m, env.ctre.startsWith (re path) (restAfter env outer input) = some m := by
  induction outer generalizing input with
  | nil =>
    rw [List.nil_append, chainMatch] at h
    split at h
    · cases h
    · rename_i m hm
      exact ⟨m, hm⟩
  | cons q outer ih =>
    rw [List.cons_append, chainMatch] at h
    split at h
    · cases h
    · rename_i m hm
      have hlen : m.len < 0x80000000 := lt_of_le_of_lt (env.ctre.len_le hm) hlt
      have hrest : restAfter env (q :: outer) input = restAfter env outer (input.drop m.len) := by
        rw [restAfter]
        simp only [bindMatch, hm, Request.castInt_of_lt hlen, Int.toNat_natCast]
      rw [hrest]
      exact ih (by rw [List.length_drop]; omega) h

/-- What the handler of a chain finds in its request. -/
structure Enriched (env : Env) (verb : Verb) (layers : List Layer) (req r : Request) : Prop where
  method : r.method = req.method
  path : r.path = req.path
  version : r.version = req.version
  header : ∀ key, r.header key = req.header key
  params : ∀ outer path inner key, paths layers = outer ++ path :: inner →
    key ∈ env.ctre.names (re path) → (∀ q ∈ inner, key ∉ env.ctre.names (re q)) →
    r.params.get key = some ((bindMatch env path (restAfter env outer req.remaining)).2 key)
  captured : chainMatch env verb (paths layers) req.method req.remaining = true →
    ∀ outer path inner, paths layers = outer ++ path :: inner → ∃ m,
      env.ctre.startsWith (re path) (restAfter env outer req.remaining) = some m ∧
        (bindMatch env path (restAfter env outer req.remaining)).2 = m.captured
  cookies : ∀ keys ∈ cookieKeys layers, ∃ header, req.header "Cookie".toList = some header ∧
    r.cookies = req.cookies ++ [cookieObject keys (parseCookies header)]
  noCookies : cookieKeys layers = [] → r.cookies = req.cookies
  body : ∀ keys ∈ bodyKeys layers, ∀ text, req.body = .text text →
    ∃ body, env.simdjson keys text = some body ∧ r.body = .object body
  noBody : bodyKeys layers = [] → r.body = req.body

theorem eq_singleton_of_mem {β : Type*} {l : List β} {x : β} (hlen : l.length ≤ 1) (h : x ∈ l) :
    l = [x] := by
  obtain ⟨y, rfl⟩ := List.length_eq_one_iff.mp (le_antisymm hlen (List.length_pos_of_mem h))
  rw [List.mem_singleton.mp h]

theorem enriched_of_enrich {layers : List Layer} {req r : Request}
    (hcookies : (cookieKeys layers).length ≤ 1) (hbodies : (bodyKeys layers).length ≤ 1)
    (h : enrich env verb layers req = some r) : Enriched env verb layers req r := by
  obtain ⟨cookies, hread, h⟩ := Option.bind_eq_some_iff.mp h
  obtain ⟨body, hbody, h⟩ := Option.bind_eq_some_iff.mp h
  obtain ⟨hraw, hbody', hcookies'⟩ := bindAll_frame h
  have hparams : ∀ outer path inner key, paths layers = outer ++ path :: inner →
      key ∈ env.ctre.names (re path) → (∀ q ∈ inner, key ∉ env.ctre.names (re q)) →
      r.params.get key =
        some ((bindMatch env path (restAfter env outer req.remaining)).2 key) := by
    intro outer path inner key hpaths hkey hinner
    rw [hpaths] at h
    exact bindAll_innermost h hkey hinner
  refine ⟨congrArg StrRequest.method hraw, congrArg StrRequest.target hraw,
    congrArg StrRequest.version hraw, fun key => ?_, hparams, ?_, ?_, ?_, ?_, ?_⟩
  · rw [Request.header, hraw]
    rfl
  · intro hmatch outer path inner hpaths
    rw [hpaths] at hmatch
    obtain ⟨m, hm⟩ := chainMatch_at req.remaining_lt hmatch
    refine ⟨m, hm, ?_⟩
    simp only [bindMatch, hm]
  · intro keys hkeys
    rw [eq_singleton_of_mem hcookies hkeys, List.mapM_cons, List.mapM_nil] at hread
    obtain ⟨c, hc, hcons⟩ := Option.bind_eq_some_iff.mp hread
    obtain rfl : [c] = cookies := Option.some.inj hcons
    obtain ⟨header, hheader, rfl⟩ := Option.map_eq_some_iff.mp hc
    exact ⟨header, hheader, hcookies'⟩
  · intro hnone
    rw [hnone] at hread
    obtain rfl : [] = cookies := Option.some.inj hread
    rw [hcookies', Request.equip, List.append_nil]
  · intro keys hkeys text htext
    rw [eq_singleton_of_mem hbodies hkeys, List.foldlM_cons, htext] at hbody
    obtain ⟨b, hb, hnil⟩ := Option.bind_eq_some_iff.mp hbody
    obtain rfl : b = body := Option.some.inj hnil
    obtain ⟨o, ho, rfl⟩ := Option.map_eq_some_iff.mp hb
    exact ⟨o, ho, hbody'⟩
  · intro hnone
    rw [hnone] at hbody
    obtain rfl : req.body = body := Option.some.inj hbody
    exact hbody'

/-- A handler that a chain runs finds the original request with the captures of the innermost
bindings and what the parsers made of it, wherever along the chain these stand. -/
theorem chain_enriches (layers : List Layer) (fn : Handler) (req : Request) (resp : Response)
    (hcookies : (cookieKeys layers).length ≤ 1) (hbodies : (bodyKeys layers).length ≤ 1) :
    let handlers := fun layers => (((chain layers verb fn).routable env).call req resp).handlers
    (∀ x ∈ handlers layers, x.1 = verb ∧ x.2.1 = fn.name ∧
      Enriched env verb layers req x.2.2) ∧
    ∀ layers', paths layers' = paths layers → cookieKeys layers' = cookieKeys layers →
      bodyKeys layers' = bodyKeys layers → handlers layers' = handlers layers := by
  intro handlers
  constructor
  · intro x hx
    have hx' : x ∈ ((enrich env verb layers req).map fun r => (verb, fn.name, r)).toList := by
      rw [← chain_handlers layers fn req resp]
      exact hx
    obtain ⟨r, hr, rfl⟩ := Option.map_eq_some_iff.mp (Option.mem_toList.mp hx')
    exact ⟨rfl, rfl, enriched_of_enrich hcookies hbodies hr⟩
  · intro layers' hpaths hcookies' hbodies'
    have hsame : enrich env verb layers' req = enrich env verb layers req := by
      rw [enrich, enrich, hpaths, hcookies', hbodies']
    exact (chain_handlers layers' fn req resp).trans
      (hsame ▸ (chain_handlers layers fn req resp).symm)

end Chain

theorem chain_enriches_hello :
    let req := Request.ofRaw { getRequest "/hello/v60".toList (by decide) with
      fields := [("Cookie".toList, "theme=dark".toList)] }
    let resp := freshResponse .reference req.raw
    let handlers := fun layers =>
      (((chain layers .get helloHandler).routable (pcreEnv .debug)).call req resp).handlers
    let layers : List Layer := [.bind "/hello/:name".toList, .cookies ["theme".toList]]
    (∃ x ∈ handlers layers, x.2.2.path = "/hello/v60".toList) ∧
      handlers [.cookies ["theme".toList], .bind "/hello/:name".toList] = handlers layers := by
  intro req resp handlers layers
  have henriches := @chain_enriches (pcreEnv .debug) .get layers helloHandler req resp (by decide)
    (by decide)
  obtain ⟨x, hx⟩ : ∃ x, x ∈ handlers layers := by
    apply List.exists_mem_of_length_pos
    decide +kernel
  exact ⟨⟨x, hx, (henriches.1 x hx).2.2.path⟩, henriches.2 _ rfl rfl rfl⟩

end V60
