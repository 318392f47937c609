import V60.GuardedDispatch

/-!
# Where `not_found_mw` can stand

`not_found_mw` asks its route about the whole path, while a route below a
binding was matched on what the binding left. `Ctx` is a tree with one subtree
taken out, and `Ctx.rest` the path the dispatch arrives there with.
-/

namespace V60

inductive Ctx where
  | hole
  | binding (path : List Char) (next : Ctx)
  | group (before : List Tree) (next : Ctx) (after : List Tree)
  | use (mw : Mw) (next : Ctx)

namespace Ctx

def fill (s : Tree) : Ctx → Tree
  | .hole => s
  | .binding path next => .binding path (next.fill s)
  | .group before next after => .group (before ++ next.fill s :: after)
  | .use mw next => .use mw (next.fill s)

/-- The remaining path with which the dispatch of a request calls the subtree `s` in the hole,
when it does. -/
def rest (ctre : Ctre) (s : Tree) (v : Verb) : Ctx → List Char → Option (List Char)
  | .hole, input => if (s.lookup ctre v input).isSome then some input else none
  | .binding path next, input =>
    (ctre.startsWith (re path) input).bind fun m => next.rest ctre s v (input.drop m.len)
  | .group before next _, input =>
    if before.any fun t => (t.lookup ctre v input).isSome then none else next.rest ctre s v input
  | .use _ next, input => next.rest ctre s v input

theorem entries_fill (c : Ctx) (mw : Mw) (s : Tree) :
    (c.fill (.use mw s)).entries = (c.fill s).entries := by
  induction c with
  | hole => rfl
  | binding path next ih => simp only [fill, Tree.entries, ih]
  | group before next after ih =>
    simp only [fill, Tree.entries, Tree.routesEntries_eq, List.flatMap_append, List.flatMap_cons,
      ih]
  | use mw' next ih => simp only [fill, Tree.entries, ih]

variable {env : Env} {c : Ctx} {s : Tree}

theorem isMatch_fill (mw : Mw) (v : Verb) (input : List Char) :
    ((c.fill (.use mw s)).routable env).isMatch v input =
      ((c.fill s).routable env).isMatch v input := by
  rw [Tree.isMatch_eq, Tree.isMatch_eq, Tree.lookup, Tree.lookup, entries_fill]

theorem any_routables {before : List Tree} {v : Verb} {input : List Char} :
    ((before.map (Tree.routable env)).any fun r => r.isMatch v input) =
      before.any fun t => (t.lookup env.ctre v input).isSome := by
  rw [List.any_map]
  exact congrArg (List.any before) (funext fun t => Tree.isMatch_eq env t v input)

theorem All.hole {p : Mw → Prop} {q : Handler → Prop} {c : Ctx} (h : (c.fill s).All p q) :
    s.All p q := by
  induction c with
  | hole => exact h
  | binding path next ih => exact ih h
  | group before next after ih =>
    rw [fill, Tree.All, Tree.allRoutes_iff] at h
    exact ih (h (next.fill s) (by simp))
  | use mw next ih => exact ih h.2

theorem isMatch_of_rest {v : Verb} {input input' : List Char}
    (h : c.rest env.ctre s v input = some input') :
    ((c.fill s).routable env).isMatch v input = true := by
  induction c generalizing input with
  | hole =>
    rw [rest] at h
    split_ifs at h with hs
    rw [fill, Tree.isMatch_eq, hs]
  | binding path next ih =>
    obtain ⟨m, hm, hrest⟩ := Option.bind_eq_some_iff.mp h
    rw [fill, Tree.routable, binding_isMatch_some hm]
    exact ih hrest
  | group before next after ih =>
    rw [rest] at h
    split_ifs at h
    rw [fill, Tree.routable, Tree.routables_eq, V60.group, List.map_append, List.map_cons]
    simp [ih h]
  | use mw next ih => exact ih h

theorem All.parts {p : Mw → Prop} {q : Handler → Prop} {before after : List Tree} {t : Tree}
    (h : (Tree.group (before ++ t :: after)).All p q) :
    (∀ r ∈ before, r.All p q) ∧ t.All p q := by
  rw [Tree.All, Tree.allRoutes_iff] at h
  exact ⟨fun r hr => h r (by simp [hr]), h t (by simp)⟩

theorem call_fill_missed (mw : Mw) (ht : (c.fill s).All Mw.Passes fun _ => True) (req : Request)
    (resp : Response)
    (hmatch : ((c.fill s).routable env).isMatch req.method req.remaining = true)
    (hrest : c.rest env.ctre s req.method req.remaining = none) :
    ((c.fill (.use mw s)).routable env).call req resp =
      ((c.fill s).routable env).call req resp := by
  induction c generalizing req with
  | hole =>
    rw [fill, Tree.isMatch_eq] at hmatch
    simp [rest, hmatch] at hrest
  | binding path next ih =>
    cases hm : env.ctre.startsWith (re path) req.remaining with
    | none =>
      rw [fill, Tree.routable, binding_isMatch_none hm] at hmatch
      exact absurd hmatch Bool.false_ne_true
    | some m =>
      rw [fill, Tree.routable, binding_isMatch_some hm] at hmatch
      rw [rest, hm, Option.bind_some] at hrest
      simp only [fill, Tree.routable]
      rw [binding_call resp hm hmatch, binding_call resp hm (by rwa [isMatch_fill])]
      exact ih ht (bindRequest env path m req) hmatch hrest
  | group before next after ih =>
    obtain ⟨hbefore, hnext⟩ := All.parts ht
    simp only [fill, Tree.routable, Tree.routables_eq, V60.group, List.map_append, List.map_cons]
    cases hany : (before.map (Tree.routable env)).any
        fun r => r.isMatch req.method req.remaining with
    | true =>
      have hcall : ∀ r ∈ before.map (Tree.routable env),
          r.isMatch req.method req.remaining = true →
            (r.call req resp).outcome ≠ .returned false := by
        intro r hr hmatch
        obtain ⟨t, htmem, rfl⟩ := List.mem_map.mp hr
        exact Tree.call_not_declined (hbefore t htmem) req resp hmatch
      rw [groupCall_append_take _ hany hcall, groupCall_append_take _ hany hcall]
    | false =>
      rw [any_routables] at hany
      rw [rest, hany, if_neg Bool.false_ne_true] at hrest
      rw [← any_routables] at hany
      rw [groupCall_append_skip _ hany, groupCall_append_skip _ hany]
      cases hm : ((next.fill s).routable env).isMatch req.method req.remaining with
      | false => rw [groupCall_skip _ hm, groupCall_skip _ (by rwa [isMatch_fill])]
      | true =>
        have heq := ih hnext req hm hrest
        have hne := Tree.call_not_declined hnext req resp hm
        rw [groupCall_take _ hm hne, groupCall_take _ (by rwa [isMatch_fill]) (by rwa [heq]), heq]
  | use mw' next ih =>
    rw [fill, fill, Tree.call_use ht.1, Tree.call_use ht.1]
    exact ih ht.2 req hmatch hrest

theorem call_fill_reached (mw : Mw) (ht : (c.fill s).All Mw.Passes fun _ => True) (req : Request)
    (resp : Response) {input : List Char}
    (hrest : c.rest env.ctre s req.method req.remaining = some input) :
    ∃ req', req'.remaining = input ∧ req'.method = req.method ∧ req'.path = req.path ∧
      (s.routable env).isMatch req.method input = true ∧
      ((c.fill s).routable env).call req resp = (s.routable env).call req' resp ∧
      (((Tree.use mw s).routable env).call req' resp).events <+:
        (((c.fill (.use mw s)).routable env).call req resp).events ∧
      ((((Tree.use mw s).routable env).call req' resp).outcome ≠ .returned false →
        ((c.fill (.use mw s)).routable env).call req resp =
          ((Tree.use mw s).routable env).call req' resp) := by
  induction c generalizing req with
  | hole =>
    rw [rest] at hrest
    split_ifs at hrest with hs
    obtain rfl := Option.some.inj hrest
    exact ⟨req, rfl, rfl, rfl, by rw [Tree.isMatch_eq, hs], rfl, List.prefix_rfl, fun _ => rfl⟩
  | binding path next ih =>
    obtain ⟨m, hm, hnext⟩ := Option.bind_eq_some_iff.mp hrest
    have hmatch : ((next.fill s).routable env).isMatch req.method (req.remaining.drop m.len) =
        true := isMatch_of_rest hnext
    obtain ⟨req', hreq'⟩ := ih ht (bindRequest env path m req) hnext
    refine ⟨req', ?_⟩
    simp only [fill, Tree.routable]
    rw [binding_call resp hm hmatch, binding_call resp hm (by rwa [isMatch_fill])]
    exact hreq'
  | group before next after ih =>
    obtain ⟨hbefore, hnext⟩ := All.parts ht
    rw [rest] at hrest
    split_ifs at hrest with hany
    rw [Bool.not_eq_true, ← any_routables] at hany
    have hmatch := isMatch_of_rest hrest
    obtain ⟨req', hrem, hmethod, hpath, hs, hcall, hprefix, htake⟩ := ih hnext req hrest
    have hne := Tree.call_not_declined hnext req resp hmatch
    have hmatch' : ((next.fill (.use mw s)).routable env).isMatch req.method req.remaining =
        true := by rwa [isMatch_fill]
    refine ⟨req', hrem, hmethod, hpath, hs, ?_⟩
    simp only [fill, Tree.routable, Tree.routables_eq, V60.group, List.map_append, List.map_cons]
    rw [groupCall_append_skip _ hany, groupCall_append_skip _ hany, groupCall_take _ hmatch hne]
    refine ⟨hcall, ?_, fun ho => ?_⟩
    · by_cases ho : (((next.fill (.use mw s)).routable env).call req resp).outcome = .returned false
      · rw [groupCall_decline _ hmatch' ho, Run.after_events]
        exact hprefix.trans (List.prefix_append _ _)
      · rw [groupCall_take _ hmatch' ho]
        exact hprefix
    · have heq := htake ho
      rw [groupCall_take _ hmatch' (by rwa [heq])]
      exact heq
  | use mw' next ih =>
    rw [fill, fill, Tree.call_use ht.1, Tree.call_use ht.1]
    exact ih ht.2 req hrest

end Ctx

theorem Tree.call_head {env : Env} {t : Tree} (ht : t.All Mw.Passes fun _ => True) {req : Request}
    (resp : Response) (h : (t.routable env).isMatch req.method req.remaining = true) :
    ∃ verb name req' events, ((t.routable env).call req resp).events =
      .ran verb name req' :: events := by
  rw [Tree.isMatch_eq, Option.isSome_iff_exists] at h
  obtain ⟨e, he⟩ := h
  obtain ⟨req', hreq', -⟩ := Entry.descend_of_accepts (Tree.lookup_accepts he)
  rw [Tree.call_eq ht req resp he, Entry.run, hreq']
  exact ⟨_, _, _, _, rfl⟩

/-- Putting `not_found_mw` before a subtree changes nothing exactly when the dispatch of the
request stays clear of the subtree, or the subtree also matches the whole path. -/
theorem notFound_transparent_iff (env : Env) (beast : Beast) {c : Ctx} {s : Tree}
    (ht : (c.fill s).All Mw.Passes fun _ => True) (raw : StrRequest)
    (hmatch : ((c.fill s).routable env).isMatch raw.method raw.target = true) :
    ((c.fill (.use .notFound s)).routable env).call (Request.ofRaw raw) (freshResponse beast raw) =
        ((c.fill s).routable env).call (Request.ofRaw raw) (freshResponse beast raw) ↔
      ((c.rest env.ctre s raw.method raw.target).isSome = true →
        (s.routable env).isMatch raw.method raw.target = true) := by
  cases hrest : c.rest env.ctre s raw.method raw.target with
  | none =>
    have heq := Ctx.call_fill_missed .notFound ht (Request.ofRaw raw) (freshResponse beast raw)
      hmatch hrest
    simp [heq]
  | some input =>
    obtain ⟨req', hrem, hmethod, hpath, hs, hcall, hprefix, htake⟩ :=
      Ctx.call_fill_reached .notFound ht (Request.ofRaw raw) (freshResponse beast raw) hrest
    rw [← hrem, ← hmethod] at hs
    have hsall : s.All Mw.Passes fun _ => True := Ctx.All.hole ht
    have hpath' : (s.routable env).isMatch req'.method req'.path =
        (s.routable env).isMatch raw.method raw.target := by rw [hmethod, hpath]; rfl
    simp only [Option.isSome_some, forall_const]
    cases hfull : (s.routable env).isMatch raw.method raw.target with
    | true =>
      have hsame : ((Tree.use .notFound s).routable env).call req' (freshResponse beast raw) =
          (s.routable env).call req' (freshResponse beast raw) :=
        notFoundMw_match _ (hpath'.trans hfull)
      rw [hsame] at htake
      have hne := Tree.call_not_declined hsall req' (freshResponse beast raw) hs
      simp [htake hne, hcall]
    | false =>
      have hmiss : ((Tree.use .notFound s).routable env).call req' (freshResponse beast raw) = _ :=
        notFoundMw_miss (freshResponse_sender beast raw) (hpath'.trans hfull)
      obtain ⟨verb, name, req'', events, hhead⟩ :=
        Tree.call_head hsall (freshResponse beast raw) hs
      rw [hmiss] at hprefix
      obtain ⟨more, hmore⟩ := hprefix
      simp only [Bool.false_eq_true, iff_false]
      intro heq
      rw [heq, hcall, hhead] at hmore
      simp at hmore

theorem notFound_transparent_hello :
    let raw := getRequest "/hello/world".toList (by decide)
    let t : Tree := .group [.use .notFound parameterRoute]
    (t.routable (pcreEnv .debug)).call (Request.ofRaw raw) (freshResponse .reference raw) =
      ((Tree.group [parameterRoute]).routable (pcreEnv .debug)).call (Request.ofRaw raw)
        (freshResponse .reference raw) :=
  (notFound_transparent_iff (pcreEnv .debug) .reference (c := .group [] .hole [])
    (s := parameterRoute) ⟨trivial, trivial⟩
    (getRequest "/hello/world".toList (by decide)) (by decide +kernel)).mpr
      fun _ => by decide +kernel

def nameRoute : Tree := .getAt "/name".toList helloHandler

/-- Below a binding the whole path is not the path the route was matched on. -/
theorem notFound_below_binding :
    let raw := getRequest "/user/name".toList (by decide)
    let resp := freshResponse .reference raw
    let t : Tree := .binding "/user".toList nameRoute
    let t' : Tree := .binding "/user".toList (.use .notFound nameRoute)
    (t.routable (pcreEnv .debug)).isMatch raw.method raw.target = true ∧
      ((t.routable (pcreEnv .debug)).call (Request.ofRaw raw) resp).handlers.length = 1 ∧
      ((t'.routable (pcreEnv .debug)).call (Request.ofRaw raw) resp).handlers = [] ∧
      ((t'.routable (pcreEnv .debug)).call (Request.ofRaw raw) resp).writes.map
        StrResponse.result = [404] := by
  decide +kernel

end V60
