import V60.Tree

/-!
# Route tables

What a tree of end points, bindings and groups is for: a list of entries, each a
chain of patterns with a verb and a handler, of which the first that accepts a
request is run. `isMatch_eq` and `call_eq` say that the tree's two recursions
compute this, for any engine and any build.
-/

namespace V60

structure Entry where
  chain : List (List Char)
  verb : Verb
  handler : Handler

namespace Entry

def under (path : List Char) (e : Entry) : Entry := { e with chain := path :: e.chain }

/-- The path left by the chain, each pattern taking its own prefix. -/
def follow (ctre : Ctre) : List (List Char) → List Char → Option (List Char)
  | [], input => some input
  | path :: chain, input =>
    (ctre.startsWith (re path) input).bind fun m => follow ctre chain (input.drop m.len)

def accepts (ctre : Ctre) (v : Verb) (input : List Char) (e : Entry) : Bool :=
  v = e.verb && follow ctre e.chain input = some []

def descend (env : Env) : List (List Char) → Request → Option Request
  | [], req => some req
  | path :: chain, req =>
    (env.ctre.startsWith (re path) req.remaining).bind fun m =>
      descend env chain (bindRequest env path m req)

def run (env : Env) (e : Entry) (req : Request) (resp : Response) : Run :=
  match descend env e.chain req with
  | some req => e.handler.run e.verb req resp
  | none => .abort

theorem descend_remaining (env : Env) (chain : List (List Char)) (req : Request) :
    (descend env chain req).map Request.remaining = follow env.ctre chain req.remaining := by
  induction chain generalizing req with
  | nil => rfl
  | cons path chain ih =>
    rw [descend, follow]
    cases env.ctre.startsWith (re path) req.remaining with
    | none => rfl
    | some m => exact ih (bindRequest env path m req)

theorem descend_method {env : Env} {chain : List (List Char)} {req req' : Request}
    (h : descend env chain req = some req') : req'.method = req.method := by
  induction chain generalizing req with
  | nil => rw [← Option.some.inj h]
  | cons path chain ih =>
    obtain ⟨m, -, hm⟩ := Option.bind_eq_some_iff.mp h
    have hmethod := ih hm
    exact hmethod

theorem descend_of_accepts {env : Env} {e : Entry} {req : Request}
    (h : e.accepts env.ctre req.method req.remaining = true) :
    ∃ req', descend env e.chain req = some req' ∧ req'.remaining = [] ∧ req'.method = e.verb := by
  rw [accepts, Bool.and_eq_true, decide_eq_true_eq, decide_eq_true_eq] at h
  have hfollow := h.2
  rw [← descend_remaining, Option.map_eq_some_iff] at hfollow
  obtain ⟨req', hreq', hrem⟩ := hfollow
  exact ⟨req', hreq', hrem, (descend_method hreq').trans h.1⟩

theorem run_not_declined {env : Env} {e : Entry} {req : Request} (resp : Response)
    (h : e.accepts env.ctre req.method req.remaining = true) :
    (e.run env req resp).outcome ≠ .returned false := by
  obtain ⟨req', hreq', -⟩ := descend_of_accepts h
  rw [run, hreq']
  rcases e.handler.run_outcome e.verb req' resp with ho | ho
  · simp [ho]
  · simp [ho]

theorem accepts_under_some {ctre : Ctre} {path input : List Char} {m : Match}
    (h : ctre.startsWith (re path) input = some m) (v : Verb) (e : Entry) :
    (e.under path).accepts ctre v input = e.accepts ctre v (input.drop m.len) := by
  have hfollow : follow ctre (e.under path).chain input =
      follow ctre e.chain (input.drop m.len) := by
    rw [under, follow, h, Option.bind_some]
  rw [accepts, accepts, hfollow]
  rfl

theorem accepts_under_none {ctre : Ctre} {path input : List Char}
    (h : ctre.startsWith (re path) input = none) (v : Verb) (e : Entry) :
    (e.under path).accepts ctre v input = false := by
  simp [accepts, under, follow, h]

theorem run_under {env : Env} {path : List Char} {req : Request} {m : Match}
    (h : env.ctre.startsWith (re path) req.remaining = some m) (e : Entry) (resp : Response) :
    (e.under path).run env req resp = e.run env (bindRequest env path m req) resp := by
  simp only [run, under, descend, h, Option.bind_some]

end Entry

namespace Tree

mutual

def entries : Tree → List Entry
  | .endPoint method fn => [⟨[], method, fn⟩]
  | .binding path next => next.entries.map (Entry.under path)
  | .group routes => routesEntries routes
  | .use _ next => next.entries

def routesEntries : List Tree → List Entry
  | [] => []
  | t :: ts => t.entries ++ routesEntries ts

end

theorem routesEntries_eq (ts : List Tree) : routesEntries ts = ts.flatMap entries := by
  induction ts with
  | nil => rfl
  | cons t ts ih => rw [routesEntries, ih, List.flatMap_cons]

def lookup (ctre : Ctre) (t : Tree) (v : Verb) (input : List Char) : Option Entry :=
  t.entries.find? fun e => e.accepts ctre v input

theorem lookup_accepts {ctre : Ctre} {t : Tree} {v : Verb} {input : List Char} {e : Entry}
    (h : t.lookup ctre v input = some e) : e.accepts ctre v input = true :=
  List.find?_some h

theorem any_accepts (ctre : Ctre) (t : Tree) (v : Verb) (input : List Char) :
    (t.entries.any fun e => e.accepts ctre v input) = (t.lookup ctre v input).isSome := by
  rw [Bool.eq_iff_iff, lookup, List.find?_isSome, List.any_eq_true]

theorem isMatch_eq (env : Env) (t : Tree) (v : Verb) (input : List Char) :
    (t.routable env).isMatch v input = (t.lookup env.ctre v input).isSome := by
  rw [← any_accepts]
  induction t using Tree.induct generalizing input with
  | endPoint method fn =>
    cases input <;> simp [routable, V60.endPoint, entries, Entry.accepts, Entry.follow]
  | binding path next ih =>
    rw [routable, entries, List.any_map]
    cases h : env.ctre.startsWith (re path) input with
    | none => simp [binding_isMatch_none h, Entry.accepts_under_none h]
    | some m =>
      rw [binding_isMatch_some h, ih]
      exact congrArg (List.any _) (funext fun e => (Entry.accepts_under_some h v e).symm)
  | group routes ih =>
    rw [routable, entries, routesEntries_eq, routables_eq, List.any_flatMap]
    rw [Bool.eq_iff_iff]
    simp only [V60.group, List.any_map, List.any_eq_true, Function.comp]
    exact exists_congr fun t => and_congr_right fun ht => by rw [ih t ht input, List.any_eq_true]
  | use mw next ih => exact ih input

/-- Matched, the tree runs the first entry that accepts the request, and nothing else. -/
def RunsTable (env : Env) (t : Tree) : Prop :=
  ∀ (req : Request) (resp : Response) (e : Entry),
    t.lookup env.ctre req.method req.remaining = some e →
      (t.routable env).call req resp = e.run env req resp

section RunsTable

variable {env : Env}

theorem endPoint_runsTable (method : Verb) (fn : Handler) :
    (Tree.endPoint method fn).RunsTable env := by
  intro req resp e h
  obtain rfl : e = ⟨[], method, fn⟩ := by
    simpa [entries] using List.mem_of_find?_eq_some h
  exact endPoint_call method fn req resp

theorem binding_runsTable (path : List Char) {next : Tree} (hnext : next.RunsTable env) :
    (Tree.binding path next).RunsTable env := by
  intro req resp e h
  rw [lookup, entries, List.find?_map] at h
  obtain ⟨e', he', rfl⟩ := Option.map_eq_some_iff.mp h
  cases hm : env.ctre.startsWith (re path) req.remaining with
  | none =>
    have haccepts := List.find?_some he'
    simp [Entry.accepts_under_none hm] at haccepts
  | some m =>
    have hlookup : next.lookup env.ctre (bindRequest env path m req).method
        (bindRequest env path m req).remaining = some e' := by
      rw [← he', lookup]
      exact congrArg (List.find? · next.entries)
        (funext fun e => (Entry.accepts_under_some hm req.method e).symm)
    have hmatch : (next.routable env).isMatch req.method (req.remaining.drop m.len) = true := by
      rw [isMatch_eq, Option.isSome_iff_exists]
      exact ⟨e', hlookup⟩
    rw [routable, binding_call resp hm hmatch, hnext _ _ _ hlookup, Entry.run_under hm]

-- the entries of a group are those of its routes in order, so the first that accepts belongs to
-- the first route that matches
theorem group_runsTable {routes : List Tree} (hroutes : ∀ t ∈ routes, t.RunsTable env) :
    (Tree.group routes).RunsTable env := by
  intro req resp e h
  rw [lookup, entries, routesEntries_eq] at h
  simp only [routable, routables_eq, V60.group]
  induction routes with
  | nil => simp at h
  | cons t ts ih =>
    rw [List.flatMap_cons, List.find?_append] at h
    rw [List.map_cons]
    cases hfirst : t.lookup env.ctre req.method req.remaining with
    | none =>
      have hskip : (t.routable env).isMatch req.method req.remaining = false := by
        rw [isMatch_eq, hfirst, Option.isSome_none]
      rw [lookup] at hfirst
      rw [hfirst, Option.none_or] at h
      rw [groupCall_skip _ hskip]
      exact ih (fun t hmem => hroutes t (List.mem_cons_of_mem _ hmem)) h
    | some e' =>
      have htake : (t.routable env).isMatch req.method req.remaining = true := by
        rw [isMatch_eq, hfirst, Option.isSome_some]
      have hcall := hroutes t List.mem_cons_self req resp e' hfirst
      have haccepts := lookup_accepts hfirst
      rw [lookup] at hfirst
      rw [hfirst, Option.some_or, Option.some.injEq] at h
      subst h
      have hne : ((t.routable env).call req resp).outcome ≠ .returned false := by
        rw [hcall]
        exact Entry.run_not_declined resp haccepts
      rw [groupCall_take _ htake hne, hcall]

theorem call_eq {t : Tree} (ht : t.All Mw.Passes fun _ => True) (req : Request) (resp : Response)
    {e : Entry} (h : t.lookup env.ctre req.method req.remaining = some e) :
    (t.routable env).call req resp = e.run env req resp := by
  suffices hruns : t.RunsTable env from hruns req resp e h
  clear h
  induction t using Tree.induct with
  | endPoint method fn => exact endPoint_runsTable method fn
  | binding path next ih => exact binding_runsTable path (ih ht)
  | group routes ih =>
    rw [All, allRoutes_iff] at ht
    exact group_runsTable fun t hmem => ih t hmem (ht t hmem)
  | use mw next ih =>
    intro req resp e h
    rw [call_use ht.1]
    exact ih ht.2 req resp e h

end RunsTable

theorem call_not_declined {env : Env} {t : Tree} (ht : t.All Mw.Passes fun _ => True)
    (req : Request) (resp : Response)
    (h : (t.routable env).isMatch req.method req.remaining = true) :
    ((t.routable env).call req resp).outcome ≠ .returned false := by
  rw [isMatch_eq, Option.isSome_iff_exists] at h
  obtain ⟨e, he⟩ := h
  rw [call_eq ht req resp he]
  exact Entry.run_not_declined resp (lookup_accepts he)

end Tree

end V60
