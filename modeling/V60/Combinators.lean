import V60.GuardedDispatch

/-!
# Laws of the routing combinators

Trees with the same route table dispatch alike. Nested groups have the table of
the flat group, a binding distributes over the routes of a group, and a route
added at the end changes nothing for the requests that were matched before.
-/

namespace V60

/-- On this request both trees run one handler, the same one on the same request. -/
def RunsSame (env : Env) (s t : Tree) (req : Request) : Prop :=
  ∀ resp, (∃ x, ((s.routable env).call req resp).handlers = [x]) ∧
    (s.routable env).call req resp = (t.routable env).call req resp

structure SameDispatch (env : Env) (s t : Tree) : Prop where
  isMatch : ∀ v path, (s.routable env).isMatch v path = (t.routable env).isMatch v path
  call : ∀ req, (s.routable env).isMatch req.method req.remaining = true → RunsSame env s t req

section Laws

variable {env : Env} {s t a b c : Tree}

theorem Entry.run_handlers {e : Entry} {req : Request} (resp : Response)
    (h : e.accepts env.ctre req.method req.remaining = true) :
    ∃ x, (e.run env req resp).handlers = [x] := by
  obtain ⟨req', hreq', -⟩ := descend_of_accepts h
  rw [run, hreq']
  exact ⟨_, e.handler.run_handlers e.verb req' resp⟩

theorem runsSame_of_lookup (hs : s.All Mw.Passes fun _ => True)
    (ht : t.All Mw.Passes fun _ => True) {req : Request} {e : Entry}
    (hes : s.lookup env.ctre req.method req.remaining = some e)
    (het : t.lookup env.ctre req.method req.remaining = some e) : RunsSame env s t req := by
  intro resp
  rw [Tree.call_eq hs req resp hes, Tree.call_eq ht req resp het]
  exact ⟨Entry.run_handlers resp (Tree.lookup_accepts hes), rfl⟩

theorem sameDispatch_of_entries (hs : s.All Mw.Passes fun _ => True)
    (ht : t.All Mw.Passes fun _ => True) (h : s.entries = t.entries) : SameDispatch env s t where
  isMatch v path := by rw [Tree.isMatch_eq, Tree.isMatch_eq, Tree.lookup, Tree.lookup, h]
  call req hmatch := by
    rw [Tree.isMatch_eq, Option.isSome_iff_exists] at hmatch
    obtain ⟨e, he⟩ := hmatch
    apply runsSame_of_lookup hs ht he
    rw [Tree.lookup, ← h]
    exact he

theorem Tree.entries_group (ts : List Tree) : (Tree.group ts).entries = ts.flatMap entries :=
  routesEntries_eq ts

theorem Tree.entries_binding_group (path : List Char) (ts : List Tree) :
    (Tree.binding path (.group ts)).entries = (Tree.group (ts.map (.binding path))).entries := by
  rw [entries, entries_group, entries_group, List.map_flatMap, List.flatMap_map]
  exact List.flatMap_congr fun t _ => by rw [entries]

theorem Tree.entries_group_group (before ts after : List Tree) :
    (Tree.group (before ++ .group ts :: after)).entries =
      (Tree.group (before ++ ts ++ after)).entries := by
  simp only [entries_group, List.flatMap_append, List.flatMap_cons, List.append_assoc]

theorem Tree.lookup_group_append {ctre : Ctre} {ts : List Tree} (us : List Tree) {v : Verb}
    {input : List Char} {e : Entry} (h : (Tree.group ts).lookup ctre v input = some e) :
    (Tree.group (ts ++ us)).lookup ctre v input = some e := by
  rw [lookup, entries_group] at h ⊢
  rw [List.flatMap_append, List.find?_append, h, Option.some_or]

/-- Grouping is associative, a binding distributes over a group, and a route added behind the
others leaves the requests they match alone. -/
theorem combinator_laws (env : Env) (ha : a.All Mw.Passes fun _ => True)
    (hb : b.All Mw.Passes fun _ => True) (hc : c.All Mw.Passes fun _ => True)
    (path : List Char) :
    SameDispatch env (.group [a, .group [b, c]]) (.group [a, b, c]) ∧
      SameDispatch env (.group [.group [a, b], c]) (.group [a, b, c]) ∧
      SameDispatch env (.group [a, .group [b, c]]) (.group [.group [a, b], c]) ∧
      SameDispatch env (.binding path (.group [a, b]))
        (.group [.binding path a, .binding path b]) ∧
      ∀ req, ((Tree.group [a, b]).routable env).isMatch req.method req.remaining = true →
        RunsSame env (.group [a, b]) (.group [a, b, c]) req := by
  have hnil : (Tree.group []).All Mw.Passes fun _ => True := trivial
  have hab : (Tree.group [a, b]).All Mw.Passes fun _ => True := ⟨ha, hb, hnil⟩
  have hbc : (Tree.group [b, c]).All Mw.Passes fun _ => True := ⟨hb, hc, hnil⟩
  have habc : (Tree.group [a, b, c]).All Mw.Passes fun _ => True := ⟨ha, hbc⟩
  have hright : (Tree.group [a, .group [b, c]]).All Mw.Passes fun _ => True := ⟨ha, hbc, hnil⟩
  have hleft : (Tree.group [.group [a, b], c]).All Mw.Passes fun _ => True := ⟨hab, hc, hnil⟩
  have hentries : (Tree.group [a, .group [b, c]]).entries = (Tree.group [a, b, c]).entries :=
    Tree.entries_group_group [a] [b, c] []
  have hentries' : (Tree.group [.group [a, b], c]).entries = (Tree.group [a, b, c]).entries :=
    Tree.entries_group_group [] [a, b] [c]
  refine ⟨sameDispatch_of_entries hright habc hentries,
    sameDispatch_of_entries hleft habc hentries',
    sameDispatch_of_entries hright hleft (hentries.trans hentries'.symm),
    sameDispatch_of_entries hab ⟨ha, hb, hnil⟩ (Tree.entries_binding_group path [a, b]),
    fun req hmatch => ?_⟩
  rw [Tree.isMatch_eq, Option.isSome_iff_exists] at hmatch
  obtain ⟨e, he⟩ := hmatch
  exact runsSame_of_lookup hab habc he (Tree.lookup_group_append [c] he)

end Laws

theorem combinator_laws_hello :
    let name : Tree := .getAt "/name".toList helloHandler
    let age : Tree := .postAt "/age".toList helloHandler
    SameDispatch (pcreEnv .debug) (.binding "/user/:userId".toList (.group [name, age]))
      (.group [.binding "/user/:userId".toList name, .binding "/user/:userId".toList age]) :=
  (@combinator_laws (.getAt "/name".toList helloHandler) (.postAt "/age".toList helloHandler)
    parameterRoute (pcreEnv .debug) trivial trivial trivial "/user/:userId".toList).2.2.2.1

end V60
