import V60.Site
import V60.Stacks
import Mathlib.Data.List.Find

/-!
# The order of the routes

Behind `not_found_mw` a request is handled by what the table finds for it, so that
trees whose tables find the same have the same runs: all of them are flat groups
(`Process.run_flat_iff`). Two routes that no request fits
both can stand in either order (`Process.run_perm_iff`), and a route that only
fits requests an earlier one fits can go (`Process.run_shadowed_iff`).
-/

namespace V60

def SameTable (ctre : Ctre) (t t' : Tree) : Prop :=
  ∀ v path, t.lookup ctre v path = t'.lookup ctre v path

section Tables

variable {env : Env} {t t' : Tree} {guards : List Guard}

theorem notFoundMw_table (ht : t.All Mw.Passes fun _ => True)
    (ht' : t'.All Mw.Passes fun _ => True) (hsame : SameTable env.ctre t t') (raw : StrRequest)
    (resp : Response) :
    notFoundMw (t.routable env) (.ofRaw raw) resp =
      notFoundMw (t'.routable env) (.ofRaw raw) resp := by
  rw [notFoundMw, notFoundMw, Tree.isMatch_eq, Tree.isMatch_eq, ← hsame]
  split_ifs with hmatch
  · obtain ⟨e, he⟩ := Option.isSome_iff_exists.mp hmatch
    have he' := he
    rw [hsame] at he'
    rw [Tree.call_eq ht (.ofRaw raw) resp he, Tree.call_eq ht' (.ofRaw raw) resp he']
  · rfl

theorem run_table_iff (ht : t.All Mw.Passes fun _ => True)
    (ht' : t'.All Mw.Passes fun _ => True) (hsame : SameTable env.ctre t t')
    (hguards : .notFound ∈ guards) (beast : Beast) (p p' : Process) (labels : List Label) :
    Process.Run env beast (stack guards t) p labels p' ↔
      Process.Run env beast (stack guards t') p labels p' :=
  Process.run_iff (handleRequest_stack_congr hguards (notFoundMw_table ht ht' hsame))

/-- Groups in groups, bindings of groups and middlewares that only log are one flat group, with a
route of its own for every end point. -/
theorem Process.run_flat_iff (ht : t.All Mw.Passes fun _ => True) (hguards : .notFound ∈ guards)
    (env : Env) (beast : Beast) (p p' : Process) (labels : List Label) :
    Run env beast (stack guards t) p labels p' ↔
      Run env beast (stack guards (Entry.routes t.entries)) p labels p' := by
  apply run_table_iff ht (Entry.routes_passes t.entries) _ hguards
  intro v path
  rw [Tree.lookup, Tree.lookup, Entry.routes_entries]

end Tables

def nested : Tree :=
  .binding "/hello".toList (.group [.use .profile (.getAt "/:name".toList helloHandler),
    .postAt "/:name".toList helloHandler])

/-- The same run answers a request with the page in it and one for none. -/
theorem Process.run_flat_iff_nested :
    let root := stack [.notFound] nested
    let flat := stack [.notFound]
      (.group [.binding "/hello".toList (.getAt "/:name".toList helloHandler),
        .binding "/hello".toList (.postAt "/:name".toList helloHandler)])
    ∃ labels p, Run (pcreEnv .debug) .reference root start labels p ∧
      Run (pcreEnv .debug) .reference flat start labels p ∧
      (responses (shown 0 labels)).map StrResponse.result = [200, 404] := by
  intro root flat
  have hpasses : nested.All Mw.Passes fun _ => True := ⟨⟨trivial, trivial⟩, trivial, trivial⟩
  obtain ⟨labels, p, hrun, -, -, -, hshown⟩ :=
    run_ended (pcreEnv .debug) .reference root [siteClient] (by decide +kernel)
  have hflat := (run_flat_iff hpasses (by decide) (pcreEnv .debug) .reference start p
    labels).mp hrun
  refine ⟨labels, p, hrun, hflat, ?_⟩
  rw [hshown 0 siteClient rfl]
  decide +kernel

/-! ## Routes in another order -/

/-- No request fits both. -/
def Entry.Apart (ctre : Ctre) (e e' : Entry) : Prop :=
  ∀ v path, ¬(e.accepts ctre v path = true ∧ e'.accepts ctre v path = true)

theorem Entry.Apart.of_verb {ctre : Ctre} {e e' : Entry} (h : e.verb ≠ e'.verb) :
    e.Apart ctre e' := by
  intro v path hboth
  simp only [accepts, Bool.and_eq_true, decide_eq_true_eq] at hboth
  exact h (hboth.1.1.symm.trans hboth.2.1)

instance (ctre : Ctre) : Std.Symm (Entry.Apart ctre) where
  symm _ _ h v path hboth := h v path hboth.symm

theorem SameTable.of_perm {ctre : Ctre} {t t' : Tree} (hperm : t.entries.Perm t'.entries)
    (hapart : t.entries.Pairwise (Entry.Apart ctre)) : SameTable ctre t t' := by
  intro v path
  apply List.find?_eq_find?_of_perm hperm
  intro e he e' he'
  by_contra hne
  exact hapart.forall he.1 he'.1 hne v path ⟨he.2, he'.2⟩

section Perm

variable {env : Env} {t t' : Tree}

/-- Routes of which no request fits two can be given in any order, and in any nesting of groups:
the server has the same runs. -/
theorem Process.run_perm_iff (ht : t.All Mw.Passes fun _ => True)
    (ht' : t'.All Mw.Passes fun _ => True) (hperm : t.entries.Perm t'.entries)
    (hapart : t.entries.Pairwise (Entry.Apart env.ctre)) {guards : List Guard}
    (hguards : .notFound ∈ guards) (beast : Beast) (p p' : Process) (labels : List Label) :
    Run env beast (stack guards t) p labels p' ↔ Run env beast (stack guards t') p labels p' :=
  run_table_iff ht ht' (.of_perm hperm hapart) hguards beast p p' labels

end Perm

def echoHandler : Handler := ⟨3, fun req => ⟨[.send req.raw.body], false⟩⟩

def hello : Tree := .getAt "/hello/:name".toList helloHandler

def echo : Tree := .postAt "/hello/:name".toList echoHandler

def echoRequest : StrRequest := { v60Request with method := .post, body := "v60".toList }

/-- A client that asks for both, and for neither. -/
def verbsClient : Client := ⟨echoRequest :: siteClient.requests, 3⟩

theorem Process.run_perm_iff_verbs :
    let root := stack [.notFound] (.group [hello, echo])
    let root' := stack [.notFound] (.group [echo, .use .profile (.group [hello])])
    ∃ labels p, Run (pcreEnv .debug) .reference root start labels p ∧
      Run (pcreEnv .debug) .reference root' start labels p ∧
      (responses (shown 0 labels)).map StrResponse.result = [200, 200, 404] := by
  intro root root'
  have hall : (Tree.group [hello, echo]).All Mw.Passes fun _ => True :=
    ⟨trivial, trivial, trivial⟩
  have hall' : (Tree.group [echo, .use .profile (.group [hello])]).All Mw.Passes fun _ => True :=
    ⟨trivial, ⟨trivial, trivial, trivial⟩, trivial⟩
  have hverbs : Entry.Apart Ctre.pcre ⟨["/hello/:name".toList], .get, helloHandler⟩
      ⟨["/hello/:name".toList], .post, echoHandler⟩ := Entry.Apart.of_verb (by decide)
  obtain ⟨labels, p, hrun, -, -, -, hshown⟩ :=
    run_ended (pcreEnv .debug) .reference root [verbsClient] (by decide +kernel)
  have hrun' := (run_perm_iff hall hall' (.swap _ _ []) (List.pairwise_pair.mpr hverbs) (by decide)
    .reference start p labels).mp hrun
  refine ⟨labels, p, hrun, hrun', ?_⟩
  rw [hshown 0 verbsClient rfl]
  decide +kernel

/-! ## Routes behind others -/

/-- Every request the entry fits, one before it fits. -/
def Entry.Shadowed (ctre : Ctre) (before : List Entry) (e : Entry) : Prop :=
  ∀ v path, e.accepts ctre v path = true → ∃ e' ∈ before, e'.accepts ctre v path = true

theorem SameTable.of_shadowed {ctre : Ctre} {t t' : Tree} {before after : List Entry} {e : Entry}
    (hentries : t.entries = before ++ e :: after) (hentries' : t'.entries = before ++ after)
    (hshadowed : e.Shadowed ctre before) : SameTable ctre t t' := by
  intro v path
  rw [Tree.lookup, Tree.lookup, hentries, hentries', List.find?_append, List.find?_append]
  cases haccepts : e.accepts ctre v path with
  | false => rw [List.find?_cons_of_neg (by simp [haccepts])]
  | true =>
    have hbefore := List.find?_isSome.mpr (hshadowed v path haccepts)
    obtain ⟨first, hfirst⟩ := Option.isSome_iff_exists.mp hbefore
    rw [hfirst, Option.some_or, Option.some_or]

section Shadow

variable {env : Env} {t t' : Tree}

/-- A route that only fits requests an earlier one fits can be taken out. -/
theorem Process.run_shadowed_iff (ht : t.All Mw.Passes fun _ => True)
    (ht' : t'.All Mw.Passes fun _ => True) {before after : List Entry} {e : Entry}
    (hentries : t.entries = before ++ e :: after) (hentries' : t'.entries = before ++ after)
    (hshadowed : e.Shadowed env.ctre before) {guards : List Guard}
    (hguards : .notFound ∈ guards) (beast : Beast) (p p' : Process) (labels : List Label) :
    Run env beast (stack guards t) p labels p' ↔ Run env beast (stack guards t') p labels p' :=
  run_table_iff ht ht' (.of_shadowed hentries hentries' hshadowed) hguards beast p p' labels

theorem accepts_pattern (henv : env.ctre = Ctre.pcre) (P : Pattern) (verb : Verb) (h : Handler)
    (v : Verb) (path : List Char) :
    Entry.accepts env.ctre v path ⟨[P.text], verb, h⟩ = true ↔
      v = verb ∧ ∃ vs, Instance P.segments vs path := by
  rw [Entry.accepts, Bool.and_eq_true, decide_eq_true_eq, decide_eq_true_eq]
  apply and_congr_right
  intro _
  rw [← head_whole_iff]
  have hfollow := follow_chain henv [P] path
  rw [List.map_singleton] at hfollow
  rw [hfollow, readChain]
  cases hhead : (splits P.segments path).head? with
  | none => simp
  | some m =>
    obtain ⟨vs, rest⟩ := m
    cases rest with
    | nil => simp [readChain]
    | cons c rest => simp [readChain]

/-- A single parameter fits whatever a pattern fits. -/
theorem Instance.as_parameter {Q : Pattern} (hQ : Q.segments ≠ []) {vs : Values}
    {path : List Char} (h : Instance Q.segments vs path) (name : Key) :
    ∃ value, Instance [.parameter name] [(name, value)] path := by
  have hspace := h.nonSpace Q.valid
  have hvalid := Q.valid
  generalize Q.segments = segs at h hQ hvalid
  cases h with
  | nil => exact absurd rfl hQ
  | @literal segs vs t word h =>
    have hword := hvalid _ List.mem_cons_self
    refine ⟨word ++ t, ?_⟩
    have hinst := Instance.parameter (v := word ++ t) name ?_ ?_ .nil
    · rwa [List.append_nil] at hinst
    · intro hnil
      exact hword.1 (List.append_eq_nil_iff.mp hnil).1
    · intro c hc
      exact hspace c (List.mem_cons_of_mem _ hc)
  | @parameter segs vs t value x hne _ h =>
    refine ⟨value ++ t, ?_⟩
    have hinst := Instance.parameter (v := value ++ t) name ?_ ?_ .nil
    · rwa [List.append_nil] at hinst
    · intro hnil
      exact hne (List.append_eq_nil_iff.mp hnil).1
    · intro c hc
      exact hspace c (List.mem_cons_of_mem _ hc)

/-- Behind a route with a single parameter no route of its verb with one pattern is reached. -/
theorem shadowed_of_parameter (henv : env.ctre = Ctre.pcre) {P Q : Pattern} {name : Key}
    (hP : P.segments = [.parameter name]) (hQ : Q.segments ≠ []) (verb : Verb) (h h' : Handler)
    {before : List Entry} (hmem : ⟨[P.text], verb, h⟩ ∈ before) :
    Entry.Shadowed env.ctre before ⟨[Q.text], verb, h'⟩ := by
  intro v path haccepts
  obtain ⟨hv, vs, hinst⟩ := (accepts_pattern henv Q verb h' v path).mp haccepts
  refine ⟨_, hmem, ?_⟩
  obtain ⟨value, hvalue⟩ := hinst.as_parameter hQ name
  exact (accepts_pattern henv P verb h v path).mpr ⟨hv, _, hP ▸ hvalue⟩

end Shadow

def pagePattern : Pattern where
  segments := [.parameter "page".toList]
  valid s hs := List.mem_singleton.mp hs ▸ ⟨⟨'p', rfl, by decide⟩, List.all_eq_true.mp (by decide)⟩
  nodup := by decide

def page : Tree := .getAt "/:page".toList helloHandler

/-- Both requests go to the page, with the route and without it. -/
theorem Process.run_shadowed_iff_page :
    let root := stack [.notFound] (.group [page, hello])
    let root' := stack [.notFound] (.group [page])
    ∃ labels p, Run (pcreEnv .debug) .reference root start labels p ∧
      Run (pcreEnv .debug) .reference root' start labels p ∧
      (responses (shown 0 labels)).map StrResponse.result = [200, 200] := by
  intro root root'
  have hshadowed := shadowed_of_parameter (rfl : (pcreEnv .debug).ctre = Ctre.pcre)
    (rfl : pagePattern.segments = [.parameter "page".toList]) (Q := helloPattern)
    (List.cons_ne_nil _ _) .get helloHandler helloHandler (List.mem_singleton_self _)
  have hall : (Tree.group [page, hello]).All Mw.Passes fun _ => True :=
    ⟨trivial, trivial, trivial⟩
  have hall' : (Tree.group [page]).All Mw.Passes fun _ => True := ⟨trivial, trivial⟩
  have hentries : (Tree.group [page, hello]).entries = [⟨["/:page".toList], .get, helloHandler⟩] ++
      ⟨["/hello/:name".toList], .get, helloHandler⟩ :: [] := rfl
  obtain ⟨labels, p, hrun, -, -, -, hshown⟩ :=
    run_ended (pcreEnv .debug) .reference root [siteClient] (by decide +kernel)
  have hrun' := (run_shadowed_iff hall hall' hentries rfl hshadowed (by decide) .reference start p
    labels).mp hrun
  refine ⟨labels, p, hrun, hrun', ?_⟩
  rw [hshown 0 siteClient rfl]
  decide +kernel

end V60
