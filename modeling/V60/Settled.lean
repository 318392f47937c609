import V60.Stacks

/-!
# Settled trees

A group that goes on after a route declined hands out a request that was moved
from, and a binding that is called without a match reads an iterator of an empty
match: what follows is up to the build. In a settled tree only the last route of
a group may decline. Behind `not_found_mw` it does the same in every build, so
that it never gets to either (`Process.builds_agree`).
-/

namespace V60

/-- The middlewares that do not decline unless the next route does. -/
def Mw.Steady : Mw → Prop
  | .logging | .profile | .objectBody _ => True
  | .notFound | .serverFault | .cookieParser _ => False

namespace Tree

mutual

def Settled : Tree → Prop
  | .endPoint .. => True
  | .binding _ next => next.Settled
  | .group routes => SettledRoutes routes
  | .use _ next => next.Settled

/-- Every route that is followed by another is steady. -/
def SettledRoutes : List Tree → Prop
  | [] => True
  | t :: ts => t.Settled ∧ (ts ≠ [] → t.All Mw.Steady fun _ => True) ∧ SettledRoutes ts

end

variable {env : Env}

def NeverDeclines (env : Env) (t : Tree) : Prop :=
  ∀ (req : Request) (resp : Response), (t.routable env).isMatch req.method req.remaining = true →
    ((t.routable env).call req resp).outcome ≠ .returned false

theorem endPoint_neverDeclines (method : Verb) (fn : Handler) :
    (Tree.endPoint method fn).NeverDeclines env := by
  intro req resp _
  rw [routable, endPoint_call]
  rcases fn.run_outcome method req resp with ho | ho
  · simp [ho]
  · simp [ho]

theorem binding_neverDeclines (path : List Char) {next : Tree} (hnext : next.NeverDeclines env) :
    (Tree.binding path next).NeverDeclines env := by
  intro req resp h
  rw [routable] at h ⊢
  cases hm : env.ctre.startsWith (re path) req.remaining with
  | none =>
    rw [binding_isMatch_none hm] at h
    cases h
  | some m =>
    rw [binding_isMatch_some hm] at h
    rw [binding_call resp hm h]
    exact hnext (bindRequest env path m req) resp h

theorem group_neverDeclines {routes : List Tree} (hroutes : ∀ t ∈ routes, t.NeverDeclines env) :
    (Tree.group routes).NeverDeclines env := by
  intro req resp h
  simp only [routable, routables_eq, V60.group] at h ⊢
  induction routes with
  | nil => simp at h
  | cons t ts ih =>
    rw [List.map_cons] at h ⊢
    cases hm : (t.routable env).isMatch req.method req.remaining with
    | true =>
      have hne := hroutes t List.mem_cons_self req resp hm
      rw [groupCall_take _ hm hne]
      exact hne
    | false =>
      rw [groupCall_skip _ hm]
      apply ih fun t hmem => hroutes t (List.mem_cons_of_mem _ hmem)
      rwa [List.any_cons, hm, Bool.false_or] at h

theorem use_neverDeclines {mw : Mw} (hmw : mw.Steady) {next : Tree}
    (hnext : next.NeverDeclines env) : (Tree.use mw next).NeverDeclines env := by
  intro req resp h
  cases mw with
  | logging => exact hnext req resp h
  | profile => exact hnext req resp h
  | notFound => exact absurd hmw id
  | serverFault => exact absurd hmw id
  | cookieParser keys => exact absurd hmw id
  | objectBody keys =>
    simp only [routable, V60.use, Mw.call, objectBodyMw]
    split
    · exact hnext req resp h
    · split
      · simp [Run.failed]
      · exact hnext _ resp h

theorem neverDeclines_of_steady {t : Tree} (ht : t.All Mw.Steady fun _ => True) :
    t.NeverDeclines env := by
  induction t using Tree.induct with
  | endPoint method fn => exact endPoint_neverDeclines method fn
  | binding path next ih => exact binding_neverDeclines path (ih ht)
  | group routes ih =>
    rw [All, allRoutes_iff] at ht
    exact group_neverDeclines fun t hmem => ih t hmem (ht t hmem)
  | use mw next ih => exact use_neverDeclines ht.1 (ih ht.2)

end Tree

/-! ## Other builds -/

def Env.inBuild (env : Env) (b : Build) : Env := { env with build := b }

/-- A middleware calls the next route alike in every build. -/
theorem Mw.call_build (env : Env) (b : Build) (mw : Mw) {next next' : Routable} {req : Request}
    {resp : Response} (hmatch : next.isMatch = next'.isMatch)
    (hcall : ∀ req' : Request, req'.raw = req.raw → req'.remaining = req.remaining →
      next.call req' resp = next'.call req' resp) :
    mw.call env next req resp = mw.call (env.inBuild b) next' req resp := by
  have hsame := hcall req rfl rfl
  cases mw with
  | logging => exact hsame
  | profile => exact hsame
  | notFound => simp only [Mw.call, notFoundMw, hmatch, hsame]
  | serverFault => simp only [Mw.call, serverFaultMw, hsame]
  | cookieParser keys =>
    simp only [Mw.call, cookieParserMw]
    split
    · rfl
    · exact hcall _ rfl rfl
  | objectBody keys =>
    simp only [Mw.call, objectBodyMw]
    split
    · exact hsame
    · simp only [Env.inBuild]
      split
      · rfl
      · exact hcall _ rfl rfl

namespace Tree

variable {env : Env} {b : Build}

theorem isMatch_build (t : Tree) :
    (t.routable env).isMatch = (t.routable (env.inBuild b)).isMatch := by
  funext v input
  rw [isMatch_eq, isMatch_eq]
  rfl

def BuildFree (env : Env) (b : Build) (t : Tree) : Prop :=
  ∀ (req : Request) (resp : Response), (t.routable env).isMatch req.method req.remaining = true →
    (t.routable env).call req resp = (t.routable (env.inBuild b)).call req resp

theorem binding_buildFree (path : List Char) {next : Tree} (hnext : next.BuildFree env b) :
    (Tree.binding path next).BuildFree env b := by
  intro req resp h
  rw [routable] at h
  simp only [routable]
  cases hm : env.ctre.startsWith (re path) req.remaining with
  | none =>
    rw [binding_isMatch_none hm] at h
    cases h
  | some m =>
    rw [binding_isMatch_some hm] at h
    have h' := h
    rw [isMatch_build (b := b)] at h'
    have hm' : (env.inBuild b).ctre.startsWith (re path) req.remaining = some m := hm
    rw [binding_call resp hm h, binding_call resp hm' h']
    exact hnext (bindRequest env path m req) resp h

-- the routes before the one that is called are steady, so that only the last one can decline
theorem group_buildFree {routes : List Tree} (hsettled : SettledRoutes routes)
    (hroutes : ∀ t ∈ routes, t.BuildFree env b) : (Tree.group routes).BuildFree env b := by
  intro req resp h
  simp only [routable, routables_eq, V60.group] at h ⊢
  induction routes with
  | nil => rfl
  | cons t ts ih =>
    rw [List.map_cons] at h
    rw [List.map_cons, List.map_cons]
    cases hm : (t.routable env).isMatch req.method req.remaining with
    | false =>
      have hm' := hm
      rw [isMatch_build (b := b)] at hm'
      rw [groupCall_skip _ hm, groupCall_skip _ hm']
      rw [List.any_cons, hm, Bool.false_or] at h
      exact ih hsettled.2.2 (fun t hmem => hroutes t (List.mem_cons_of_mem _ hmem)) h
    | true =>
      have hm' := hm
      rw [isMatch_build (b := b)] at hm'
      have hcall := hroutes t List.mem_cons_self req resp hm
      cases ts with
      | nil => simp only [groupCall, hm, hm', hcall, List.map_nil]
      | cons t' ts =>
        have hne := neverDeclines_of_steady (hsettled.2.1 (List.cons_ne_nil _ _)) req resp hm
        rw [groupCall_take _ hm hne, groupCall_take _ hm' (hcall ▸ hne), hcall]

theorem settled_of_mem {routes : List Tree} (h : SettledRoutes routes) :
    ∀ t ∈ routes, t.Settled := by
  induction routes with
  | nil => simp
  | cons t ts ih =>
    intro t' ht'
    rcases List.mem_cons.mp ht' with rfl | hmem
    · exact h.1
    · exact ih h.2.2 t' hmem

theorem buildFree_of_settled {t : Tree} (ht : t.Settled) : t.BuildFree env b := by
  induction t using Tree.induct with
  | endPoint method fn => exact fun _ _ _ => rfl
  | binding path next ih => exact binding_buildFree path (ih ht)
  | group routes ih =>
    exact group_buildFree ht fun t hmem => ih t hmem (settled_of_mem ht t hmem)
  | use mw next ih =>
    intro req resp h
    apply mw.call_build env b (isMatch_build next)
    intro req' hraw hremaining
    apply ih ht
    rw [hremaining, Request.method, hraw]
    exact h

end Tree

/-! ## Behind `not_found_mw` -/

section Builds

variable {t : Tree} {guards : List Guard}

theorem notFoundMw_build (env : Env) (b : Build) (ht : t.Settled) (raw : StrRequest)
    (resp : Response) :
    notFoundMw (t.routable env) (.ofRaw raw) resp =
      notFoundMw (t.routable (env.inBuild b)) (.ofRaw raw) resp := by
  rw [notFoundMw, notFoundMw, ← Tree.isMatch_build]
  split_ifs with hmatch
  · exact Tree.buildFree_of_settled ht (.ofRaw raw) resp hmatch
  · rfl

/-- Behind `not_found_mw` the server of a settled tree has the same runs in every build: with and
without `assert`, and whatever a view of memory that was moved away or an iterator of an empty
match would read. -/
theorem Process.builds_agree (ht : t.Settled) (hguards : .notFound ∈ guards) (env : Env)
    (b : Build) (beast : Beast) (p p' : Process) (labels : List Label) :
    Run env beast (stack guards t) p labels p' ↔
      Run (env.inBuild b) beast (stack guards t) p labels p' :=
  run_iff (handleRequest_stack_congr hguards (notFoundMw_build env b ht))

end Builds

/-- The texts of a cookie and of a parameter, behind a route for another verb. -/
def textRoutes : Tree :=
  .group [.use .logging (.postAt "/age".toList helloHandler),
    .use (.cookieParser ["name".toList]) parameterRoute]

theorem settled_textRoutes : textRoutes.Settled :=
  ⟨trivial, fun _ => ⟨trivial, trivial⟩, trivial, fun h => absurd rfl h, trivial⟩

def helloRequest (header : String) : StrRequest :=
  { worldRequest with fields := [("Cookie".toList, header.toList)] }

def textClient : Client := ⟨[helloRequest "name=v60", pageRequest], 2⟩

theorem Process.builds_agree_text :
    let root := stack [.serverFault, .notFound] textRoutes
    ∃ labels p, Run (pcreEnv .debug) .reference root start labels p ∧
      Run (pcreEnv .release) .reference root start labels p ∧
      (responses (shown 0 labels)).map StrResponse.result = [200, 404] := by
  intro root
  obtain ⟨labels, p, hrun, -, -, -, hshown⟩ :=
    run_ended (pcreEnv .debug) .reference root [textClient] (by decide +kernel)
  have hrun' := (builds_agree settled_textRoutes (by decide) (pcreEnv .debug) .release .reference
    start p labels).mp hrun
  refine ⟨labels, p, hrun, hrun', ?_⟩
  rw [hshown 0 textClient rfl]
  decide +kernel

end V60
