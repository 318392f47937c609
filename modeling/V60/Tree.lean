import V60.Middleware

/-!
# Route trees

The expressions a program builds with `get`, `post`, `bind`, `group` and `use`,
and the routable each of them is. `Tree.induct` is the induction all results
about trees use.
-/

namespace V60

inductive Tree where
  | endPoint (method : Verb) (fn : Handler)
  | binding (path : List Char) (next : Tree)
  | group (routes : List Tree)
  | use (mw : Mw) (next : Tree)

namespace Tree

def get (fn : Handler) : Tree := .endPoint .get fn

def post (fn : Handler) : Tree := .endPoint .post fn

def getAt (path : List Char) (fn : Handler) : Tree := .binding path (get fn)

def postAt (path : List Char) (fn : Handler) : Tree := .binding path (post fn)

mutual

def routable (env : Env) : Tree → Routable
  | .endPoint method fn => V60.endPoint method fn
  | .binding path next => V60.binding env path (next.routable env)
  | .group routes => V60.group env.build (routables env routes)
  | .use mw next => V60.use env mw (next.routable env)

def routables (env : Env) : List Tree → List Routable
  | [] => []
  | t :: ts => t.routable env :: routables env ts

end

theorem routables_eq (env : Env) (ts : List Tree) : routables env ts = ts.map (routable env) := by
  induction ts with
  | nil => rfl
  | cons t ts ih => rw [routables, ih, List.map_cons]

mutual

def All (p : Mw → Prop) (q : Handler → Prop) : Tree → Prop
  | .endPoint _ fn => q fn
  | .binding _ next => next.All p q
  | .group routes => AllRoutes p q routes
  | .use mw next => p mw ∧ next.All p q

def AllRoutes (p : Mw → Prop) (q : Handler → Prop) : List Tree → Prop
  | [] => True
  | t :: ts => t.All p q ∧ AllRoutes p q ts

end

theorem allRoutes_iff {p : Mw → Prop} {q : Handler → Prop} {ts : List Tree} :
    AllRoutes p q ts ↔ ∀ t ∈ ts, t.All p q := by
  induction ts with
  | nil => simp [AllRoutes]
  | cons t ts ih => simp [AllRoutes, ih]

/-- Induction on a tree, with the hypothesis for every route of a group. -/
@[elab_as_elim]
theorem induct {motive : Tree → Prop}
    (endPoint : ∀ method fn, motive (.endPoint method fn))
    (binding : ∀ path next, motive next → motive (.binding path next))
    (group : ∀ routes, (∀ t ∈ routes, motive t) → motive (.group routes))
    (use : ∀ mw next, motive next → motive (.use mw next)) : (t : Tree) → motive t
  | .endPoint method fn => endPoint method fn
  | .binding path next => binding path next (induct endPoint binding group use next)
  | .group routes => group routes fun t _ => induct endPoint binding group use t
  | .use mw next => use mw next (induct endPoint binding group use next)

end Tree

def Mw.Passes : Mw → Prop
  | .logging | .profile => True
  | .notFound | .serverFault | .cookieParser _ | .objectBody _ => False

theorem use_call {env : Env} {mw : Mw} (h : mw.Passes) (next : Routable) :
    (use env mw next).call = next.call := by
  cases mw with
  | logging => rfl
  | profile => rfl
  | notFound => exact absurd h id
  | serverFault => exact absurd h id
  | cookieParser keys => exact absurd h id
  | objectBody keys => exact absurd h id

theorem Tree.call_use {env : Env} {mw : Mw} (h : mw.Passes) (next : Tree) :
    ((Tree.use mw next).routable env).call = (next.routable env).call :=
  use_call h _

/-- The tree between the two outermost middlewares of the examples. -/
def guarded (t : Tree) : Tree := .use .serverFault (.use .notFound t)

end V60
