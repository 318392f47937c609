import V60.Process

/-!
# Stacks of guards

The four middlewares that take no object commute with each other and say nothing
new when they are used twice: what a stack of them does depends on whether
`not_found_mw` and `server_fault_mw` are in it, and on nothing else, in every
run of the process (`Process.run_stack_iff`).
-/

namespace V60

inductive Guard where
  | logging
  | profile
  | notFound
  | serverFault
  deriving DecidableEq

def Guard.mw : Guard → Mw
  | .logging => .logging
  | .profile => .profile
  | .notFound => .notFound
  | .serverFault => .serverFault

def stack (guards : List Guard) (t : Tree) : Tree := guards.foldr (fun g t => .use g.mw t) t

theorem Routable.ext {r r' : Routable} (hmatch : ∀ v path, r.isMatch v path = r'.isMatch v path)
    (hcall : ∀ req resp, r.call req resp = r'.call req resp) : r = r' := by
  cases r
  cases r'
  congr 1
  · exact funext fun v => funext (hmatch v)
  · exact funext fun req => funext (hcall req)

/-! ## The laws -/

section Laws

variable (env : Env) (route : Routable)

theorem use_notFound_notFound :
    use env .notFound (use env .notFound route) = use env .notFound route := by
  apply Routable.ext
  · exact fun _ _ => rfl
  · intro req resp
    simp only [use, Mw.call, notFoundMw]
    split_ifs <;> rfl

theorem answerFault_outcome (resp : Response) :
    (answerFault resp).outcome = .threw → answerFault resp = .failed := by
  intro h
  cases hr : resp.sender with
  | true =>
    rw [answerFault_sends hr] at h
    cases h
  | false => exact Response.send_dead (r := resp.status 500) hr _ _

theorem orElse_answerFault (r : Run) (resp : Response) :
    (r.orElse (answerFault resp)).orElse (answerFault resp) = r.orElse (answerFault resp) := by
  by_cases ho : (r.orElse (answerFault resp)).outcome = .threw
  · by_cases hr : r.outcome = .threw
    · rw [Run.orElse_threw hr, Run.after_outcome] at ho
      rw [Run.orElse_threw hr, answerFault_outcome resp ho]
      simp [Run.orElse, Run.after, Run.failed]
    · rw [Run.orElse_of_ne hr] at ho
      exact absurd ho hr
  · exact Run.orElse_of_ne ho _

theorem use_serverFault_serverFault :
    use env .serverFault (use env .serverFault route) = use env .serverFault route := by
  apply Routable.ext
  · exact fun _ _ => rfl
  · intro req resp
    exact orElse_answerFault (route.call req resp) resp

theorem refuse_orElse (resp : Response) (code : ℕ) (data : List Char) :
    (((resp.status code).send data fun _ => .done false).orElse (answerFault resp)) =
      (resp.status code).send data fun _ => .done false := by
  cases hr : resp.sender with
  | true =>
    rw [Response.send_alive (r := resp.status code) hr]
    exact Run.orElse_of_ne (by simp [Run.done]) _
  | false =>
    rw [Response.send_dead (r := resp.status code) hr, answerFault,
      Response.send_dead (r := resp.status 500) hr]
    rfl

/-- A 404 is no exception, and one that cannot be sent ends in the same exception. -/
theorem use_notFound_serverFault :
    use env .notFound (use env .serverFault route) =
      use env .serverFault (use env .notFound route) := by
  apply Routable.ext
  · exact fun _ _ => rfl
  · intro req resp
    simp only [use, Mw.call, notFoundMw, serverFaultMw]
    split_ifs
    · rfl
    · exact (refuse_orElse resp 404 _).symm

end Laws

/-! ## Stacks -/

/-- The guards in the order of the examples. -/
def guardWith (env : Env) (notFound serverFault : Bool) (route : Routable) : Routable :=
  let inner := if notFound then use env .notFound route else route
  if serverFault then use env .serverFault inner else inner

theorem use_notFound_guardWith (env : Env) (notFound serverFault : Bool) (route : Routable) :
    use env .notFound (guardWith env notFound serverFault route) =
      guardWith env true serverFault route := by
  cases serverFault with
  | false =>
    cases notFound with
    | false => rfl
    | true => exact use_notFound_notFound env route
  | true =>
    cases notFound with
    | false => exact use_notFound_serverFault env route
    | true =>
      have hcommute := use_notFound_serverFault env (use env .notFound route)
      rw [use_notFound_notFound] at hcommute
      exact hcommute

theorem use_serverFault_guardWith (env : Env) (notFound serverFault : Bool) (route : Routable) :
    use env .serverFault (guardWith env notFound serverFault route) =
      guardWith env notFound true route := by
  cases serverFault with
  | false => rfl
  | true => exact use_serverFault_serverFault env _

theorem stack_routable (env : Env) (guards : List Guard) (t : Tree) :
    (stack guards t).routable env =
      guardWith env (decide (.notFound ∈ guards)) (decide (.serverFault ∈ guards))
        (t.routable env) := by
  induction guards with
  | nil => rfl
  | cons g guards ih =>
    have hstack : (stack (g :: guards) t).routable env =
        use env g.mw ((stack guards t).routable env) := rfl
    rw [hstack, ih]
    cases g with
    | logging => simp [Guard.mw, use, Mw.call]
    | profile => simp [Guard.mw, use, Mw.call]
    | notFound =>
      rw [Guard.mw, use_notFound_guardWith]
      simp
    | serverFault =>
      rw [Guard.mw, use_serverFault_guardWith]
      simp

theorem stack_congr {guards guards' : List Guard}
    (hnotFound : .notFound ∈ guards ↔ .notFound ∈ guards')
    (hserverFault : .serverFault ∈ guards ↔ .serverFault ∈ guards') (env : Env) (t : Tree) :
    (stack guards t).routable env = (stack guards' t).routable env := by
  rw [stack_routable, stack_routable, decide_eq_decide.mpr hnotFound,
    decide_eq_decide.mpr hserverFault]

section Requests

variable {env env' : Env} {beast : Beast} {t t' : Tree} {guards : List Guard}

/-- What a stack with `not_found_mw` comes to. -/
theorem handleRequest_stack (hguards : .notFound ∈ guards) {raw : StrRequest}
    (hraw : badTarget raw.target = false) :
    let run := notFoundMw (t.routable env) (.ofRaw raw) (freshResponse beast raw)
    handleRequest beast ((stack guards t).routable env) raw =
      if .serverFault ∈ guards then run.orElse (answerFault (freshResponse beast raw))
      else run := by
  rw [handleRequest_good hraw, stack_routable, decide_eq_true hguards]
  split_ifs with hfault
  · rw [decide_eq_true hfault]
    rfl
  · rw [decide_eq_false hfault]
    rfl

/-- Below a stack with `not_found_mw` only that and the route it guards count. -/
theorem handleRequest_stack_congr (hguards : .notFound ∈ guards)
    (h : ∀ raw resp, notFoundMw (t.routable env) (.ofRaw raw) resp =
      notFoundMw (t'.routable env') (.ofRaw raw) resp) (raw : StrRequest) :
    handleRequest beast ((stack guards t).routable env) raw =
      handleRequest beast ((stack guards t').routable env') raw := by
  cases hraw : badTarget raw.target with
  | true => rw [handleRequest_bad hraw, handleRequest_bad hraw]
  | false => rw [handleRequest_stack hguards hraw, handleRequest_stack hguards hraw, h]

end Requests

theorem stack_guarded {guards : List Guard} (hnotFound : .notFound ∈ guards)
    (hserverFault : .serverFault ∈ guards) (env : Env) (t : Tree) :
    (stack guards t).routable env = (guarded t).routable env := by
  rw [stack_routable, decide_eq_true hnotFound, decide_eq_true hserverFault]
  rfl

/-- Under stacks that agree on having `not_found_mw` and on having `server_fault_mw`, in whatever
order and however often, a server has the same runs. -/
theorem Process.run_stack_iff {guards guards' : List Guard}
    (hnotFound : .notFound ∈ guards ↔ .notFound ∈ guards')
    (hserverFault : .serverFault ∈ guards ↔ .serverFault ∈ guards') (env : Env) (beast : Beast)
    (t : Tree) (p p' : Process) (labels : List Label) :
    Run env beast (stack guards t) p labels p' ↔ Run env beast (stack guards' t) p labels p' := by
  apply run_iff
  intro raw
  rw [stack_congr hnotFound hserverFault]

/-- A request that is answered under one of them is answered by the same run under the other. -/
theorem Process.run_stack_iff_hello :
    let root := stack [.profile, .serverFault, .notFound] parameterRoute
    let root' := stack [.notFound, .logging, .notFound, .serverFault] parameterRoute
    ∃ labels p, Run (pcreEnv .debug) .reference root start labels p ∧
      Run (pcreEnv .debug) .reference root' start labels p ∧
      (responses (shown 0 labels)).map StrResponse.result = [200] := by
  intro root root'
  obtain ⟨labels, p, hrun, -, -, -, hshown⟩ :=
    run_ended (pcreEnv .debug) .reference root [helloClient] (by decide +kernel)
  have hrun' : Run (pcreEnv .debug) .reference root' start labels p :=
    (run_stack_iff (by decide) (by decide) (pcreEnv .debug) .reference parameterRoute
      start p labels).mp hrun
  refine ⟨labels, p, hrun, hrun', ?_⟩
  rw [hshown 0 helloClient rfl]
  decide +kernel

end V60
