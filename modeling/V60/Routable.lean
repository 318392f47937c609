import V60.Ctre
import V60.Response

/-!
# End points, bindings and groups

A routable answers `match` on a verb and a path, and is called on a request and
a response. The two are separate functions: nothing makes a caller ask `match`
first, and only a group and `not_found_mw` do.
-/

namespace V60

/-- The engine, the build, and the JSON reader behind `object_body`, which throws on a body it
cannot read. -/
structure Env where
  ctre : Ctre
  build : Build
  simdjson : List Key → List Char → Option (Object (List Char))

structure Routable where
  isMatch : Verb → List Char → Bool
  call : Request → Response → Run

/-- `end_point<method, FnT>`: the call runs the handler whatever the request is. -/
def endPoint (method : Verb) (fn : Handler) : Routable where
  isMatch v path := v = method && path.isEmpty
  call req resp := (fn.run method req resp).andThen fun _ => .done true

/-- The parameters of a binding's request: the old ones converted to `object_and` of both
types, then one assignment for each group name. -/
def bindParams (names : List Key) (captured : Key → List Char) (params : Object (List Char)) :
    Object (List Char) :=
  let combined := Object.convert (Object.objectAnd params.keys names) params
  combined.assign (Object.ofKeys names : Object (List Char)).keys captured

/-- What `binding<Path, NextT>` does before it calls `next`: it hands on a request, throws, or
fails an assertion. Without `assert`, a path that does not match reads the iterator of an empty
match. -/
def bindStep (env : Env) (path : List Char) (next : Verb → List Char → Bool) (req : Request) :
    Except Outcome Request :=
  let names := env.ctre.names (re path)
  let proceed (len : ℤ) (captured : Key → List Char) : Except Outcome Request :=
    match (req.withParams (bindParams names captured req.params)).consume
        (Request.castInt len) with
    | none => .error .threw
    | some req => .ok req
  match env.ctre.startsWith (re path) req.remaining with
  | some m =>
    if env.build.asserts && !next req.method (req.remaining.drop m.len) then .error .aborted
    else proceed m.len m.captured
  | none =>
    if env.build.asserts then .error .aborted
    else proceed (env.build.wild req.remaining) fun _ => []

def binding (env : Env) (path : List Char) (next : Routable) : Routable where
  isMatch v input :=
    match env.ctre.startsWith (re path) input with
    | none => false
    | some m => next.isMatch v (input.drop m.len)
  call req resp :=
    match bindStep env path next.isMatch req with
    | .ok req => next.call req resp
    | .error outcome => ⟨[], outcome⟩

/-- The fold over the routes of a group. After the first call the group holds a request and a
response that were moved from. -/
def groupCall (b : Build) : List Routable → Request → Response → Run
  | [], _, _ => .done false
  | r :: rs, req, resp =>
    if r.isMatch req.method req.remaining then
      (r.call req resp).andThen fun res =>
        if res then .done true else groupCall b rs (req.movedFrom b) resp.movedFrom
    else groupCall b rs req resp

def group (b : Build) (routes : List Routable) : Routable where
  isMatch v path := routes.any fun r => r.isMatch v path
  call := groupCall b routes

theorem get_bindParams (names : List Key) (captured : Key → List Char)
    (params : Object (List Char)) (key : Key) :
    (bindParams names captured params).get key =
      if key ∈ names then some (captured key) else params.get key := by
  rw [bindParams, Object.get_assign, Object.get_convert]
  simp only [Object.mem_keys_convert, Object.mem_keys_ofKeys, Object.objectAnd, List.mem_append]
  by_cases hn : key ∈ names
  · simp [hn]
  · by_cases hp : key ∈ params.keys
    · cases hget : params.get key with
      | none => exact absurd hp (Object.get_eq_none.mp hget)
      | some v => simp [hn, hp]
    · simp [hn, hp, Object.get_eq_none.mpr hp]

theorem endPoint_call (method : Verb) (fn : Handler) (req : Request) (resp : Response) :
    (endPoint method fn).call req resp = fn.run method req resp := by
  simp only [endPoint]
  rcases fn.run_outcome method req resp with h | h
  · rw [Run.andThen_returned h]
    simp only [Run.after, Run.done, List.append_nil, ← h]
  · rw [Run.andThen_threw h]

section Binding

variable {env : Env} {path : List Char} {next : Routable}

theorem binding_isMatch_some {m : Match} {v : Verb} {input : List Char}
    (h : env.ctre.startsWith (re path) input = some m) :
    (binding env path next).isMatch v input = next.isMatch v (input.drop m.len) := by
  simp only [binding, h]

theorem binding_isMatch_none {v : Verb} {input : List Char}
    (h : env.ctre.startsWith (re path) input = none) :
    (binding env path next).isMatch v input = false := by
  simp only [binding, h]

def bindRequest (env : Env) (path : List Char) (m : Match) (req : Request) : Request :=
  (req.withParams (bindParams (env.ctre.names (re path)) m.captured req.params)).advance m.len

theorem bindStep_ok {m : Match} {req : Request} {next : Verb → List Char → Bool}
    (h : env.ctre.startsWith (re path) req.remaining = some m)
    (hnext : next req.method (req.remaining.drop m.len) = true) :
    bindStep env path next req = .ok (bindRequest env path m req) := by
  have hlen : m.len ≤ req.remaining.length := env.ctre.len_le h
  have hconsume := Request.consume_of_le
    (req.withParams (bindParams (env.ctre.names (re path)) m.captured req.params)) hlen
  simp only [bindStep, h, hnext, Bool.not_true, Bool.and_false, Bool.false_eq_true, if_false,
    hconsume]
  rfl

theorem binding_call {m : Match} {req : Request} (resp : Response)
    (h : env.ctre.startsWith (re path) req.remaining = some m)
    (hnext : next.isMatch req.method (req.remaining.drop m.len) = true) :
    (binding env path next).call req resp = next.call (bindRequest env path m req) resp := by
  simp only [binding, bindStep_ok h hnext]

theorem binding_call_abort {req : Request} (resp : Response) (hasserts : env.build.asserts = true)
    (h : (binding env path next).isMatch req.method req.remaining = false) :
    (binding env path next).call req resp = .abort := by
  cases hm : env.ctre.startsWith (re path) req.remaining with
  | none =>
    simp only [binding, bindStep, hm, hasserts, if_true]
    rfl
  | some m =>
    rw [binding_isMatch_some hm] at h
    simp only [binding, bindStep, hm, hasserts, h, Bool.not_false, Bool.and_true, if_true]
    rfl

end Binding

section Group

variable {b : Build} {req : Request} {resp : Response}

theorem groupCall_skip {r : Routable} (rs : List Routable)
    (h : r.isMatch req.method req.remaining = false) :
    groupCall b (r :: rs) req resp = groupCall b rs req resp := by
  simp [groupCall, h]

theorem groupCall_take {r : Routable} (rs : List Routable)
    (h : r.isMatch req.method req.remaining = true)
    (hcall : (r.call req resp).outcome ≠ .returned false) :
    groupCall b (r :: rs) req resp = r.call req resp := by
  rw [groupCall, if_pos h]
  cases ho : (r.call req resp).outcome with
  | threw => exact Run.andThen_threw ho _
  | aborted => exact Run.andThen_aborted ho _
  | returned res =>
    cases res with
    | false => exact absurd ho hcall
    | true =>
      rw [Run.andThen_returned ho]
      simp only [if_true, Run.after, Run.done, List.append_nil, ← ho]

theorem groupCall_decline {r : Routable} (rs : List Routable)
    (h : r.isMatch req.method req.remaining = true)
    (hcall : (r.call req resp).outcome = .returned false) :
    groupCall b (r :: rs) req resp =
      (groupCall b rs (req.movedFrom b) resp.movedFrom).after (r.call req resp).events := by
  rw [groupCall, if_pos h, Run.andThen_returned hcall]
  rfl

theorem groupCall_none {rs : List Routable}
    (h : rs.any (fun r => r.isMatch req.method req.remaining) = false) :
    groupCall b rs req resp = .done false := by
  induction rs with
  | nil => rfl
  | cons r rs ih =>
    rw [List.any_cons, Bool.or_eq_false_iff] at h
    rw [groupCall_skip rs h.1, ih h.2]

theorem groupCall_append_skip {before : List Routable} (rs : List Routable)
    (h : before.any (fun r => r.isMatch req.method req.remaining) = false) :
    groupCall b (before ++ rs) req resp = groupCall b rs req resp := by
  induction before with
  | nil => rfl
  | cons r before ih =>
    rw [List.any_cons, Bool.or_eq_false_iff] at h
    rw [List.cons_append, groupCall_skip _ h.1, ih h.2]

theorem groupCall_append_take {before : List Routable} (rs : List Routable)
    (h : before.any (fun r => r.isMatch req.method req.remaining) = true)
    (hcall : ∀ r ∈ before, r.isMatch req.method req.remaining = true →
      (r.call req resp).outcome ≠ .returned false) :
    groupCall b (before ++ rs) req resp = groupCall b before req resp := by
  induction before with
  | nil => simp at h
  | cons r before ih =>
    cases hr : r.isMatch req.method req.remaining with
    | true =>
      have hne := hcall r List.mem_cons_self hr
      rw [List.cons_append, groupCall_take _ hr hne, groupCall_take _ hr hne]
    | false =>
      rw [List.any_cons, hr, Bool.false_or] at h
      rw [List.cons_append, groupCall_skip _ hr, groupCall_skip _ hr,
        ih h fun r hmem => hcall r (List.mem_cons_of_mem _ hmem)]

end Group

end V60
