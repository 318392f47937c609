import V60.Persistence
import V60.Process

/-!
# What all messages have

A route sets the status, header fields and the body of a response, moves it and
sends it, as often as it likes. What these changes keep, of the responses a
route is given and of those that were moved away, holds of every message it
sends (`Tree.call_stable`).
-/

namespace V60

/-- Every change keeps `held`, and a message that is sent from there has `sent`; header fields are
set for `allowed` keys only. -/
structure Stable (allowed : List Char → Prop) (held sent : StrResponse → Prop) : Prop where
  status : ∀ {m : StrResponse} (code : ℕ), held m → held { m with result := code }
  header : ∀ {m : StrResponse} {key : List Char} (text : List Char), allowed key → held m →
    held { m with fields := m.fields.set key text }
  moved : ∀ {m : StrResponse}, held m → held m.movedFrom
  message : ∀ {r : Response} (data : List Char), held r.resp → sent (r.message data)
  contentType : allowed "content-type".toList

namespace Run

variable {p : StrResponse → Prop} {r : Run}

theorem forall_writes_after {events : List Event} (h : ∀ m ∈ events.filterMap wrote?, p m)
    (hr : ∀ m ∈ r.writes, p m) : ∀ m ∈ (r.after events).writes, p m := by
  rw [writes_after]
  exact List.forall_mem_append.mpr ⟨h, hr⟩

theorem forall_writes_andThen {f : Bool → Run} (h : ∀ m ∈ r.writes, p m)
    (hf : ∀ res, ∀ m ∈ (f res).writes, p m) : ∀ m ∈ (r.andThen f).writes, p m := by
  cases ho : r.outcome with
  | returned res =>
    rw [andThen_returned ho]
    exact forall_writes_after h (hf res)
  | threw =>
    rw [andThen_threw ho]
    exact h
  | aborted =>
    rw [andThen_aborted ho]
    exact h

theorem forall_writes_orElse {handler : Run} (h : ∀ m ∈ r.writes, p m)
    (hhandler : ∀ m ∈ handler.writes, p m) : ∀ m ∈ (r.orElse handler).writes, p m := by
  by_cases ho : r.outcome = .threw
  · rw [orElse_threw ho]
    exact forall_writes_after h hhandler
  · rw [orElse_of_ne ho]
    exact h

end Run

section Stable

variable {allowed : List Char → Prop} {held sent : StrResponse → Prop}
  (hstable : Stable allowed held sent)
include hstable

theorem Response.send_stable {r : Response} (h : held r.resp) (data : List Char)
    {rest : Response → Run} (hrest : ∀ r, held r.resp → ∀ m ∈ (rest r).writes, sent m) :
    ∀ m ∈ (r.send data rest).writes, sent m := by
  rw [send]
  split_ifs
  · apply Run.forall_writes_after
    · simpa [Run.wrote?] using hstable.message data h
    · have hmoved : held r.resp.movedFrom := hstable.moved h
      exact hrest _ hmoved
  · simp [Run.failed, Run.writes]

theorem Response.perform_stable (throws : Bool) {calls : List Call}
    (hcalls : ∀ call ∈ calls, call.Sets allowed) {r : Response} (h : held r.resp) :
    ∀ m ∈ (r.perform throws calls).writes, sent m := by
  induction calls generalizing r with
  | nil => cases throws <;> simp [perform, Run.failed, Run.done, Run.writes]
  | cons call calls ih =>
    obtain ⟨hcall, hrest⟩ := List.forall_mem_cons.mp hcalls
    cases call with
    | status code => exact ih hrest (hstable.status code h)
    | header key value => exact ih hrest (hstable.header value hcall h)
    | contentType type => exact ih hrest (hstable.header type hstable.contentType h)
    | send data => exact r.send_stable hstable h data fun r hr => ih hrest hr
    | json data =>
      have htype := hstable.header "application/json".toList hstable.contentType h
      exact (r.contentType _).send_stable hstable htype data fun r hr => ih hrest hr

theorem refuse_stable {r : Response} (h : held r.resp) (code : ℕ) (data : List Char) :
    ∀ m ∈ ((r.status code).send data fun _ => .done false).writes, sent m :=
  (r.status code).send_stable hstable (hstable.status code h) data
    fun _ _ => by simp [Run.done, Run.writes]

variable {env : Env}

theorem groupCall_stable (b : Build) {routes : List Routable}
    (hroutes : ∀ route ∈ routes, ∀ req (resp : Response), held resp.resp →
      ∀ m ∈ (route.call req resp).writes, sent m)
    (req : Request) {resp : Response} (h : held resp.resp) :
    ∀ m ∈ (groupCall b routes req resp).writes, sent m := by
  induction routes generalizing req resp with
  | nil => simp [groupCall, Run.done, Run.writes]
  | cons route routes ih =>
    have htail : ∀ req (resp : Response), held resp.resp →
        ∀ m ∈ (groupCall b routes req resp).writes, sent m := by
      intro req resp h
      apply ih _ req h
      intro route hmem
      exact hroutes route (List.mem_cons_of_mem _ hmem)
    rw [groupCall]
    split_ifs
    · apply Run.forall_writes_andThen (hroutes route List.mem_cons_self req resp h)
      intro res
      cases res with
      | true => simp [Run.done, Run.writes]
      | false => exact htail _ _ (hstable.moved h)
    · exact htail req resp h

theorem Tree.call_stable {t : Tree} (ht : t.All (fun _ => True) (Handler.Sets allowed))
    (req : Request) {resp : Response} (h : held resp.resp) :
    ∀ m ∈ ((t.routable env).call req resp).writes, sent m := by
  induction t using Tree.induct generalizing req resp with
  | endPoint method fn =>
    rw [routable, endPoint_call, Handler.run]
    have hperform := Response.perform_stable hstable (fn.script req).throws (ht req) h
    exact Run.forall_writes_after (by simp [Run.wrote?]) hperform
  | binding path next ih =>
    simp only [routable, V60.binding]
    cases bindStep env path (next.routable env).isMatch req with
    | error outcome => simp [Run.writes]
    | ok req => exact ih ht req h
  | group routes ih =>
    rw [All, allRoutes_iff] at ht
    rw [routable, routables_eq]
    apply groupCall_stable hstable env.build _ req h
    intro route hroute
    obtain ⟨t, hmem, rfl⟩ := List.mem_map.mp hroute
    exact fun req resp h => ih t hmem (ht t hmem) req h
  | use mw next ih =>
    have hcalled := Mw.called env mw (next.routable env) req resp
    simp only [routable, V60.use]
    generalize mw.call env (next.routable env) req resp = run at hcalled ⊢
    cases hcalled with
    | handsOn req' hraw hremaining hparams => exact ih ht.2 req' h
    | refuses data => exact refuse_stable hstable h 404 data
    | recovers =>
      exact Run.forall_writes_orElse (ih ht.2 req h) (refuse_stable hstable h 500 _)
    | declines => simp [Run.done, Run.writes]
    | fails => simp [Run.failed, Run.writes]

end Stable

end V60
