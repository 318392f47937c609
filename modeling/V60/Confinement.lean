import V60.RegexSemantics
import V60.Settled

/-!
# What a handler is shown of a target

`handle_request` refuses a target with two dots in a row, once and for the whole
server. What a handler gets to see of a target is cut out of it: the part that
is left, and the texts of the parameters. So no handler of any session is ever
shown two dots (`Process.no_traversal`), as long as no route of a group is called
after one that declined: it would be shown views of memory that was moved away.
-/

namespace V60

open Regex

theorem hasDots_iff {text : List Char} : hasDots text = true ↔ ['.', '.'] <:+: text := by
  fun_induction hasDots text with
  | case1 cs => exact iff_of_true rfl ⟨[], cs, rfl⟩
  | case2 c cs hne ih =>
    rw [ih, List.infix_cons_iff]
    constructor
    · intro h
      exact Or.inr h
    · intro h
      rcases h with h | h
      · obtain ⟨rest, heq⟩ := h
        obtain ⟨rfl, rfl⟩ := List.cons.inj heq
        exact absurd rfl (hne rest rfl)
      · exact h
  | case3 => simp

theorem hasDots_infix {part text : List Char} (h : part <:+: text)
    (htext : hasDots text = false) : hasDots part = false := by
  cases hpart : hasDots part with
  | false => rfl
  | true =>
    have hdots := hasDots_iff.mpr ((hasDots_iff.mp hpart).trans h)
    rw [htext] at hdots
    cases hdots

/-- The engine takes the text of a group from the text it matches. -/
def Ctre.CutsOut (ctre : Ctre) : Prop :=
  ∀ regex input m key, ctre.startsWith regex input = some m → m.captured key <:+: input

theorem Ctre.pcre_cutsOut : Ctre.pcre.CutsOut := by
  intro regex input m key h
  obtain ⟨r, -, hr⟩ := Option.bind_eq_some_iff.mp h
  obtain ⟨t, ht, rfl⟩ := Option.map_eq_some_iff.mp hr
  simp only [toMatch, groupText]
  cases (captures r).find? fun g => g.2 = some key with
  | none => exact List.nil_infix
  | some g =>
    cases hlookup : t.caps.lookup g.1 with
    | none => simp [hlookup]
    | some text =>
      obtain ⟨before, after, hcaps, -⟩ := List.lookup_eq_some_iff.mp hlookup
      have hmem : (g.1, text) ∈ t.caps := by
        rw [hcaps]
        exact List.mem_append_right _ List.mem_cons_self
      simp only [hlookup, Option.getD_some]
      exact (startsWith_within ht).caps _ hmem

/-- What the request shows is cut out of the target. -/
structure Request.Confined (raw : StrRequest) (req : Request) : Prop where
  original : req.raw = raw
  remaining : req.remaining <:+ raw.target
  params : ∀ {key value}, req.params.get key = some value → value <:+: raw.target

namespace Request.Confined

variable {raw : StrRequest} {req req' : Request}

theorem ofRaw (raw : StrRequest) : (Request.ofRaw raw).Confined raw where
  original := rfl
  remaining := List.suffix_refl _
  params {key value} h := by
    rw [Request.ofRaw, Object.get_ofKeys, if_neg List.not_mem_nil] at h
    cases h

theorem withParams (h : req.Confined raw) {names : List Key} {captured : Key → List Char}
    (hcaptured : ∀ key, captured key <:+: raw.target) :
    (req.withParams (bindParams names captured req.params)).Confined raw where
  original := h.original
  remaining := h.remaining
  params {key value} hget := by
    have hbound : (bindParams names captured req.params).get key = some value := hget
    rw [get_bindParams] at hbound
    split_ifs at hbound
    · exact Option.some.inj hbound ▸ hcaptured key
    · exact h.params hbound

theorem same (h : req.Confined raw) (hraw : req'.raw = req.raw)
    (hremaining : req'.remaining = req.remaining) (hparams : req'.params = req.params) :
    req'.Confined raw where
  original := hraw.trans h.original
  remaining := hremaining ▸ h.remaining
  params {_ _} hget := h.params (hparams ▸ hget)

theorem consume (h : req.Confined raw) {n : ℤ} (hreq : req.consume n = some req') :
    req'.Confined raw := by
  rw [Request.consume] at hreq
  split_ifs at hreq
  obtain rfl := Option.some.inj hreq
  exact ⟨h.original, (List.drop_suffix _ _).trans h.remaining, h.params⟩

/-- A binding hands on what it was given, with what a match captured or, without one, nothing. -/
theorem bindStep {env : Env} (henv : env.ctre.CutsOut) {path : List Char}
    {next : Verb → List Char → Bool} (h : req.Confined raw)
    (hstep : V60.bindStep env path next req = .ok req') : req'.Confined raw := by
  simp only [V60.bindStep] at hstep
  cases hm : env.ctre.startsWith (re path) req.remaining with
  | none =>
    simp only [hm] at hstep
    split_ifs at hstep
    split at hstep
    · cases hstep
    · obtain rfl := Except.ok.inj hstep
      exact (h.withParams fun _ => List.nil_infix).consume ‹_›
  | some m =>
    simp only [hm] at hstep
    split_ifs at hstep
    have hcaptured : ∀ key, m.captured key <:+: raw.target := fun key =>
      (henv _ _ _ key hm).trans h.remaining.isInfix
    split at hstep
    · cases hstep
    · obtain rfl := Except.ok.inj hstep
      exact (h.withParams hcaptured).consume ‹_›

end Request.Confined

namespace Tree

section Confined

variable {env : Env} {raw : StrRequest}

-- a steady route that is called does not decline, and the last has no other after it
theorem group_confined {routes : List Tree} (hsettled : SettledRoutes routes)
    (ih : ∀ t ∈ routes, ∀ req : Request, req.Confined raw → ∀ resp,
      ∀ x ∈ ((t.routable env).call req resp).handlers, x.2.2.Confined raw)
    {req : Request} (h : req.Confined raw) (resp : Response) :
    ∀ x ∈ (((Tree.group routes).routable env).call req resp).handlers, x.2.2.Confined raw := by
  simp only [routable, routables_eq, V60.group]
  induction routes with
  | nil => simp [groupCall, Run.done, Run.handlers]
  | cons t ts ihts =>
    rw [List.map_cons]
    cases hm : (t.routable env).isMatch req.method req.remaining with
    | false =>
      rw [groupCall_skip _ hm]
      exact ihts hsettled.2.2 fun t hmem => ih t (List.mem_cons_of_mem _ hmem)
    | true =>
      have hfirst := ih t List.mem_cons_self req h resp
      by_cases hne : ((t.routable env).call req resp).outcome = .returned false
      · cases ts with
        | nil =>
          rw [groupCall_decline _ hm hne, List.map_nil, groupCall, Run.handlers_after]
          simpa [Run.done, Run.handlers] using hfirst
        | cons t' ts =>
          have hsteady := hsettled.2.1 (List.cons_ne_nil _ _)
          exact absurd hne (neverDeclines_of_steady hsteady req resp hm)
      · rw [groupCall_take _ hm hne]
        exact hfirst

theorem handlers_confined (henv : env.ctre.CutsOut) {t : Tree} (ht : t.Settled)
    {req : Request} (h : req.Confined raw) (resp : Response) :
    ∀ x ∈ ((t.routable env).call req resp).handlers, x.2.2.Confined raw := by
  induction t using Tree.induct generalizing req resp with
  | endPoint method fn =>
    rw [routable, endPoint_call, Handler.run_handlers]
    simpa using h
  | binding path next ih =>
    simp only [routable, V60.binding]
    cases hstep : V60.bindStep env path (next.routable env).isMatch req with
    | error outcome => simp [Run.handlers]
    | ok req' => exact ih ht (h.bindStep henv hstep) resp
  | group routes ih =>
    apply group_confined ht _ h resp
    intro t hmem req hreq resp
    exact ih t hmem (settled_of_mem ht t hmem) hreq resp
  | use mw next ih =>
    have hcalled := Mw.called env mw (next.routable env) req resp
    simp only [routable, V60.use]
    generalize mw.call env (next.routable env) req resp = run at hcalled ⊢
    cases hcalled with
    | handsOn req' hraw hremaining hparams => exact ih ht (h.same hraw hremaining hparams) resp
    | refuses data => simp [refuse_handlers]
    | recovers =>
      by_cases ho : ((next.routable env).call req resp).outcome = .threw
      · rw [Run.orElse_threw ho, Run.handlers_after, answerFault, refuse_handlers,
          List.append_nil]
        exact ih ht h resp
      · rw [Run.orElse_of_ne ho]
        exact ih ht h resp
    | declines => simp [Run.done, Run.handlers]
    | fails => simp [Run.failed, Run.handlers]

end Confined

end Tree

/-- Whatever the patterns and the handlers are, in every run of the process every handler is called
on a request of its own client, for an absolute path, and neither the path nor what is left of it
nor any parameter holds two dots in a row. -/
theorem Process.no_traversal {env : Env} (henv : env.ctre.CutsOut) {beast : Beast} {t : Tree}
    (ht : t.Settled) {labels : List Label} {p : Process} (h : Run env beast t start labels p)
    {i : ℕ} {verb : Verb} {handler : ℕ} {req : Request}
    (hran : .acted i (.event (.ran verb handler req)) ∈ labels) :
    ∃ client, (clients labels)[i]? = some client ∧ req.raw ∈ client.requests ∧
      req.path.head? = some '/' ∧ hasDots req.path = false ∧ hasDots req.remaining = false ∧
      ∀ key value, req.params.get key = some value → hasDots value = false := by
  obtain ⟨client, raw, hclient, hraw, hevent⟩ := run_origin h hran
  have hcalled : (verb, handler, req) ∈ (handleRequest beast (t.routable env) raw).handlers :=
    List.mem_filterMap.mpr ⟨_, hevent, rfl⟩
  cases hbad : badTarget raw.target with
  | true =>
    rw [handleRequest_bad hbad] at hcalled
    simp [Run.handlers, Run.ran?] at hcalled
  | false =>
    rw [handleRequest_good hbad] at hcalled
    have hconfined := Tree.handlers_confined henv ht (.ofRaw raw) _ _ hcalled
    rw [badTarget, Bool.or_eq_false_iff, Bool.or_eq_false_iff] at hbad
    obtain ⟨⟨-, hslash⟩, hdots⟩ := hbad
    obtain rfl := hconfined.original
    have habsolute : req.raw.target.head? = some '/' := by simpa using hslash
    refine ⟨client, hclient, hraw, habsolute, hdots, ?_, ?_⟩
    · exact hasDots_infix hconfined.remaining.isInfix hdots
    · intro key value hget
      exact hasDots_infix (hconfined.params hget) hdots

theorem Process.no_traversal_hello :
    ∃ verb handler req labels p,
      Run (pcreEnv .debug) .reference parameterRoute start labels p ∧
      .acted 0 (.event (.ran verb handler req)) ∈ labels ∧
      ∃ client, (clients labels)[0]? = some client ∧ req.raw ∈ client.requests ∧
        req.path.head? = some '/' ∧ hasDots req.path = false ∧ hasDots req.remaining = false ∧
        ∀ key value, req.params.get key = some value → hasDots value = false := by
  let raw := getRequest "/hello/world".toList (by decide)
  have hmatch : (parameterRoute.routable (pcreEnv .debug)).isMatch raw.method raw.target =
      true := by
    decide +kernel
  have hpasses : parameterRoute.All Mw.Passes fun _ => True := trivial
  have hsettled : parameterRoute.Settled := trivial
  rw [Tree.isMatch_eq, Option.isSome_iff_exists] at hmatch
  obtain ⟨e, he⟩ := hmatch
  have haccepts : e.accepts (pcreEnv .debug).ctre (Request.ofRaw raw).method
      (Request.ofRaw raw).remaining = true := Tree.lookup_accepts he
  obtain ⟨req, hreq, -⟩ := Entry.descend_of_accepts haccepts
  have hran : .ran e.verb e.handler.name req ∈
      (handleRequest .reference (parameterRoute.routable (pcreEnv .debug)) raw).events := by
    rw [handleRequest_good (by decide), Tree.call_eq hpasses (Request.ofRaw raw) _ he,
      Entry.run, hreq]
    exact List.mem_cons_self
  obtain ⟨labels, p, -, -, hrun, -, -, hevents⟩ := run_request (pcreEnv .debug) .reference
    parameterRoute raw
  have hmem := hevents _ hran
  exact ⟨_, _, req, labels, p, hrun, hmem, no_traversal Ctre.pcre_cutsOut hsettled hrun hmem⟩

end V60
