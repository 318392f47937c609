import V60.GuardedDispatch

/-!
# What a group offers its later routes

`offers` lists the request and the response each route of a group is matched
against, for as long as the fold goes on. A route that declines took both with
it, so the routes after it are offered what is left of them. Whether a group
falls through on the same request can be told from the request it was given
(`OnlyLastDeclines`): the first route that takes it decides.
-/

namespace V60

abbrev Offer := Request × Response

def Routable.takes (r : Routable) (o : Offer) : Bool := r.isMatch o.1.method o.1.remaining

def Routable.Declines (r : Routable) (o : Offer) : Prop :=
  r.takes o = true ∧ (r.call o.1 o.2).outcome = .returned false ∧ (r.call o.1 o.2).writes = []

def Offer.movedFrom (b : Build) (o : Offer) : Offer := (o.1.movedFrom b, o.2.movedFrom)

def offers (b : Build) : List Routable → Offer → List Offer
  | [], _ => []
  | r :: rs, o =>
    o :: (if r.takes o then
        if (r.call o.1 o.2).outcome = .returned false then offers b rs (o.movedFrom b) else []
      else offers b rs o)

/-- What a group does is what its routes do with what they are offered. -/
theorem groupCall_events (b : Build) (routes : List Routable) (o : Offer) :
    (groupCall b routes o.1 o.2).events =
      (routes.zip (offers b routes o)).flatMap fun x =>
        if x.1.takes x.2 then (x.1.call x.2.1 x.2.2).events else [] := by
  induction routes generalizing o with
  | nil => rfl
  | cons r rs ih =>
    rw [offers, List.zip_cons_cons, List.flatMap_cons]
    cases hr : r.takes o with
    | false =>
      rw [groupCall_skip rs hr]
      simpa [hr] using ih o
    | true =>
      by_cases ho : (r.call o.1 o.2).outcome = .returned false
      · rw [groupCall_decline rs hr ho]
        simpa [hr, ho, Offer.movedFrom] using ih (o.movedFrom b)
      · rw [groupCall_take rs hr ho]
        simp [ho]

structure Offer.Same (o given : Offer) : Prop where
  method : o.1.method = given.1.method
  path : o.1.path = given.1.path
  remaining : o.1.remaining = given.1.remaining
  headers : o.1.raw.fields = given.1.raw.fields
  params : o.1.params = given.1.params
  body : o.1.body = given.1.body
  sender : o.2.sender = given.2.sender

/-- Every route after one that declined is offered what the group was given. -/
def FallsThrough (b : Build) (routes : List Routable) (given : Offer) : Prop :=
  ∀ i (r : Routable) o, routes[i]? = some r → (offers b routes given)[i]? = some o →
    r.Declines o → ∀ (j : ℕ) (o' : Offer), i < j → (offers b routes given)[j]? = some o' →
      o'.Same given

/-- The first route that takes the request, if it returns false, is the last one. Or it has sent a
response, as `not_found_mw` and `server_fault_mw` do; then what is left of the request is to be
settled in the same way by the routes after it. -/
def OnlyLastDeclines (b : Build) : List Routable → Offer → Prop
  | [], _ => True
  | r :: rs, given =>
    if r.takes given then
      (r.call given.1 given.2).outcome = .returned false →
        rs = [] ∨ (r.call given.1 given.2).writes ≠ [] ∧ OnlyLastDeclines b rs (given.movedFrom b)
    else OnlyLastDeclines b rs given

section Condition

variable {b : Build} {given : Offer} {r : Routable} {rs : List Routable}

theorem onlyLastDeclines_skip (h : r.takes given = false) :
    OnlyLastDeclines b (r :: rs) given ↔ OnlyLastDeclines b rs given := by
  rw [OnlyLastDeclines, if_neg (by simp [h])]

/-- A route that keeps what it took settles the group. -/
theorem onlyLastDeclines_take (h : r.takes given = true)
    (ho : (r.call given.1 given.2).outcome ≠ .returned false) :
    OnlyLastDeclines b (r :: rs) given := by
  rw [OnlyLastDeclines, if_pos h]
  exact fun hfalse => absurd hfalse ho

theorem offers_skip (h : r.takes given = false) :
    offers b (r :: rs) given = given :: offers b rs given := by
  rw [offers, if_neg (by simp [h])]

theorem offers_take (h : r.takes given = true)
    (ho : (r.call given.1 given.2).outcome ≠ .returned false) :
    offers b (r :: rs) given = [given] := by
  rw [offers, if_pos h, if_neg ho]

theorem offers_decline (h : r.takes given = true)
    (ho : (r.call given.1 given.2).outcome = .returned false) :
    offers b (r :: rs) given = given :: offers b rs (given.movedFrom b) := by
  rw [offers, if_pos h, if_pos ho]

end Condition

/-- The condition on the given request says of the whole fold that no route but the last declines
what it is offered. -/
theorem onlyLastDeclines_iff {b : Build} {routes : List Routable} {given : Offer} :
    OnlyLastDeclines b routes given ↔ ∀ i (r : Routable) o, routes[i]? = some r →
      (offers b routes given)[i]? = some o → r.Declines o → i + 1 = routes.length := by
  induction routes generalizing given with
  | nil => simp [OnlyLastDeclines]
  | cons r rs ih =>
    cases hr : r.takes given with
    | false =>
      rw [onlyLastDeclines_skip hr, offers_skip hr, ih]
      constructor
      · intro h i r' o hr' ho hdecl
        cases i with
        | zero =>
          obtain rfl := Option.some.inj hr'
          obtain rfl := Option.some.inj ho
          exact absurd hdecl.1 (by simp [hr])
        | succ i => exact congrArg (· + 1) (h i r' o hr' ho hdecl)
      · intro h i r' o hr' ho hdecl
        exact Nat.succ.inj (h (i + 1) r' o hr' ho hdecl)
    | true =>
      by_cases hfalse : (r.call given.1 given.2).outcome = .returned false
      · rw [OnlyLastDeclines, if_pos hr, offers_decline hr hfalse]
        constructor
        · intro h i r' o hr' ho hdecl
          cases i with
          | zero =>
            obtain rfl := Option.some.inj hr'
            obtain rfl := Option.some.inj ho
            rcases h hfalse with rfl | ⟨hsent, -⟩
            · rfl
            · exact absurd hdecl.2.2 hsent
          | succ i =>
            rcases h hfalse with rfl | ⟨-, hrest⟩
            · simp at hr'
            · exact congrArg (· + 1) (ih.mp hrest i r' o hr' ho hdecl)
        · intro h _
          by_cases hnil : rs = []
          · exact Or.inl hnil
          · refine Or.inr ⟨fun hsilent => hnil ?_, ih.mpr fun i r' o hr' ho hdecl => ?_⟩
            · have hlen := h 0 r given rfl rfl ⟨hr, hfalse, hsilent⟩
              exact List.length_eq_zero_iff.mp (Nat.succ.inj hlen).symm
            · exact Nat.succ.inj (h (i + 1) r' o hr' ho hdecl)
      · rw [offers_take hr hfalse]
        refine iff_of_true (onlyLastDeclines_take hr hfalse) fun i r' o hr' ho hdecl => ?_
        cases i with
        | zero =>
          obtain rfl := Option.some.inj hr'
          obtain rfl := Option.some.inj ho
          exact absurd hdecl.2.1 hfalse
        | succ i => simp at ho

theorem offers_length_le (b : Build) (routes : List Routable) (o : Offer) :
    (offers b routes o).length ≤ routes.length := by
  induction routes generalizing o with
  | nil => exact le_rfl
  | cons r rs ih =>
    rw [offers, List.length_cons, List.length_cons]
    split_ifs
    · exact Nat.succ_le_succ (ih _)
    · exact Nat.succ_le_succ (Nat.zero_le _)
    · exact Nat.succ_le_succ (ih _)

theorem offers_after_decline {b : Build} {routes : List Routable} {given o : Offer} {i : ℕ}
    {r : Routable} (hr : routes[i]? = some r) (ho : (offers b routes given)[i]? = some o)
    (hdecl : r.Declines o) (hi : i + 1 < routes.length) :
    ∃ o', (offers b routes given)[i + 1]? = some o' ∧ o'.2.sender = false := by
  induction routes generalizing given i with
  | nil => simp at hi
  | cons r' rs ih =>
    rw [offers] at ho ⊢
    cases i with
    | zero =>
      simp only [List.getElem?_cons_zero, Option.some.injEq] at hr ho
      subst hr ho
      rw [List.getElem?_cons_succ, if_pos hdecl.1, if_pos hdecl.2.1]
      cases rs with
      | nil => simp at hi
      | cons r'' rs => exact ⟨given.movedFrom b, by rw [offers, List.getElem?_cons_zero], rfl⟩
    | succ i =>
      have hi' : i + 1 < rs.length := by simpa using hi
      rw [List.getElem?_cons_succ] at hr ho ⊢
      split_ifs at ho ⊢ with htake hout
      · exact ih hr ho hi'
      · simp at ho
      · exact ih hr ho hi'

/-- What the routes do with what they are offered is what the group does, and falling through
offers the group's own request exactly when only the last route ever declines it, as long as the
group's response can send. -/
theorem fallsThrough_iff (b : Build) (routes : List Routable) (given : Offer) :
    ((groupCall b routes given.1 given.2).events =
      (routes.zip (offers b routes given)).flatMap fun x =>
        if x.1.takes x.2 then (x.1.call x.2.1 x.2.2).events else []) ∧
      (OnlyLastDeclines b routes given → FallsThrough b routes given) ∧
      (given.2.sender = true →
        FallsThrough b routes given → OnlyLastDeclines b routes given) := by
  refine ⟨groupCall_events b routes given, ?_, ?_⟩
  · intro hlast i r o hr ho hdecl j o' hij hj
    have hi := onlyLastDeclines_iff.mp hlast i r o hr ho hdecl
    have hlen := offers_length_le b routes given
    have hlt := (List.getElem?_eq_some_iff.mp hj).1
    omega
  · intro hsender hfalls
    rw [onlyLastDeclines_iff]
    intro i r o hr ho hdecl
    by_contra hne
    have hi : i + 1 < routes.length := by
      have hlt := (List.getElem?_eq_some_iff.mp hr).1
      omega
    obtain ⟨o', ho', hdead⟩ := offers_after_decline hr ho hdecl hi
    have hsame := (hfalls i r o hr ho hdecl (i + 1) o' (Nat.lt_succ_self i) ho').sender
    rw [hdead, hsender] at hsame
    exact Bool.false_ne_true hsame

def cookieRoutes : List Tree :=
  [.use (.cookieParser ["name".toList]) (.getAt "/hello".toList helloHandler),
    .getAt "/hello".toList helloHandler]

/-- With a page before them that the request is not for, and a `Cookie` header in the request. -/
theorem fallsThrough_cookie :
    let raw : StrRequest := { getRequest "/hello".toList (by decide) with
      fields := [("Cookie".toList, "name=v60".toList)] }
    let given : Offer := (Request.ofRaw raw, freshResponse .reference raw)
    let routes := Tree.routables (pcreEnv .debug)
      (.getAt "/page".toList helloHandler :: cookieRoutes)
    FallsThrough .debug routes given ∧ (groupCall .debug routes given.1 given.2).writes ≠ [] := by
  intro raw given routes
  refine ⟨(fallsThrough_iff .debug routes given).2.1 ?_, by decide +kernel⟩
  have hpage : ((Tree.getAt "/page".toList helloHandler).routable (pcreEnv .debug)).takes given =
      false := by
    decide +kernel
  refine (onlyLastDeclines_skip hpage).mpr (onlyLastDeclines_take ?_ ?_)
  · decide +kernel
  · decide +kernel

/-- Without a `Cookie` header the second route is matched, but on a request without a path and
with a response that cannot send, so nobody answers. -/
theorem cookieRoutes_not_fallsThrough :
    let raw := getRequest "/hello".toList (by decide)
    let given : Offer := (Request.ofRaw raw, freshResponse .reference raw)
    let routes := Tree.routables (pcreEnv .debug) cookieRoutes
    ¬FallsThrough .debug routes given ∧ (groupCall .debug routes given.1 given.2).writes = [] := by
  intro raw given routes
  refine ⟨fun hfalls => ?_, by decide +kernel⟩
  have hdecl : Routable.Declines (routes.get ⟨0, by decide⟩) given :=
    ⟨by decide +kernel, by decide +kernel, by decide +kernel⟩
  have hsame := hfalls 0 _ given rfl rfl hdecl 1 (given.movedFrom .debug) (by decide) rfl
  exact absurd hsame.path (by decide +kernel)

end V60
