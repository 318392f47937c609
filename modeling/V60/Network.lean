import V60.Server

/-!
# Broken connections

A connection takes some more responses and then breaks: from there on
`async_write` throws, also for the response `server_fault_mw` sends about the
exception. The definitions of this module are those of the routables again,
with the number of responses the connection still takes passed along.
`Tree.callOn_eq` relates them to the runs on a connection that holds.
-/

namespace V60

/-- A run, and how many responses the connection takes after it. -/
abbrev NetRun := Run × ℕ

namespace NetRun

def after (events : List Event) (r : NetRun) : NetRun := (r.1.after events, r.2)

def andThen (r : NetRun) (f : Bool → ℕ → NetRun) : NetRun :=
  match r.1.outcome with
  | .returned res => (f res r.2).after r.1.events
  | .threw | .aborted => r

def orElse (r : NetRun) (handler : ℕ → NetRun) : NetRun :=
  match r.1.outcome with
  | .threw => (handler r.2).after r.1.events
  | .returned _ | .aborted => r

end NetRun

namespace Response

def sendOn (r : Response) (data : List Char) (rest : Response → ℕ → NetRun) : ℕ → NetRun
  | 0 => (.failed, 0)
  | n + 1 =>
    if r.sender then
      (rest { r with resp := (r.message data).movedFrom } n).after [.wrote (r.message data)]
    else (.failed, n + 1)

def performOn (throws : Bool) : List Call → Response → ℕ → NetRun
  | [], _, n => (if throws then .failed else .done true, n)
  | .status code :: calls, r, n => performOn throws calls (r.status code) n
  | .header key value :: calls, r, n => performOn throws calls (r.header key value) n
  | .contentType type :: calls, r, n => performOn throws calls (r.contentType type) n
  | .send data :: calls, r, n => r.sendOn data (performOn throws calls) n
  | .json data :: calls, r, n =>
    (r.contentType "application/json".toList).sendOn data (performOn throws calls) n

end Response

def Handler.runOn (h : Handler) (verb : Verb) (req : Request) (resp : Response) (n : ℕ) : NetRun :=
  (resp.performOn (h.script req).throws (h.script req).calls n).after [.ran verb h.name req]

def refuseOn (resp : Response) (code : ℕ) (data : List Char) (n : ℕ) : NetRun :=
  (resp.status code).sendOn data (fun _ n => (.done false, n)) n

namespace Tree

mutual

def callOn (env : Env) : Tree → Request → Response → ℕ → NetRun
  | .endPoint method fn, req, resp, n =>
    (fn.runOn method req resp n).andThen fun _ n => (.done true, n)
  | .binding path next, req, resp, n =>
    match bindStep env path (next.routable env).isMatch req with
    | .ok req => next.callOn env req resp n
    | .error outcome => (⟨[], outcome⟩, n)
  | .group routes, req, resp, n => routesOn env routes req resp n
  | .use mw next, req, resp, n =>
    match mw with
    | .logging | .profile => next.callOn env req resp n
    | .notFound =>
      if (next.routable env).isMatch req.method req.path then next.callOn env req resp n
      else refuseOn resp 404 ("Not found: ".toList ++ req.path) n
    | .serverFault =>
      (next.callOn env req resp n).orElse (refuseOn resp 500 "Internal server error!".toList)
    | .cookieParser keys =>
      match req.header "Cookie".toList with
      | none => (.done false, n)
      | some header =>
        next.callOn env (req.withMixin (cookieObject keys (parseCookies header))) resp n
    | .objectBody keys =>
      match req.body with
      | .object _ => next.callOn env req resp n
      | .text text =>
        match env.simdjson keys text with
        | none => (.failed, n)
        | some body => next.callOn env (req.withBody (.object body)) resp n

def routesOn (env : Env) : List Tree → Request → Response → ℕ → NetRun
  | [], _, _, n => (.done false, n)
  | t :: ts, req, resp, n =>
    if (t.routable env).isMatch req.method req.remaining then
      (t.callOn env req resp n).andThen fun res n =>
        if res then (.done true, n) else routesOn env ts (req.movedFrom env.build) resp.movedFrom n
    else routesOn env ts req resp n

end

end Tree

/-! ## Cutting a run off -/

/-- What happens before the write that comes after this many. -/
def takeWrites : ℕ → List Event → List Event
  | _, [] => []
  | n, .ran verb handler req :: events => .ran verb handler req :: takeWrites n events
  | 0, .wrote _ :: _ => []
  | n + 1, .wrote resp :: events => .wrote resp :: takeWrites n events

def Run.cut (n : ℕ) (r : Run) : NetRun :=
  if r.writes.length ≤ n then (r, n - r.writes.length) else (⟨takeWrites n r.events, .threw⟩, 0)

@[simp] theorem filterMap_wrote?_ran (verb : Verb) (handler : ℕ) (req : Request)
    (events : List Event) :
    (Event.ran verb handler req :: events).filterMap Run.wrote? =
      events.filterMap Run.wrote? := rfl

@[simp] theorem filterMap_wrote?_wrote (resp : StrResponse) (events : List Event) :
    (Event.wrote resp :: events).filterMap Run.wrote? =
      resp :: events.filterMap Run.wrote? := rfl

theorem takeWrites_append {n : ℕ} {events : List Event}
    (h : n < (events.filterMap Run.wrote?).length) (rest : List Event) :
    takeWrites n (events ++ rest) = takeWrites n events := by
  induction events generalizing n with
  | nil => simp at h
  | cons event events ih =>
    cases event with
    | ran verb handler req =>
      rw [List.cons_append, takeWrites, takeWrites, ih (by simpa using h)]
    | wrote resp =>
      cases n with
      | zero => rfl
      | succ n =>
        have hlen : n < (events.filterMap Run.wrote?).length := by
          simpa using h
        rw [List.cons_append, takeWrites, takeWrites, ih hlen]

theorem takeWrites_append_of_le {n : ℕ} {events : List Event}
    (h : (events.filterMap Run.wrote?).length ≤ n) (rest : List Event) :
    takeWrites n (events ++ rest) =
      events ++ takeWrites (n - (events.filterMap Run.wrote?).length) rest := by
  induction events generalizing n with
  | nil => rfl
  | cons event events ih =>
    cases event with
    | ran verb handler req =>
      rw [filterMap_wrote?_ran] at h ⊢
      rw [List.cons_append, takeWrites, ih h, List.cons_append]
    | wrote resp =>
      obtain ⟨k, rfl⟩ : ∃ k, n = k + 1 := ⟨n - 1, by simp at h; omega⟩
      have hlen : (events.filterMap Run.wrote?).length ≤ k := by
        simpa using h
      rw [List.cons_append, takeWrites, ih hlen]
      simp

/-- The event the cut is made before is a write. -/
theorem takeWrites_split {n : ℕ} {events : List Event}
    (h : n < (events.filterMap Run.wrote?).length) :
    ∃ resp rest, events = takeWrites n events ++ .wrote resp :: rest ∧
      (takeWrites n events).filterMap Run.wrote? = (events.filterMap Run.wrote?).take n := by
  induction events generalizing n with
  | nil => simp at h
  | cons event events ih =>
    cases event with
    | ran verb handler req =>
      obtain ⟨resp, rest, hsplit, hwrites⟩ := ih (n := n) (by simpa using h)
      refine ⟨resp, rest, ?_, ?_⟩
      · rw [takeWrites, List.cons_append, ← hsplit]
      · rw [takeWrites]
        simpa using hwrites
    | wrote sent =>
      cases n with
      | zero => exact ⟨sent, events, rfl, by simp [takeWrites]⟩
      | succ n =>
        obtain ⟨resp, rest, hsplit, hwrites⟩ := ih (n := n) (by simpa using h)
        refine ⟨resp, rest, ?_, ?_⟩
        · rw [takeWrites, List.cons_append, ← hsplit]
        · rw [takeWrites]
          simpa using hwrites

theorem takeWrites_isPrefix (n : ℕ) (events : List Event) : takeWrites n events <+: events := by
  induction events generalizing n with
  | nil => exact List.prefix_refl []
  | cons event events ih =>
    cases event with
    | ran verb handler req => exact (List.prefix_cons_inj _).mpr (ih n)
    | wrote resp =>
      cases n with
      | zero => exact List.nil_prefix
      | succ n => exact (List.prefix_cons_inj _).mpr (ih n)

namespace Run

theorem cut_of_le {r : Run} {n : ℕ} (h : r.writes.length ≤ n) :
    r.cut n = (r, n - r.writes.length) := if_pos h

theorem cut_of_lt {r : Run} {n : ℕ} (h : n < r.writes.length) :
    r.cut n = (⟨takeWrites n r.events, .threw⟩, 0) := if_neg (Nat.not_le.mpr h)

/-- A run that returned was not cut off. -/
theorem cut_returned {r : Run} {n : ℕ} {res : Bool} (h : (r.cut n).1.outcome = .returned res) :
    (r.cut n).1 = r := by
  by_cases hle : r.writes.length ≤ n
  · rw [cut_of_le hle]
  · rw [cut_of_lt (by omega)] at h
    cases h

theorem cut_isPrefix (r : Run) (n : ℕ) : (r.cut n).1.events <+: r.events := by
  by_cases h : r.writes.length ≤ n
  · have hcut : (r.cut n).1.events = r.events := by rw [cut_of_le h]
    exact hcut ▸ List.prefix_rfl
  · rw [cut_of_lt (by omega)]
    exact takeWrites_isPrefix n r.events

theorem cut_silent {r : Run} (h : r.writes = []) (n : ℕ) : r.cut n = (r, n) := by
  rw [cut_of_le (by simp [h]), h, List.length_nil, Nat.sub_zero]

/-- A run after events whose writes the connection still takes. -/
theorem cut_after_of_le (r : Run) {events : List Event} {n : ℕ}
    (h : (events.filterMap wrote?).length ≤ n) :
    (r.after events).cut n =
      NetRun.after events (r.cut (n - (events.filterMap wrote?).length)) := by
  have hlen : (r.after events).writes.length =
      (events.filterMap wrote?).length + r.writes.length := by
    rw [writes_after, List.length_append]
  by_cases hr : r.writes.length ≤ n - (events.filterMap wrote?).length
  · rw [cut_of_le hr, cut_of_le (by omega), hlen, NetRun.after, Nat.sub_add_eq]
  · rw [cut_of_lt (by omega), cut_of_lt (by omega), after_events, takeWrites_append_of_le h]
    rfl

theorem cut_after_of_lt (r : Run) {events : List Event} {n : ℕ}
    (h : n < (events.filterMap wrote?).length) :
    (r.after events).cut n = (⟨takeWrites n events, .threw⟩, 0) := by
  have hlen : n < (r.after events).writes.length := by
    rw [writes_after, List.length_append]
    omega
  rw [cut_of_lt hlen, after_events, takeWrites_append h]

theorem cut_andThen (r : Run) (f : Bool → Run) (n : ℕ) :
    (r.andThen f).cut n = (r.cut n).andThen fun res n => (f res).cut n := by
  cases ho : r.outcome with
  | returned res =>
    rw [andThen_returned ho]
    by_cases h : r.writes.length ≤ n
    · rw [cut_after_of_le _ h, cut_of_le h]
      simp only [NetRun.andThen, ho]
      rfl
    · have hlt : n < r.writes.length := by omega
      rw [cut_after_of_lt _ hlt, cut_of_lt hlt]
      rfl
  | threw =>
    rw [andThen_threw ho]
    by_cases h : r.writes.length ≤ n
    · rw [cut_of_le h]
      simp only [NetRun.andThen, ho]
    · rw [cut_of_lt (by omega)]
      rfl
  | aborted =>
    rw [andThen_aborted ho]
    by_cases h : r.writes.length ≤ n
    · rw [cut_of_le h]
      simp only [NetRun.andThen, ho]
    · rw [cut_of_lt (by omega)]
      rfl

/-- On a broken connection the handler of the exception gets nothing out either. -/
theorem cut_orElse (r : Run) {handler : Run} (hbroken : handler.cut 0 = (.failed, 0)) (n : ℕ) :
    (r.orElse handler).cut n = (r.cut n).orElse fun n => handler.cut n := by
  by_cases ho : r.outcome = .threw
  · rw [orElse_threw ho]
    by_cases h : r.writes.length ≤ n
    · rw [cut_after_of_le _ h, cut_of_le h]
      simp only [NetRun.orElse, ho]
      rfl
    · have hlt : n < r.writes.length := by omega
      rw [cut_after_of_lt _ hlt, cut_of_lt hlt]
      simp only [NetRun.orElse, hbroken, NetRun.after, after, failed, List.append_nil]
  · rw [orElse_of_ne ho]
    by_cases h : r.writes.length ≤ n
    · rw [cut_of_le h]
      cases hout : r.outcome with
      | threw => exact absurd hout ho
      | returned res => simp only [NetRun.orElse, hout]
      | aborted => simp only [NetRun.orElse, hout]
    · rw [cut_of_lt (by omega)]
      simp only [NetRun.orElse, hbroken, NetRun.after, after, failed, List.append_nil]

end Run

/-! ## Runs on a connection -/

theorem Response.sendOn_eq (r : Response) (data : List Char) {rest : Response → Run}
    {restOn : Response → ℕ → NetRun} (h : ∀ r n, restOn r n = (rest r).cut n) (n : ℕ) :
    r.sendOn data restOn n = (r.send data rest).cut n := by
  cases hr : r.sender with
  | false =>
    rw [send_dead hr, Run.cut_silent rfl]
    cases n with
    | zero => rfl
    | succ n => rw [sendOn, if_neg (by simp [hr])]
  | true =>
    rw [send_alive hr]
    cases n with
    | zero =>
      have hlt : 0 < ([.wrote (r.message data)].filterMap Run.wrote?).length := Nat.zero_lt_one
      exact (Run.cut_after_of_lt _ hlt).symm
    | succ n =>
      have hle : ([.wrote (r.message data)].filterMap Run.wrote?).length ≤ n + 1 :=
        Nat.le_add_left 1 n
      rw [sendOn, if_pos hr, h]
      exact (Run.cut_after_of_le _ hle).symm

theorem Response.performOn_eq (throws : Bool) (calls : List Call) (r : Response) (n : ℕ) :
    r.performOn throws calls n = (r.perform throws calls).cut n := by
  induction calls generalizing r n with
  | nil =>
    rw [perform, performOn, Run.cut_silent]
    cases throws <;> rfl
  | cons call calls ih =>
    cases call with
    | status code => exact ih _ n
    | header key value => exact ih _ n
    | contentType type => exact ih _ n
    | send data => exact r.sendOn_eq data ih n
    | json data => exact (r.contentType "application/json".toList).sendOn_eq data ih n

theorem Handler.runOn_eq (h : Handler) (verb : Verb) (req : Request) (resp : Response) (n : ℕ) :
    h.runOn verb req resp n = (h.run verb req resp).cut n := by
  rw [runOn, run, Response.performOn_eq]
  exact (Run.cut_after_of_le _ (Nat.zero_le n)).symm

theorem refuseOn_eq (resp : Response) (code : ℕ) (data : List Char) (n : ℕ) :
    refuseOn resp code data n =
      ((resp.status code).send data fun _ => .done false).cut n :=
  (resp.status code).sendOn_eq data (fun _ n => (Run.cut_silent rfl n).symm) n

theorem refusal_broken (resp : Response) (code : ℕ) (data : List Char) :
    ((resp.status code).send data fun _ => .done false).cut 0 = (.failed, 0) :=
  (refuseOn_eq resp code data 0).symm

namespace Tree

def CutsOff (env : Env) (t : Tree) : Prop :=
  ∀ req resp n, t.callOn env req resp n = ((t.routable env).call req resp).cut n

variable {env : Env}

theorem group_cutsOff {routes : List Tree} (hroutes : ∀ t ∈ routes, t.CutsOff env) :
    (Tree.group routes).CutsOff env := by
  intro req resp n
  simp only [callOn, routable, routables_eq, V60.group]
  induction routes generalizing req resp n with
  | nil => exact (Run.cut_silent rfl n).symm
  | cons t ts ih =>
    have htail := fun req resp n =>
      ih (fun t hmem => hroutes t (List.mem_cons_of_mem _ hmem)) req resp n
    have hhead := hroutes t List.mem_cons_self req resp n
    rw [List.map_cons, routesOn, groupCall]
    split_ifs
    · rw [Run.cut_andThen, hhead]
      apply congrArg
      funext res n
      cases res with
      | true => exact (Run.cut_silent rfl n).symm
      | false => exact htail _ _ n
    · exact htail req resp n

theorem use_cutsOff {next : Tree} (hnext : next.CutsOff env) (mw : Mw) :
    (Tree.use mw next).CutsOff env := by
  intro req resp n
  cases mw with
  | logging => exact hnext req resp n
  | profile => exact hnext req resp n
  | notFound =>
    simp only [callOn, routable, V60.use, Mw.call, notFoundMw]
    split_ifs
    · exact hnext req resp n
    · exact refuseOn_eq resp 404 _ n
  | serverFault =>
    have hbroken : (answerFault resp).cut 0 = (.failed, 0) := refusal_broken resp 500 _
    simp only [callOn, routable, V60.use, Mw.call, serverFaultMw]
    rw [Run.cut_orElse _ hbroken, hnext req resp n]
    exact congrArg _ (funext fun n => refuseOn_eq resp 500 _ n)
  | cookieParser keys =>
    simp only [callOn, routable, V60.use, Mw.call]
    cases hheader : req.header "Cookie".toList with
    | none =>
      rw [cookieParserMw_none resp hheader]
      exact (Run.cut_silent rfl n).symm
    | some header =>
      rw [cookieParserMw_some resp hheader]
      exact hnext _ resp n
  | objectBody keys =>
    simp only [callOn, routable, V60.use, Mw.call]
    cases hbody : req.body with
    | object body =>
      rw [objectBodyMw_object resp hbody]
      exact hnext req resp n
    | text text =>
      cases hread : env.simdjson keys text with
      | none =>
        rw [objectBodyMw_failed resp hbody hread]
        simp only [hread]
        exact (Run.cut_silent rfl n).symm
      | some body =>
        rw [objectBodyMw_read resp hbody hread]
        simp only [hread]
        exact hnext _ resp n

/-- The run on a connection is the one on a connection that holds, cut off before the first write
that fails. -/
theorem callOn_eq (t : Tree) : t.CutsOff env := by
  induction t using Tree.induct with
  | endPoint method fn =>
    intro req resp n
    simp only [callOn, routable, V60.endPoint]
    rw [Run.cut_andThen, Handler.runOn_eq]
    exact congrArg _ (funext fun _ => funext fun n => (Run.cut_silent rfl n).symm)
  | binding path next ih =>
    intro req resp n
    simp only [callOn, routable, V60.binding]
    cases bindStep env path (next.routable env).isMatch req with
    | error outcome => exact (Run.cut_silent rfl n).symm
    | ok req => exact ih req resp n
  | group routes ih => exact group_cutsOff ih
  | use mw next ih => exact use_cutsOff ih mw

/-- Whatever the middlewares are, a call whose next write fails throws, after the events and the
writes that came before that write on a connection that holds. No handler catches that exception. -/
theorem callOn_breaks (env : Env) (t : Tree) (req : Request) (resp : Response) (n : ℕ) :
    let healthy := (t.routable env).call req resp
    let run := t.callOn env req resp n
    (healthy.writes.length ≤ n → run = (healthy, n - healthy.writes.length)) ∧
      (n < healthy.writes.length → run.1.outcome = .threw ∧ run.2 = 0 ∧
        run.1.writes = healthy.writes.take n ∧
        ∃ unsent rest, healthy.events = run.1.events ++ .wrote unsent :: rest) := by
  intro healthy run
  have hrun : run = healthy.cut n := t.callOn_eq req resp n
  rw [hrun]
  constructor
  · intro h
    exact Run.cut_of_le h
  · intro h
    obtain ⟨unsent, rest, hsplit, hwrites⟩ := takeWrites_split h
    rw [Run.cut_of_lt h]
    exact ⟨rfl, rfl, hwrites, unsent, rest, hsplit⟩

end Tree

end V60
