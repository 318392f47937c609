import V60.Process

/-!
# Servers that nothing tells apart

`do_session` makes no use of the value its root returns. Apart from it, the
traces of a process say all about how its server handles a request: two servers
have the same traces exactly when they handle every request alike
(`Process.same_traces_iff`).
-/

namespace V60

/-- A return, whatever was returned. -/
def Outcome.forget : Outcome → Outcome
  | .returned _ => .returned true
  | .threw => .threw
  | .aborted => .aborted

def Run.forget (r : Run) : Run := ⟨r.events, r.outcome.forget⟩

theorem Run.forget_writes (r : Run) : r.forget.writes = r.writes := rfl

theorem Run.cut_forget (r : Run) (n : ℕ) :
    r.forget.cut n = ((r.cut n).1.forget, (r.cut n).2) := by
  by_cases h : r.writes.length ≤ n
  · rw [cut_of_le (r := r) h, cut_of_le (r := r.forget) h]
    rfl
  · rw [cut_of_lt (r := r) (by omega), cut_of_lt (r := r.forget) (by rw [forget_writes]; omega)]
    rfl

namespace Session

variable {env env' : Env} {beast : Beast} {t t' : Tree}

def forget : Session → Session
  | .reading close client => .reading close client
  | .handling close run client => .handling close run.forget client
  | .ended => .ended

/-- What a session does next does not depend on what was returned. -/
theorem step_forget (s : Session) :
    (s.step env beast t).map (Prod.map id forget) =
      (s.forget.step env beast t).map (Prod.map id forget) := by
  cases s with
  | reading close client => rfl
  | handling close run client =>
    obtain ⟨events, outcome⟩ := run
    cases events with
    | cons event events => cases outcome <;> rfl
    | nil =>
      cases outcome with
      | returned res => cases close <;> rfl
      | threw => rfl
      | aborted => rfl
  | ended => rfl

theorem step_alike (hroot : ∀ raw, (handleRequest beast (t.routable env) raw).forget =
    (handleRequest beast (t'.routable env') raw).forget) (s : Session) :
    (s.step env beast t).map (Prod.map id forget) =
      (s.step env' beast t').map (Prod.map id forget) := by
  cases s with
  | reading close client =>
    obtain ⟨requests, n⟩ := client
    cases requests with
    | nil => rfl
    | cons raw rest =>
      have hcut := Run.cut_forget (handleRequest beast (t.routable env) raw) n
      rw [hroot, Run.cut_forget] at hcut
      obtain ⟨hrun, hleft⟩ := Prod.mk.inj hcut
      rw [step, step, handleRequestOn_eq, handleRequestOn_eq]
      simp only [Option.map_some, Prod.map, forget, hrun, hleft]
  | handling close run client =>
    obtain ⟨events, outcome⟩ := run
    cases events with
    | cons event events => rfl
    | nil => cases outcome <;> rfl
  | ended => rfl

theorem step_simulates (hroot : ∀ raw, (handleRequest beast (t.routable env) raw).forget =
    (handleRequest beast (t'.routable env') raw).forget) {s s' s₁ : Session} {a : Act}
    (hforget : s.forget = s'.forget) (h : s.step env beast t = some (a, s₁)) :
    ∃ s₁', s'.step env' beast t' = some (a, s₁') ∧ s₁.forget = s₁'.forget := by
  have hnext : (s'.step env' beast t').map (Prod.map id forget) = some (a, s₁.forget) := by
    rw [← step_alike hroot, step_forget, ← hforget, ← step_forget, h]
    rfl
  obtain ⟨⟨a', s₁'⟩, hstep, heq⟩ := Option.map_eq_some_iff.mp hnext
  obtain ⟨rfl, hsame⟩ := Prod.mk.inj heq
  exact ⟨s₁', hstep, hsame.symm⟩

end Session

/-- What the end of a run makes the session do. -/
def Outcome.act (close : Bool) : Outcome → Act
  | .returned _ => if close then .shutdown else .returned
  | .threw => .failed
  | .aborted => .aborted

theorem Outcome.act_ne (o : Outcome) (close : Bool) (e : Event) : o.act close ≠ .event e := by
  cases o with
  | returned res => cases close <;> simp [act]
  | threw => simp [act]
  | aborted => simp [act]

theorem Outcome.forget_eq_of_act {o o' : Outcome} {close close' : Bool}
    (h : o.act close = o'.act close') : o.forget = o'.forget := by
  cases o <;> cases o' <;> cases close <;> cases close' <;> simp_all [act, forget]

/-- What a session does with a request. -/
def handled (beast : Beast) (r : Run) : List Act :=
  r.events.map .event ++ [r.outcome.act (closeAfter beast false r.writes)]

theorem eq_of_prefix {xs ys : List Event} {a b : Act} (ha : ∀ e, a ≠ .event e)
    (hb : ∀ e, b ≠ .event e) (h : xs.map .event ++ [a] <+: ys.map .event ++ [b]) :
    xs = ys ∧ a = b := by
  induction xs generalizing ys with
  | nil =>
    cases ys with
    | nil => exact ⟨rfl, (List.cons_prefix_cons.mp h).1⟩
    | cons y ys => exact absurd (List.cons_prefix_cons.mp h).1 (ha y)
  | cons x xs ih =>
    cases ys with
    | nil => exact absurd (List.cons_prefix_cons.mp h).1.symm (hb x)
    | cons y ys =>
      obtain ⟨heq, htail⟩ := List.cons_prefix_cons.mp h
      obtain ⟨rfl, rfl⟩ := ih htail
      obtain rfl := Act.event.inj heq
      exact ⟨rfl, rfl⟩

theorem handled_inj {beast : Beast} {r r' : Run}
    (h : handled beast r <+: handled beast r') : r.forget = r'.forget := by
  obtain ⟨hevents, hact⟩ := eq_of_prefix (r.outcome.act_ne _) (r'.outcome.act_ne _) h
  have houtcome := Outcome.forget_eq_of_act hact
  simp only [Run.forget, hevents, houtcome]

theorem acts_acted (i : ℕ) (acts : List Act) :
    Machines.acts i (moves (acts.map (.acted i))) = acts := by
  induction acts with
  | nil => rfl
  | cons a acts ih =>
    have hmoves : moves ((a :: acts).map (.acted i)) =
        .act i a :: moves (acts.map (.acted i)) := rfl
    rw [hmoves, Machines.acts_cons_self, ih]

section Traces

variable (env env' : Env) (beast : Beast) (t t' : Tree)

theorem Session.step_handled (close : Bool) (o : Outcome) (client : Client) :
    ∃ s, Session.step env beast t (.handling close ⟨[], o⟩ client) = some (o.act close, s) := by
  cases o with
  | returned res => cases close <;> exact ⟨_, rfl⟩
  | threw => exact ⟨_, rfl⟩
  | aborted => exact ⟨_, rfl⟩

theorem Session.run_handled (raw : StrRequest) (n : ℕ) :
    ∃ s, Machines.Run (Session.step env beast t) (.start ⟨[raw], n⟩)
      (.read raw :: handled beast (handleRequestOn env beast t raw n).1) s := by
  have hread := run_read (rfl : handleRequestOn env beast t raw n = _) false []
  obtain ⟨s, hs⟩ := step_handled env beast t _ _ _
  exact ⟨s, hread.append (.one hs)⟩

def requestLabels (raw : StrRequest) (n : ℕ) (acts : List Act) : List Label :=
  setupCalls.map .setUp ++ [.accepted ⟨[raw], n⟩] ++ acts.map (.acted 0)

theorem acts_requestLabels (raw : StrRequest) (n : ℕ) (acts : List Act) :
    Machines.acts 0 (moves (requestLabels raw n acts)) = acts :=
  acts_acted 0 acts

theorem Process.run_handled (raw : StrRequest) (n : ℕ) :
    ∃ p, Run env beast t start
      (requestLabels raw n (.read raw :: handled beast (handleRequestOn env beast t raw n).1))
      p := by
  have hserving := run_serving env beast t [⟨[raw], n⟩]
  have hread := Session.run_read (rfl : handleRequestOn env beast t raw n = _) false []
  have halone := run_alone (p := serving [⟨[raw], n⟩]) (i := 0) rfl rfl hread (by simp)
  obtain ⟨s, hs⟩ := Session.step_handled env beast t _ _ _
  have hhandled := halone.append (.one (.acted (i := 0) rfl rfl hs))
  apply Exists.intro
  rw [requestLabels, handled, List.map_cons, List.map_append]
  exact hserving.append hhandled

end Traces

namespace Process

variable {env env' : Env} {beast : Beast} {t t' : Tree}

def forget (p : Process) : Process := { p with sessions := p.sessions.map Session.forget }

theorem step_simulates (hroot : ∀ raw, (handleRequest beast (t.routable env) raw).forget =
    (handleRequest beast (t'.routable env') raw).forget) {p q : Process} {label : Label}
    {p' : Process} (hforget : p.forget = q.forget) (h : Step env beast t p label p') :
    ∃ q', Step env' beast t' q label q' ∧ p'.forget = q'.forget := by
  obtain ⟨hlistener, hlog, hsessions, hup⟩ := Process.mk.inj hforget
  cases h with
  | setUp hp hl =>
    refine ⟨_, .setUp (hup ▸ hp) (hlistener ▸ hl), ?_⟩
    simp only [forget, hlog, hsessions, hup]
  | refused message hp hl =>
    refine ⟨_, .refused message (hup ▸ hp) (hlistener ▸ hl), ?_⟩
    simp only [forget, failListener, hlog, hsessions, hup]
  | accepted client hp hl =>
    refine ⟨_, .accepted client (hup ▸ hp) (hlistener ▸ hl), ?_⟩
    simp only [forget, accept, List.map_append, hlistener, hlog, hsessions, hup]
  | acceptFailed hp hl =>
    refine ⟨_, .acceptFailed (hup ▸ hp) (hlistener ▸ hl), ?_⟩
    simp only [forget, failListener, hlog, hsessions, hup]
  | @acted i a s s₁ hp hs hstep =>
    have hmap := congrArg (fun sessions => sessions[i]?) hsessions
    simp only [List.getElem?_map, hs, Option.map_some] at hmap
    obtain ⟨s', hs', hsame⟩ := Option.map_eq_some_iff.mp hmap.symm
    obtain ⟨s₁', hstep', hsame₁⟩ := Session.step_simulates hroot hsame.symm hstep
    refine ⟨_, .acted (hup ▸ hp) hs' hstep', ?_⟩
    simp only [forget, act, List.map_set, hlistener, hlog, hsessions, hsame₁]

theorem trace_simulates (hroot : ∀ raw, (handleRequest beast (t.routable env) raw).forget =
    (handleRequest beast (t'.routable env') raw).forget) {labels : List Label} {p : Process}
    (h : Run env beast t start labels p) : ∃ p', Run env' beast t' start labels p' := by
  have hstep : ∀ (p q : Process) (label : Label) (p' : Process), p.forget = q.forget →
      Step env beast t p label p' → ∃ q', Step env' beast t' q label q' ∧ p'.forget = q'.forget :=
    fun _ _ _ _ => step_simulates hroot
  obtain ⟨p', htrace, -⟩ := h.simulate (fun p q : Process => p.forget = q.forget) hstep rfl
  exact ⟨p', htrace⟩

/-- Two servers have the same traces if and only if they handle every request alike, up to the
value that a route returns. -/
theorem same_traces_iff (env env' : Env) (beast : Beast) (t t' : Tree) :
    (∀ labels, (∃ p, Run env beast t start labels p) ↔ ∃ p, Run env' beast t' start labels p) ↔
      ∀ raw, (handleRequest beast (t.routable env) raw).forget =
        (handleRequest beast (t'.routable env') raw).forget := by
  constructor
  · intro h raw
    let r := handleRequest beast (t.routable env) raw
    let r' := handleRequest beast (t'.routable env') raw
    -- a connection that takes all that either server writes
    let n := max r.writes.length r'.writes.length
    have hr : (handleRequestOn env beast t raw n).1 = r := by
      rw [handleRequestOn_eq, V60.Run.cut_of_le (Nat.le_max_left _ _)]
    have hr' : (handleRequestOn env' beast t' raw n).1 = r' := by
      rw [handleRequestOn_eq, V60.Run.cut_of_le (Nat.le_max_right _ _)]
    obtain ⟨p, hp⟩ := run_handled env beast t raw n
    obtain ⟨p', hp'⟩ := (h _).mp ⟨p, hp⟩
    obtain ⟨s, -, hrun⟩ := run_session hp' (rfl : (clients _)[0]? = some ⟨[raw], n⟩)
    obtain ⟨s', hrun'⟩ := Session.run_handled env' beast t' raw n
    rw [acts_requestLabels, hr] at hrun
    rw [hr'] at hrun'
    rcases hrun.prefix_or_prefix hrun' with hprefix | hprefix
    · exact handled_inj (List.cons_prefix_cons.mp hprefix).2
    · exact (handled_inj (List.cons_prefix_cons.mp hprefix).2).symm
  · intro hroot labels
    constructor
    · intro h
      obtain ⟨p, hp⟩ := h
      exact trace_simulates hroot hp
    · intro h
      obtain ⟨p, hp⟩ := h
      exact trace_simulates (fun raw => (hroot raw).symm) hp

end Process

end V60
