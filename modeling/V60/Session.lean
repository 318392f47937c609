import V60.Machines
import V60.Network

/-!
# Sessions

`do_session` as a machine that takes one step at a time: it reads a request,
lets the events of its run happen one after the other, and goes back to read
or ends. The connection delivers the requests of a client and then fails to
read, and it takes some responses and then breaks. `Session.run_over` relates the
machine to the loop, cut off where the connection breaks.
-/

namespace V60

def handleRequestOn (env : Env) (beast : Beast) (t : Tree) (raw : StrRequest) (n : ℕ) : NetRun :=
  if badTarget raw.target then
    match n with
    | 0 => (.failed, 0)
    | n + 1 =>
      NetRun.after [.wrote (badRequest beast raw "Illegal request-target".toList)] (.done true, n)
  else t.callOn env (Request.ofRaw raw) (freshResponse beast raw) n

structure Client where
  requests : List StrRequest
  takes : ℕ

inductive Session where
  | reading (close : Bool) (client : Client)
  | handling (close : Bool) (run : Run) (client : Client)
  | ended

inductive Act where
  | read (raw : StrRequest)
  | event (event : Event)
  | returned
  | shutdown
  | failed
  | aborted
  | readFailed

namespace Act

/-- What the loop records of an action. -/
def io? : Act → Option Io
  | .read raw => some (.read raw)
  | .event (.wrote resp) => some (.wrote resp)
  | .shutdown => some .shutdown
  | .failed => some .failed
  | .aborted => some .aborted
  | .event (.ran ..) | .returned | .readFailed => none

end Act

namespace Session

def start (client : Client) : Session := .reading false client

def closeOn (beast : Beast) (close : Bool) : Event → Bool
  | .wrote resp => beast.needEof resp
  | .ran .. => close

/-- One step of `do_session`: the sender sets `close` before it writes. -/
def step (env : Env) (beast : Beast) (t : Tree) : Session → Option (Act × Session)
  | .reading _ ⟨[], _⟩ => some (.readFailed, .ended)
  | .reading close ⟨raw :: rest, n⟩ =>
    some (.read raw, .handling close (handleRequestOn env beast t raw n).1
      ⟨rest, (handleRequestOn env beast t raw n).2⟩)
  | .handling close ⟨event :: events, outcome⟩ client =>
    some (.event event, .handling (closeOn beast close event) ⟨events, outcome⟩ client)
  | .handling close ⟨[], .returned _⟩ client =>
    if close then some (.shutdown, .ended) else some (.returned, .reading close client)
  | .handling _ ⟨[], .threw⟩ _ => some (.failed, .ended)
  | .handling _ ⟨[], .aborted⟩ _ => some (.aborted, .ended)
  | .ended => none

end Session

/-- What the connection shows of a session when the write after this many fails. -/
def cutIo : ℕ → List Io → List Io
  | _, [] => []
  | 0, .wrote _ :: _ => [.failed]
  | n + 1, .wrote resp :: io => .wrote resp :: cutIo n io
  | n, .read raw :: io => .read raw :: cutIo n io
  | n, .shutdown :: io => .shutdown :: cutIo n io
  | n, .failed :: io => .failed :: cutIo n io
  | n, .aborted :: io => .aborted :: cutIo n io

theorem cutIo_wrote_of_le {writes : List StrResponse} {n : ℕ} (h : writes.length ≤ n)
    (io : List Io) :
    cutIo n (writes.map .wrote ++ io) = writes.map .wrote ++ cutIo (n - writes.length) io := by
  induction writes generalizing n with
  | nil => rfl
  | cons resp writes ih =>
    rw [List.length_cons] at h
    obtain ⟨k, rfl⟩ : ∃ k, n = k + 1 := ⟨n - 1, by omega⟩
    rw [List.map_cons, List.cons_append, cutIo, ih (by omega), List.length_cons,
      Nat.add_sub_add_right, List.cons_append]

theorem cutIo_wrote_of_lt {writes : List StrResponse} {n : ℕ} (h : n < writes.length)
    (io : List Io) :
    cutIo n (writes.map .wrote ++ io) = (writes.take n).map .wrote ++ [.failed] := by
  induction writes generalizing n with
  | nil => simp at h
  | cons resp writes ih =>
    cases n with
    | zero => rfl
    | succ n =>
      rw [List.map_cons, List.cons_append, cutIo, ih (by simpa using h), List.take_succ_cons,
        List.map_cons, List.cons_append]

section Handling

variable {env : Env} {beast : Beast} {t : Tree}

theorem handleRequestOn_eq (raw : StrRequest) (n : ℕ) :
    handleRequestOn env beast t raw n = (handleRequest beast (t.routable env) raw).cut n := by
  cases hraw : badTarget raw.target with
  | true =>
    rw [handleRequest_bad hraw]
    simp only [handleRequestOn, hraw, if_true]
    cases n with
    | zero => rfl
    | succ n => rfl
  | false =>
    rw [handleRequest_good hraw]
    simp only [handleRequestOn, hraw, Bool.false_eq_true, if_false]
    exact t.callOn_eq _ _ n

namespace Session

theorem step_congr {env' : Env} {t' : Tree} (hroot : ∀ raw,
    handleRequest beast (t.routable env) raw = handleRequest beast (t'.routable env') raw)
    (s : Session) : s.step env beast t = s.step env' beast t' := by
  cases s with
  | reading close client =>
    obtain ⟨requests, n⟩ := client
    cases requests with
    | nil => rfl
    | cons raw rest =>
      rw [step, step, handleRequestOn_eq, handleRequestOn_eq, hroot]
  | handling close run client =>
    obtain ⟨events, outcome⟩ := run
    cases events with
    | cons event events => rfl
    | nil => cases outcome <;> rfl
  | ended => rfl

/-- The steps of a session one by one. -/
inductive Steps (env : Env) (beast : Beast) (t : Tree) : Session → Act → Session → Prop
  | readFailed (close : Bool) (n : ℕ) :
    Steps env beast t (.reading close ⟨[], n⟩) .readFailed .ended
  | read (close : Bool) (raw : StrRequest) (rest : List StrRequest) (n : ℕ) :
    Steps env beast t (.reading close ⟨raw :: rest, n⟩) (.read raw)
      (.handling close (handleRequestOn env beast t raw n).1
        ⟨rest, (handleRequestOn env beast t raw n).2⟩)
  | event (close : Bool) (event : Event) (events : List Event) (outcome : Outcome)
    (client : Client) :
    Steps env beast t (.handling close ⟨event :: events, outcome⟩ client) (.event event)
      (.handling (closeOn beast close event) ⟨events, outcome⟩ client)
  | shutdown (res : Bool) (client : Client) :
    Steps env beast t (.handling true ⟨[], .returned res⟩ client) .shutdown .ended
  | returned (res : Bool) (client : Client) :
    Steps env beast t (.handling false ⟨[], .returned res⟩ client) .returned
      (.reading false client)
  | failed (close : Bool) (client : Client) :
    Steps env beast t (.handling close ⟨[], .threw⟩ client) .failed .ended
  | aborted (close : Bool) (client : Client) :
    Steps env beast t (.handling close ⟨[], .aborted⟩ client) .aborted .ended

theorem step_cases {s s' : Session} {a : Act} (h : s.step env beast t = some (a, s')) :
    Steps env beast t s a s' := by
  cases s with
  | reading close client =>
    obtain ⟨requests, n⟩ := client
    cases requests with
    | nil =>
      obtain ⟨rfl, rfl⟩ := Prod.mk.inj (Option.some.inj h)
      exact .readFailed close n
    | cons raw rest =>
      obtain ⟨rfl, rfl⟩ := Prod.mk.inj (Option.some.inj h)
      exact .read close raw rest n
  | handling close run client =>
    obtain ⟨events, outcome⟩ := run
    cases events with
    | cons event events =>
      obtain ⟨rfl, rfl⟩ := Prod.mk.inj (Option.some.inj h)
      exact .event close event events outcome client
    | nil =>
      cases outcome with
      | returned res =>
        cases close with
        | true =>
          obtain ⟨rfl, rfl⟩ := Prod.mk.inj (Option.some.inj h)
          exact .shutdown res client
        | false =>
          obtain ⟨rfl, rfl⟩ := Prod.mk.inj (Option.some.inj h)
          exact .returned res client
      | threw =>
        obtain ⟨rfl, rfl⟩ := Prod.mk.inj (Option.some.inj h)
        exact .failed close client
      | aborted =>
        obtain ⟨rfl, rfl⟩ := Prod.mk.inj (Option.some.inj h)
        exact .aborted close client
  | ended => cases h

theorem step_returned (env : Env) (beast : Beast) (t : Tree) (res : Bool) (client : Client)
    {close close' : Bool} (h : close = close') :
    step env beast t (.handling close ⟨[], .returned res⟩ client) =
      if close' then some (.shutdown, .ended) else some (.returned, .reading close' client) := by
  subst h
  rfl

/-- The events of a run happen one by one. -/
theorem run_events (close : Bool) (events : List Event) (outcome : Outcome) (client : Client) :
    Machines.Run (step env beast t) (.handling close ⟨events, outcome⟩ client) (events.map .event)
      (.handling (closeAfter beast close (events.filterMap Run.wrote?)) ⟨[], outcome⟩
        client) := by
  induction events generalizing close with
  | nil => exact .nil _
  | cons event events ih =>
    refine .cons rfl ?_
    cases event with
    | ran verb handler req => exact ih close
    | wrote resp => exact ih (beast.needEof resp)

theorem io_events (events : List Event) :
    (events.map Act.event).filterMap Act.io? =
      (events.filterMap Run.wrote?).map .wrote := by
  induction events with
  | nil => rfl
  | cons event events ih =>
    cases event with
    | ran verb handler req => exact ih
    | wrote resp => exact congrArg (Io.wrote resp :: ·) ih

theorem run_read {raw : StrRequest} {n : ℕ} {r : NetRun}
    (hr : handleRequestOn env beast t raw n = r) (close : Bool) (rest : List StrRequest) :
    Machines.Run (step env beast t) (.reading close ⟨raw :: rest, n⟩)
      (.read raw :: r.1.events.map .event)
      (.handling (closeAfter beast close r.1.writes) ⟨[], r.1.outcome⟩ ⟨rest, r.2⟩) := by
  subst hr
  exact .cons rfl (run_events close _ _ _)

theorem run_request {raw : StrRequest} {rest : List StrRequest} {n : ℕ} {r : NetRun}
    (hr : handleRequestOn env beast t raw n = r) (close : Bool) {acts : List Act}
    (h : Machines.Run (step env beast t)
      (.handling (closeAfter beast close r.1.writes) ⟨[], r.1.outcome⟩ ⟨rest, r.2⟩) acts .ended)
    {io : List Io} (hio : acts.filterMap Act.io? = io) :
    ∃ acts', Machines.Run (step env beast t) (.reading close ⟨raw :: rest, n⟩) acts' .ended ∧
      acts'.filterMap Act.io? = .read raw :: (r.1.writes.map .wrote ++ io) := by
  subst hio
  refine ⟨_, (run_read hr close rest).append h, ?_⟩
  have hread : Act.io? (.read raw) = some (.read raw) := rfl
  rw [List.cons_append, List.filterMap_cons_some hread, List.filterMap_append, io_events]
  rfl

/-- A session ends, whatever its client does, and the connection shows what the loop does, cut
off where the connection breaks. -/
theorem run_over (env : Env) (beast : Beast) (t : Tree) (close : Bool) (client : Client) :
    ∃ acts, Machines.Run (step env beast t) (.reading close client) acts .ended ∧
      acts.filterMap Act.io? =
        cutIo client.takes (sessionLoop beast (t.routable env) close client.requests) := by
  obtain ⟨requests, n⟩ := client
  induction requests generalizing close n with
  | nil => exact ⟨[.readFailed], .cons rfl (.nil _), rfl⟩
  | cons raw rest ih =>
    have hcut : handleRequestOn env beast t raw n = _ := handleRequestOn_eq raw n
    rw [sessionLoop]
    generalize handleRequest beast (t.routable env) raw = healthy at hcut
    simp only [List.cons_append, cutIo]
    by_cases hle : healthy.writes.length ≤ n
    · rw [Run.cut_of_le hle] at hcut
      rw [cutIo_wrote_of_le hle]
      obtain ⟨events, outcome⟩ := healthy
      cases outcome with
      | threw => exact run_request hcut close (.cons rfl (.nil _)) rfl
      | aborted => exact run_request hcut close (.cons rfl (.nil _)) rfl
      | returned res =>
        cases hclose : closeAfter beast close (Run.writes ⟨events, .returned res⟩) with
        | true =>
          exact run_request hcut close (.cons (step_returned env beast t res _ hclose) (.nil _)) rfl
        | false =>
          obtain ⟨acts, hrun, hio⟩ := ih false (n - (Run.writes ⟨events, .returned res⟩).length)
          exact run_request hcut close (.cons (step_returned env beast t res _ hclose) hrun) hio
    · have hlt : n < healthy.writes.length := by omega
      obtain ⟨resp, unsent, -, hwrites⟩ := takeWrites_split hlt
      rw [Run.cut_of_lt hlt] at hcut
      rw [cutIo_wrote_of_lt hlt, Run.writes, ← hwrites]
      exact run_request hcut close (.cons rfl (.nil _)) rfl

/-! ## What a session did since it last read -/

/-- What `cut` leaves of the run of the request that was read last has happened so far or is still
to come, in its order; `close` is what it left up to here. -/
def Handles (env : Env) (beast : Beast) (t : Tree) (requests : List StrRequest)
    (acts : List Act) : Session → Prop
  | .reading close client => close = false ∧ client.requests ⊆ requests
  | .handling close run client => client.requests ⊆ requests ∧
    ∃ before raw since n, acts = before ++ .read raw :: since.map .event ∧ raw ∈ requests ∧
      ((handleRequest beast (t.routable env) raw).cut n).1 = run.after since ∧
      close = closeAfter beast false (since.filterMap Run.wrote?)
  | .ended => True

theorem step_handles {requests : List StrRequest} {acts : List Act} {s s' : Session} {a : Act}
    (hs : s.Handles env beast t requests acts) (h : s.step env beast t = some (a, s')) :
    s'.Handles env beast t requests (acts ++ [a]) := by
  cases step_cases h with
  | readFailed close n => trivial
  | read close raw rest n =>
    obtain ⟨rfl, hrequests⟩ := hs
    obtain ⟨hraw, hrest⟩ := List.cons_subset.mp hrequests
    refine ⟨hrest, acts, raw, [], n, rfl, hraw, ?_, rfl⟩
    rw [handleRequestOn_eq]
    rfl
  | event close event events outcome client =>
    obtain ⟨hclient, before, raw, since, n, rfl, hraw, hcut, rfl⟩ := hs
    refine ⟨hclient, before, raw, since ++ [event], n, by simp, hraw, ?_, ?_⟩
    · rw [hcut]
      simp [Run.after]
    · rw [List.filterMap_append, closeAfter_append]
      cases event <;> rfl
  | shutdown res client => trivial
  | returned res client => exact ⟨rfl, hs.1⟩
  | failed close client => trivial
  | aborted close client => trivial

theorem run_handles {client : Client} {acts : List Act} {s : Session}
    (h : Machines.Run (step env beast t) (.start client) acts s) :
    s.Handles env beast t client.requests acts :=
  h.history (l := []) (p := fun acts s => s.Handles env beast t client.requests acts)
    (fun _ _ _ _ => step_handles) ⟨rfl, List.Subset.refl _⟩

/-- An event belongs to the request that was read last before it. -/
theorem run_event {client : Client} {pre post : List Act} {e : Event} {s : Session}
    (h : Machines.Run (step env beast t) (.start client) (pre ++ .event e :: post) s) :
    ∃ before raw, ∃ since : List Event, pre = before ++ .read raw :: since.map .event ∧
      raw ∈ client.requests ∧
      since ++ [e] <+: (handleRequest beast (t.routable env) raw).events := by
  obtain ⟨s₁, hpre, hrest⟩ := h.of_append
  obtain ⟨s₂, hstep, -⟩ := hrest.of_cons
  have hhandles := run_handles hpre
  cases step_cases hstep with
  | event close e events outcome client' =>
    obtain ⟨-, before, raw, since, n, rfl, hraw, hcut, -⟩ := hhandles
    refine ⟨before, raw, since, rfl, hraw, ?_⟩
    have hprefix := Run.cut_isPrefix (handleRequest beast (t.routable env) raw) n
    rw [hcut, Run.after_events] at hprefix
    exact List.IsPrefix.trans ⟨events, by simp⟩ hprefix

/-- A session that is done with a request has let all happen that the request comes to. -/
theorem run_done {client : Client} {pre post : List Act} {a : Act} {s : Session}
    (h : Machines.Run (step env beast t) (.start client) (pre ++ a :: post) s)
    (ha : a = .shutdown ∨ a = .returned) :
    ∃ before raw, raw ∈ client.requests ∧
      let run := handleRequest beast (t.routable env) raw
      pre = before ++ .read raw :: run.events.map .event ∧
      (a = .shutdown ↔ closeAfter beast false run.writes = true) := by
  obtain ⟨s₁, hpre, hrest⟩ := h.of_append
  obtain ⟨s₂, hstep, -⟩ := hrest.of_cons
  have hhandles := run_handles hpre
  have hwhole : ∀ {close res client'}, s₁ = .handling close ⟨[], .returned res⟩ client' →
      ∃ before raw, raw ∈ client.requests ∧
        pre = before ++
          .read raw :: (handleRequest beast (t.routable env) raw).events.map .event ∧
        close = closeAfter beast false (handleRequest beast (t.routable env) raw).writes := by
    intro close res client' hs
    subst hs
    obtain ⟨-, before, raw, since, n, rfl, hraw, hcut, rfl⟩ := hhandles
    have hall : handleRequest beast (t.routable env) raw = ⟨since, .returned res⟩ := by
      rw [← Run.cut_returned (congrArg Run.outcome hcut), hcut, Run.after, List.append_nil]
    exact ⟨before, raw, hraw, by rw [hall], by rw [hall]; rfl⟩
  cases step_cases hstep with
  | shutdown res client' =>
    obtain ⟨before, raw, hraw, hacts, hclose⟩ := hwhole rfl
    exact ⟨before, raw, hraw, hacts, iff_of_true rfl hclose.symm⟩
  | returned res client' =>
    obtain ⟨before, raw, hraw, hacts, hclose⟩ := hwhole rfl
    exact ⟨before, raw, hraw, hacts, by simp [← hclose]⟩
  | readFailed close n => simp at ha
  | read close raw rest n => simp at ha
  | event close event events outcome client' => simp at ha
  | failed close client' => simp at ha
  | aborted close client' => simp at ha

/-- Without a request that runs into a failed assertion no session fails one. -/
theorem run_alive {client : Client}
    (halive : ∀ raw ∈ client.requests,
      (handleRequest beast (t.routable env) raw).outcome ≠ .aborted)
    {acts : List Act} {s : Session}
    (h : Machines.Run (step env beast t) (.start client) acts s) : ∀ a ∈ acts, a ≠ .aborted := by
  intro a hmem heq
  subst heq
  obtain ⟨pre, post, rfl⟩ := List.append_of_mem hmem
  obtain ⟨s₁, hpre, hrest⟩ := h.of_append
  obtain ⟨s₂, hstep, -⟩ := hrest.of_cons
  have hhandles := run_handles hpre
  cases step_cases hstep with
  | aborted close client' =>
    obtain ⟨-, before, raw, since, n, -, hraw, hcut, -⟩ := hhandles
    apply halive raw hraw
    by_cases hle : (handleRequest beast (t.routable env) raw).writes.length ≤ n
    · rw [Run.cut_of_le hle] at hcut
      exact congrArg Run.outcome hcut
    · rw [Run.cut_of_lt (by omega)] at hcut
      cases congrArg Run.outcome hcut

end Session

end Handling

end V60
