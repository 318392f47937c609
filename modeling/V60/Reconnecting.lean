import V60.Equivalence

/-!
# Reconnecting

`do_session` keeps its `close` outside of the loop and never resets it. Still a
session that reads another request is where a new session would be, as long as
the handlers keep nothing themselves: what a client is shown from a request on is
what it would be shown if it connected again with the requests and the room for
writes that it has left (`Process.reconnects`).
-/

namespace V60

namespace Act

def request? : Act → Option StrRequest
  | .read raw => some raw
  | .event _ | .returned | .shutdown | .failed | .aborted | .readFailed => none

def response? : Act → Option StrResponse
  | .event (.wrote resp) => some resp
  | .event (.ran ..) | .read _ | .returned | .shutdown | .failed | .aborted | .readFailed => none

end Act

/-- What the client has left to send and to take. -/
def Client.left (client : Client) (acts : List Act) : Client where
  requests := client.requests.drop (acts.filterMap Act.request?).length
  takes := client.takes - (acts.filterMap Act.response?).length

theorem Run.cut_takes (r : Run) (n : ℕ) : (r.cut n).2 + (r.cut n).1.writes.length = n := by
  by_cases h : r.writes.length ≤ n
  · rw [cut_of_le h]
    exact Nat.sub_add_cancel h
  · have hlt : n < r.writes.length := by omega
    obtain ⟨resp, rest, -, hwrites⟩ := takeWrites_split hlt
    rw [cut_of_lt hlt, Nat.zero_add, Run.writes, hwrites, List.length_take]
    exact Nat.min_eq_left hlt.le

namespace Session

variable {env : Env} {beast : Beast} {t : Tree} {client : Client} {acts : List Act}

/-- Before a read nothing but the client is left; before that its run has writes to come. -/
def Leaves (client : Client) (acts : List Act) : Session → Prop
  | .reading close rest => close = false ∧ rest = client.left acts
  | .handling _ run rest => rest.requests = (client.left acts).requests ∧
    rest.takes + run.writes.length = (client.left acts).takes
  | .ended => True

theorem left_skip {a : Act} (hrequest : a.request? = none) (hresponse : a.response? = none) :
    client.left (acts ++ [a]) = client.left acts := by
  simp [Client.left, hrequest, hresponse]

theorem left_read (raw : StrRequest) :
    client.left (acts ++ [.read raw]) =
      ⟨(client.left acts).requests.tail, (client.left acts).takes⟩ := by
  have hrequest : Act.request? (.read raw) = some raw := rfl
  have hresponse : Act.response? (.read raw) = none := rfl
  simp [Client.left, hrequest, hresponse]

theorem left_wrote (resp : StrResponse) :
    client.left (acts ++ [.event (.wrote resp)]) =
      ⟨(client.left acts).requests, (client.left acts).takes - 1⟩ := by
  have hrequest : Act.request? (.event (.wrote resp)) = none := rfl
  have hresponse : Act.response? (.event (.wrote resp)) = some resp := rfl
  simp [Client.left, hrequest, hresponse, Nat.sub_sub]

theorem step_leaves {s s' : Session} {a : Act} (hs : s.Leaves client acts)
    (h : s.step env beast t = some (a, s')) : s'.Leaves client (acts ++ [a]) := by
  cases step_cases h with
  | readFailed close n => trivial
  | read close raw rest n =>
    obtain ⟨-, hleft⟩ := hs
    rw [Leaves, left_read, ← hleft, handleRequestOn_eq]
    exact ⟨rfl, Run.cut_takes _ n⟩
  | event close event events outcome rest =>
    obtain ⟨hrequests, htakes⟩ := hs
    cases event with
    | ran verb handler req =>
      rw [Leaves, left_skip rfl rfl]
      exact ⟨hrequests, htakes⟩
    | wrote resp =>
      rw [Leaves, left_wrote]
      have hwrites : (Run.mk (.wrote resp :: events) outcome).writes.length =
          (Run.mk events outcome).writes.length + 1 := rfl
      rw [hwrites] at htakes
      exact ⟨hrequests, Nat.eq_sub_of_add_eq htakes⟩
  | shutdown res rest => trivial
  | returned res rest =>
    obtain ⟨hrequests, htakes⟩ := hs
    rw [Leaves, left_skip rfl rfl]
    obtain ⟨requests, n⟩ := rest
    obtain rfl : requests = _ := hrequests
    obtain rfl : n = _ := htakes
    exact ⟨rfl, rfl⟩
  | failed close rest => trivial
  | aborted close rest => trivial

/-- A session that reads goes on as a new one. -/
theorem run_again {before after : List Act} {raw : StrRequest} {s : Session}
    (h : Machines.Run (step env beast t) (.start client) (before ++ .read raw :: after) s) :
    Machines.Run (step env beast t) (.start (client.left before)) (.read raw :: after) s := by
  obtain ⟨s', hbefore, hafter⟩ := h.of_append
  have hleaves : s'.Leaves client before := hbefore.history (l := [])
    (p := fun acts s => s.Leaves client acts) (fun _ _ _ _ => step_leaves) ⟨rfl, rfl⟩
  obtain ⟨s'', hstep, hrest⟩ := hafter.of_cons
  cases step_cases hstep with
  | read close raw rest n =>
    obtain ⟨rfl, hleft⟩ := hleaves
    rw [start, ← hleft]
    exact .cons hstep hrest

end Session

namespace Process

variable {env : Env} {beast : Beast} {t : Tree} {p p' : Process} {labels labels' : List Label}

/-- What a client is shown from one of its requests on is what it is shown in any other run in
which it connects with what it had left, as far as both go. -/
theorem reconnects (h : Run env beast t start labels p) (h' : Run env beast t start labels' p')
    {i j : ℕ} {client : Client} (hi : (clients labels)[i]? = some client) {before after : List Act}
    {raw : StrRequest} (hacts : Machines.acts i (moves labels) = before ++ .read raw :: after)
    (hj : (clients labels')[j]? = some (client.left before)) :
    let here := (Act.read raw :: after).filterMap Act.io?
    (here <+: shown j labels' ∨ shown j labels' <+: here) ∧
      (p.sessions[i]? = some .ended → p'.sessions[j]? = some .ended →
        here = shown j labels') := by
  intro here
  obtain ⟨s, hs, hrun⟩ := run_session h hi
  rw [hacts] at hrun
  obtain ⟨full, hfull, hio⟩ := Session.run_over env beast t false (client.left before)
  obtain ⟨rest, rfl, hrest⟩ := hfull.completes rfl (Session.run_again hrun)
  rw [List.filterMap_append] at hio
  obtain ⟨s', hs', hshown, hall⟩ := shows h' hj
  have hhere : here <+: cutIo (client.left before).takes
      (doSession beast (t.routable env) (client.left before).requests) := ⟨_, hio⟩
  refine ⟨List.prefix_or_prefix_of_prefix hhere hshown, ?_⟩
  intro hended hended'
  obtain rfl := Option.some.inj (hs.symm.trans hended)
  obtain rfl := Option.some.inj (hs'.symm.trans hended')
  rw [hrest.nil_of_final rfl, List.filterMap_nil, List.append_nil] at hio
  exact hio.trans (hall rfl).symm

/-- A second request, after the first was turned away. -/
theorem reconnects_bad :
    let raw := getRequest "x".toList (by decide)
    let client : Client := ⟨[raw, raw], 2⟩
    ∃ labels p before, Run (pcreEnv .debug) .reference parameterRoute start labels p ∧
      Machines.acts 0 (moves labels) = before ++ [.read raw] ∧ before ≠ [] ∧
      let again := setupCalls.map .setUp ++ [client.left before].map .accepted
      let here := [Act.read raw].filterMap Act.io?
      (here <+: shown 0 again ∨ shown 0 again <+: here) ∧
        (p.sessions[0]? = some .ended →
          (serving [client.left before]).sessions[0]? = some .ended → here = shown 0 again) := by
  intro raw client
  let r := handleRequestOn (pcreEnv .debug) .reference parameterRoute raw 2
  have hread := Session.run_read (rfl : _ = r) false [raw]
  have houtcome : r.1.outcome = .returned true := by decide +kernel
  have hclose : closeAfter .reference false r.1.writes = false := by decide +kernel
  rw [houtcome] at hread
  have hreturned := Session.step_returned (pcreEnv .debug) .reference parameterRoute true
    ⟨[raw], r.2⟩ hclose
  have hrun := (hread.append (.one hreturned)).append (.one rfl)
  have hacts : ∀ a ∈ Act.read raw :: r.1.events.map .event ++ [.returned] ++ [.read raw],
      a ≠ .aborted := by
    intro a ha
    simp only [List.mem_append, List.mem_cons, List.mem_map, List.not_mem_nil, or_false] at ha
    rcases ha with ((rfl | ⟨event, -, rfl⟩) | rfl) | rfl <;> simp
  have hlabels := (run_serving (pcreEnv .debug) .reference parameterRoute [client]).append
    (run_alone (i := 0) rfl rfl hrun hacts)
  have hagain := run_serving (pcreEnv .debug) .reference parameterRoute
    [client.left (.read raw :: r.1.events.map .event ++ [.returned])]
  exact ⟨_, _, _, hlabels, acts_acted 0 _, by simp,
    reconnects hlabels hagain (rfl : (clients _)[0]? = some client) (acts_acted 0 _) rfl⟩

end Process

end V60
