import V60.GuardedDispatch
import V60.Session

/-!
# The server process

`listen` spawns `do_listen`, which sets up an acceptor and spawns a session for
every connection. The threads of the `io_context` take the steps of all of them
in any order. A failed assertion ends the process and every session in it; apart
from that the sessions share nothing, so that each client is shown what it
would be shown alone (`Process.noninterference`), whatever the others do.
-/

namespace V60

/-- The calls that set the acceptor up, by what `fail` says of them. -/
def setupCalls : List (List Char) :=
  ["open".toList, "set_option".toList, "bind".toList, "listen".toList]

/-- The line `fail` writes. -/
def fail (message what : List Char) : List Char := what ++ ": ".toList ++ message

/-- `do_listen` before the calls that are left, without any at `async_accept`. -/
inductive Listener where
  | opening (calls : List (List Char))
  | closed

structure Process where
  listener : Listener
  log : List (List Char)
  sessions : List Session
  up : Bool

inductive Label where
  | setUp (call : List Char)
  | refused (call message : List Char)
  | accepted (client : Client)
  | acceptFailed
  | acted (i : ℕ) (act : Act)

def Act.survives : Act → Bool
  | .aborted => false
  | .read _ | .event _ | .returned | .shutdown | .failed | .readFailed => true

namespace Label

def client? : Label → Option Client
  | .accepted client => some client
  | .setUp _ | .refused .. | .acceptFailed | .acted .. => none

def move? : Label → Option (Machines.Move Session Act)
  | .accepted client => some (.join (.start client))
  | .acted i act => some (.act i act)
  | .setUp _ | .refused .. | .acceptFailed => none

end Label

namespace Process

def start : Process := ⟨.opening setupCalls, ["Listening...".toList], [], true⟩

def failListener (p : Process) (line : List (List Char)) : Process :=
  { p with listener := .closed, log := p.log ++ line }

def accept (p : Process) (client : Client) : Process :=
  { p with
    log := p.log ++ ["Got connection".toList]
    sessions := p.sessions ++ [.start client] }

def act (p : Process) (i : ℕ) (a : Act) (s : Session) : Process :=
  { p with sessions := p.sessions.set i s, up := a.survives }

/-- One step of the process. An error of `async_accept` is an exception nobody catches: the
coroutine is detached, and only the listener ends. -/
inductive Step (env : Env) (beast : Beast) (t : Tree) : Process → Label → Process → Prop
  | setUp {p : Process} {call : List Char} {calls : List (List Char)} :
    p.up = true → p.listener = .opening (call :: calls) →
    Step env beast t p (.setUp call) { p with listener := .opening calls }
  | refused {p : Process} {call : List Char} {calls : List (List Char)} (message : List Char) :
    p.up = true → p.listener = .opening (call :: calls) →
    Step env beast t p (.refused call message) (p.failListener [fail message call])
  | accepted {p : Process} (client : Client) : p.up = true → p.listener = .opening [] →
    Step env beast t p (.accepted client) (p.accept client)
  | acceptFailed {p : Process} : p.up = true → p.listener = .opening [] →
    Step env beast t p .acceptFailed (p.failListener [])
  | acted {p : Process} {i : ℕ} {a : Act} {s s' : Session} :
    p.up = true → p.sessions[i]? = some s → s.step env beast t = some (a, s') →
    Step env beast t p (.acted i a) (p.act i a s')

abbrev Run (env : Env) (beast : Beast) (t : Tree) : Process → List Label → Process → Prop :=
  Machines.Trace (Step env beast t)

end Process

def clients (labels : List Label) : List Client := labels.filterMap Label.client?

def moves (labels : List Label) : List (Machines.Move Session Act) :=
  labels.filterMap Label.move?

/-- What the connection of the client accepted after this many others shows. -/
def shown (i : ℕ) (labels : List Label) : List Io :=
  (Machines.acts i (moves labels)).filterMap Act.io?

theorem acts_append (i : ℕ) (labels labels' : List Label) :
    Machines.acts i (moves (labels ++ labels')) =
      Machines.acts i (moves labels) ++ Machines.acts i (moves labels') := by
  rw [moves, List.filterMap_append]
  exact List.filterMap_append

theorem clients_append (labels labels' : List Label) :
    clients (labels ++ labels') = clients labels ++ clients labels' := List.filterMap_append

theorem clients_acted (i : ℕ) (acts : List Act) : clients (acts.map (.acted i)) = [] := by
  simp [clients, List.filterMap_map, Label.client?, Function.comp_def]

theorem joined_moves (labels : List Label) :
    Machines.joined (moves labels) = (clients labels).map .start := by
  rw [Machines.joined, moves, clients, List.filterMap_filterMap, List.map_filterMap]
  apply List.filterMap_congr
  intro label _
  cases label <;> rfl

/-! ## Sessions of a process -/

namespace Process

variable {env : Env} {beast : Beast} {t : Tree} {p p' : Process} {labels labels' : List Label}

/-- The sessions of a process are a pool of machines. -/
theorem run_pool (h : Run env beast t p labels p') :
    Machines.PoolRun (Session.step env beast t) p.sessions (moves labels) p'.sessions := by
  apply h.project
  · intro p label p' hstep hmove
    cases hstep with
    | setUp hup hl => rfl
    | refused message hup hl => rfl
    | accepted client hup hl => cases hmove
    | acceptFailed hup hl => rfl
    | acted hup hs hstep => cases hmove
  · intro p label p' move hstep hmove
    cases hstep with
    | setUp hup hl => cases hmove
    | refused message hup hl => cases hmove
    | accepted client hup hl =>
      obtain rfl := Option.some.inj hmove
      exact .join _ _
    | acceptFailed hup hl => cases hmove
    | acted hup hs hstep =>
      obtain rfl := Option.some.inj hmove
      exact .act hs hstep

theorem run_session (h : Run env beast t start labels p) {i : ℕ} {client : Client}
    (hi : (clients labels)[i]? = some client) :
    ∃ s, p.sessions[i]? = some s ∧
      Machines.Run (Session.step env beast t) (.start client) (Machines.acts i (moves labels))
        s := by
  apply (run_pool h).member
  rw [start, List.nil_append, joined_moves, List.getElem?_map, hi]
  rfl

theorem run_client (h : Run env beast t start labels p) {i : ℕ} (hi : i < p.sessions.length) :
    ∃ client, (clients labels)[i]? = some client := by
  rw [(run_pool h).length_eq, joined_moves, List.length_map] at hi
  have hlt : i < (clients labels).length := by simpa [start] using hi
  exact ⟨_, List.getElem?_eq_getElem hlt⟩

/-- The process after its set up, with the sessions of these clients. -/
def serving (clients : List Client) : Process where
  listener := .opening []
  log := "Listening...".toList :: clients.map fun _ => "Got connection".toList
  sessions := clients.map .start
  up := true

theorem run_serving (env : Env) (beast : Beast) (t : Tree) (clients : List Client) :
    Run env beast t start (setupCalls.map .setUp ++ clients.map .accepted) (serving clients) := by
  induction clients using List.reverseRecOn with
  | nil => exact .cons (.setUp rfl rfl) (.cons (.setUp rfl rfl) (.cons (.setUp rfl rfl)
      (.one (.setUp rfl rfl))))
  | append_singleton clients client ih =>
    have hlast : Step env beast t (serving clients) (.accepted client)
        (serving (clients ++ [client])) := by
      have haccept : (serving clients).accept client = serving (clients ++ [client]) := by
        simp [serving, accept]
      rw [← haccept]
      exact .accepted client rfl rfl
    rw [List.map_append, ← List.append_assoc]
    exact ih.append (.one hlast)

theorem act_survives (hup : p.up = true) {a : Act} (ha : a ≠ .aborted) (i : ℕ) (s : Session) :
    p.act i a s = { p with sessions := p.sessions.set i s } := by
  have hsurvives : a.survives = true := by
    cases a with
    | aborted => exact absurd rfl ha
    | _ => rfl
  rw [act, hsurvives, ← hup]

/-- A session can run while the others wait, as long as no assertion of its own fails. -/
theorem run_alone (hup : p.up = true) {i : ℕ} {s s' : Session} (hs : p.sessions[i]? = some s)
    {acts : List Act} (h : Machines.Run (Session.step env beast t) s acts s')
    (hacts : ∀ a ∈ acts, a ≠ .aborted) :
    Run env beast t p (acts.map (.acted i)) { p with sessions := p.sessions.set i s' } := by
  induction h generalizing p with
  | nil s =>
    obtain ⟨hi, rfl⟩ := List.getElem?_eq_some_iff.mp hs
    rw [List.set_getElem_self]
    exact .nil p
  | @cons s s₁ s' a acts hstep h ih =>
    have hi : i < p.sessions.length := (List.getElem?_eq_some_iff.mp hs).1
    have hfirst : Step env beast t p (.acted i a) { p with sessions := p.sessions.set i s₁ } := by
      rw [← act_survives hup (hacts a List.mem_cons_self)]
      exact .acted hup hs hstep
    have hrest := ih (p := { p with sessions := p.sessions.set i s₁ }) hup
      (List.getElem?_set_self hi) fun a ha => hacts a (List.mem_cons_of_mem _ ha)
    rw [List.set_set] at hrest
    exact .cons hfirst hrest

/-- Who acts is the session of a client that was accepted. -/
theorem run_acts (h : Run env beast t start labels p) {i : ℕ} {a : Act}
    (ha : a ∈ Machines.acts i (moves labels)) :
    ∃ client s, (clients labels)[i]? = some client ∧
      Machines.Run (Session.step env beast t) (.start client) (Machines.acts i (moves labels))
        s := by
  obtain ⟨client, hclient⟩ := run_client h ((run_pool h).lt_of_acts ha)
  obtain ⟨s, -, hrun⟩ := run_session h hclient
  exact ⟨client, s, hclient, hrun⟩

/-- What happens in a session happens in the handling of the request it read last. -/
theorem run_event (h : Run env beast t start labels p) {i : ℕ} {pre post : List Act} {e : Event}
    (hacts : Machines.acts i (moves labels) = pre ++ .event e :: post) :
    ∃ client before raw, ∃ since : List Event, (clients labels)[i]? = some client ∧
      raw ∈ client.requests ∧ pre = before ++ .read raw :: since.map .event ∧
      since ++ [e] <+: (handleRequest beast (t.routable env) raw).events := by
  have hact : .event e ∈ Machines.acts i (moves labels) := by simp [hacts]
  obtain ⟨client, s, hclient, hrun⟩ := run_acts h hact
  rw [hacts] at hrun
  obtain ⟨before, raw, since, hpre, hraw, hprefix⟩ := Session.run_event hrun
  exact ⟨client, before, raw, since, hclient, hraw, hpre, hprefix⟩

theorem run_done (h : Run env beast t start labels p) {i : ℕ} {pre post : List Act} {a : Act}
    (hacts : Machines.acts i (moves labels) = pre ++ a :: post)
    (ha : a = .shutdown ∨ a = .returned) :
    ∃ client before raw, (clients labels)[i]? = some client ∧ raw ∈ client.requests ∧
      let run := handleRequest beast (t.routable env) raw
      pre = before ++ .read raw :: run.events.map .event ∧
      (a = .shutdown ↔ closeAfter beast false run.writes = true) := by
  have hact : a ∈ Machines.acts i (moves labels) := by simp [hacts]
  obtain ⟨client, s, hclient, hrun⟩ := run_acts h hact
  rw [hacts] at hrun
  obtain ⟨before, raw, hraw, hdone⟩ := Session.run_done hrun ha
  exact ⟨client, before, raw, hclient, hraw, hdone⟩

theorem run_origin (h : Run env beast t start labels p) {i : ℕ} {e : Event}
    (he : .acted i (.event e) ∈ labels) :
    ∃ client raw, (clients labels)[i]? = some client ∧ raw ∈ client.requests ∧
      e ∈ (handleRequest beast (t.routable env) raw).events := by
  have hmove : Machines.Move.act i (.event e) ∈ moves labels :=
    List.mem_filterMap.mpr ⟨_, he, rfl⟩
  have hact : .event e ∈ Machines.acts i (moves labels) :=
    List.mem_filterMap.mpr ⟨_, hmove, if_pos rfl⟩
  obtain ⟨pre, post, hacts⟩ := List.append_of_mem hact
  obtain ⟨client, -, raw, since, hclient, hraw, -, hprefix⟩ := run_event h hacts
  exact ⟨client, raw, hclient, hraw, hprefix.subset (by simp)⟩

/-- A process uses its root only to handle requests. -/
theorem run_congr {env' : Env} {t' : Tree} (hroot : ∀ raw,
    handleRequest beast (t.routable env) raw = handleRequest beast (t'.routable env') raw)
    (h : Run env beast t p labels p') : Run env' beast t' p labels p' := by
  have hstep : Session.step env beast t = Session.step env' beast t' :=
    funext (Session.step_congr hroot)
  induction h with
  | nil p => exact .nil p
  | cons hfirst h ih =>
    refine .cons ?_ ih
    cases hfirst with
    | setUp hup hl => exact .setUp hup hl
    | refused message hup hl => exact .refused message hup hl
    | accepted client hup hl => exact .accepted client hup hl
    | acceptFailed hup hl => exact .acceptFailed hup hl
    | acted hup hs hstep' => exact .acted hup hs (hstep ▸ hstep')

theorem run_iff {env' : Env} {t' : Tree} (hroot : ∀ raw,
    handleRequest beast (t.routable env) raw = handleRequest beast (t'.routable env') raw) :
    Run env beast t p labels p' ↔ Run env' beast t' p labels p' :=
  ⟨run_congr hroot, run_congr fun raw => (hroot raw).symm⟩

/-- What a session has shown and what it goes on to show is what its client would be shown alone. -/
theorem run_remaining (h : Run env beast t start labels p) {i : ℕ} {client : Client}
    (hi : (clients labels)[i]? = some client) :
    ∃ s rest, p.sessions[i]? = some s ∧ Machines.Run (Session.step env beast t) s rest .ended ∧
      shown i labels ++ rest.filterMap Act.io? =
        cutIo client.takes (doSession beast (t.routable env) client.requests) := by
  obtain ⟨acts, hover, hio⟩ := Session.run_over env beast t false client
  obtain ⟨s, hs, hrun⟩ := run_session h hi
  obtain ⟨rest, rfl, hrest⟩ := hover.completes rfl hrun
  refine ⟨s, rest, hs, hrest, ?_⟩
  rw [shown, ← List.filterMap_append]
  exact hio

theorem shows (h : Run env beast t start labels p) {i : ℕ} {client : Client}
    (hi : (clients labels)[i]? = some client) :
    let alone := cutIo client.takes (doSession beast (t.routable env) client.requests)
    ∃ s, p.sessions[i]? = some s ∧ shown i labels <+: alone ∧
      (s = .ended → shown i labels = alone) := by
  obtain ⟨s, rest, hs, hrest, halone⟩ := run_remaining h hi
  refine ⟨s, hs, ⟨_, halone⟩, ?_⟩
  intro hover
  subst hover
  rw [← halone, hrest.nil_of_final rfl]
  exact (List.append_nil _).symm

/-- A process can serve these clients one after the other, each to the end of its session. -/
theorem run_ended (env : Env) (beast : Beast) (t : Tree) (cs : List Client)
    (halive : ∀ client ∈ cs, ∀ raw ∈ client.requests,
      (handleRequest beast (t.routable env) raw).outcome ≠ .aborted) :
    ∃ labels p, Run env beast t start labels p ∧ clients labels = cs ∧ p.up = true ∧
      p.sessions = cs.map (fun _ => .ended) ∧ ∀ (i : ℕ) (client : Client),
        cs[i]? = some client → shown i labels =
          cutIo client.takes (doSession beast (t.routable env) client.requests) := by
  have hruns : ∃ labels p, Run env beast t start labels p ∧ clients labels = cs ∧
      p.up = true ∧ p.sessions = cs.map (fun _ => .ended) ∧ p.listener = .opening [] := by
    induction cs using List.reverseRecOn with
    | nil => exact ⟨_, _, run_serving env beast t [], rfl, rfl, rfl, rfl⟩
    | append_singleton cs client ih =>
      obtain ⟨labels, p, hrun, hclients, hup, hsessions, hl⟩ :=
        ih fun c hc => halive c (List.mem_append_left _ hc)
      obtain ⟨acts, hover, -⟩ := Session.run_over env beast t false client
      have hacts := Session.run_alive (halive client (by simp)) hover
      have hlast : (p.accept client).sessions[cs.length]? = some (.start client) := by
        simp [accept, hsessions]
      have hupAccepted : (p.accept client).up = true := hup
      have hwhole := (hrun.append (.one (.accepted client hup hl))).append
        (run_alone hupAccepted hlast hover hacts)
      refine ⟨_, _, hwhole, ?_, hup, ?_, hl⟩
      · rw [clients_append, clients_append, clients_acted, List.append_nil]
        exact congrArg (· ++ [client]) hclients
      · simp [accept, hsessions]
  obtain ⟨labels, p, hrun, hclients, hup, hsessions, -⟩ := hruns
  refine ⟨labels, p, hrun, hclients, hup, hsessions, ?_⟩
  intro i client hi
  obtain ⟨s, hs, -, hshown⟩ := shows hrun (hclients ▸ hi)
  rw [hsessions, List.getElem?_map, hi] at hs
  exact hshown (Option.some.inj hs).symm

/-- Whoever else is connected, and in whatever order the steps come: in two runs a client that does
the same is shown the same, as far as its session went. -/
theorem noninterference (h : Run env beast t start labels p)
    (h' : Run env beast t start labels' p') {i j : ℕ} {client : Client}
    (hi : (clients labels)[i]? = some client) (hj : (clients labels')[j]? = some client) :
    (shown i labels <+: shown j labels' ∨ shown j labels' <+: shown i labels) ∧
      (p.sessions[i]? = some .ended → p'.sessions[j]? = some .ended →
        shown i labels = shown j labels') := by
  obtain ⟨s, hs, hshown, hall⟩ := shows h hi
  obtain ⟨s', hs', hshown', hall'⟩ := shows h' hj
  refine ⟨List.prefix_or_prefix_of_prefix hshown hshown', ?_⟩
  intro hover hover'
  rw [hs] at hover
  rw [hs'] at hover'
  exact (hall (Option.some.inj hover)).trans (hall' (Option.some.inj hover')).symm

def helloClient : Client := ⟨[worldRequest], 1⟩

def otherClient : Client := ⟨[v60Request], 1⟩

theorem helloClients_alive : ∀ client ∈ [otherClient, helloClient], ∀ raw ∈ client.requests,
    (handleRequest .reference (parameterRoute.routable (pcreEnv .debug)) raw).outcome ≠
      .aborted := by
  decide +kernel

/-- Alone and after another client, each of them answered and read to the end. -/
theorem noninterference_hello :
    ∃ labels p labels' p',
      Run (pcreEnv .debug) .reference parameterRoute start labels p ∧
      Run (pcreEnv .debug) .reference parameterRoute start labels' p' ∧
      clients labels = [helloClient] ∧ clients labels' = [otherClient, helloClient] ∧
      shown 0 labels = shown 1 labels' ∧
      (responses (shown 0 labels)).map StrResponse.result = [200] := by
  obtain ⟨labels, p, hrun, hclients, -, hsessions, hshown⟩ :=
    run_ended (pcreEnv .debug) .reference parameterRoute [helloClient]
      fun client hmem => helloClients_alive client (List.mem_cons_of_mem _ hmem)
  obtain ⟨labels', p', hrun', hclients', -, hsessions', -⟩ :=
    run_ended (pcreEnv .debug) .reference parameterRoute _ helloClients_alive
  have hfirst : (clients labels)[0]? = some helloClient := by rw [hclients]; rfl
  have hsecond : (clients labels')[1]? = some helloClient := by rw [hclients']; rfl
  refine ⟨labels, p, labels', p', hrun, hrun', hclients, hclients', ?_, ?_⟩
  · apply (noninterference hrun hrun' hfirst hsecond).2
    · rw [hsessions]; rfl
    · rw [hsessions']; rfl
  · rw [hshown 0 helloClient rfl]
    decide +kernel

/-- The order in which the sessions take their steps does not matter: after as many steps of each
of them they are where they are and their clients were shown what they were shown. -/
theorem order_free (h : Run env beast t start labels p) (h' : Run env beast t start labels' p')
    (hclients : clients labels = clients labels')
    (hacts : ∀ i < p.sessions.length, (Machines.acts i (moves labels)).length =
      (Machines.acts i (moves labels')).length) :
    p.sessions = p'.sessions ∧ ∀ i < p.sessions.length, shown i labels = shown i labels' := by
  have hjoined : Machines.joined (moves labels) = Machines.joined (moves labels') := by
    rw [joined_moves, joined_moves, hclients]
  obtain ⟨hsessions, hsame⟩ := (run_pool h).confluent (run_pool h') hjoined hacts
  refine ⟨hsessions, ?_⟩
  intro i hi
  rw [shown, shown, hsame i hi]

/-- Two clients are served one after the other, in either order. -/
theorem order_free_hello :
    ∃ (acts acts' : List Act) (p p' : Process),
      let accepted := setupCalls.map .setUp ++ [otherClient, helloClient].map .accepted
      let first := accepted ++ acts.map (.acted 0) ++ acts'.map (.acted 1)
      let second := accepted ++ acts'.map (.acted 1) ++ acts.map (.acted 0)
      Run (pcreEnv .debug) .reference parameterRoute start first p ∧
      Run (pcreEnv .debug) .reference parameterRoute start second p' ∧
      p.sessions = p'.sessions ∧
      ∀ i < 2, shown i first = shown i second ∧
        (responses (shown i first)).map StrResponse.result = [200] := by
  have hserving := run_serving (pcreEnv .debug) .reference parameterRoute
    [otherClient, helloClient]
  obtain ⟨acts, hover, -⟩ := Session.run_over (pcreEnv .debug) .reference parameterRoute false
    otherClient
  obtain ⟨acts', hover', -⟩ := Session.run_over (pcreEnv .debug) .reference parameterRoute false
    helloClient
  have hacts := Session.run_alive (helloClients_alive _ (by simp)) hover
  have hacts' := Session.run_alive (helloClients_alive _ (by simp)) hover'
  have hrun := (hserving.append (run_alone (i := 0) rfl rfl hover hacts)).append
    (run_alone (i := 1) rfl rfl hover' hacts')
  have hrun' := (hserving.append (run_alone (i := 1) rfl rfl hover' hacts')).append
    (run_alone (i := 0) rfl rfl hover hacts)
  obtain ⟨hsessions, hshown⟩ := order_free hrun hrun'
    (by simp only [clients_append, clients_acted])
    (by
      intro i _
      simp only [acts_append, List.length_append]
      omega)
  refine ⟨acts, acts', _, _, hrun, hrun', hsessions, fun i hi => ⟨hshown i hi, ?_⟩⟩
  have halone : ∀ client ∈ [otherClient, helloClient],
      (responses (cutIo client.takes (doSession .reference
        (parameterRoute.routable (pcreEnv .debug)) client.requests))).map StrResponse.result =
          [200] := by
    decide +kernel
  have hclient : (clients (setupCalls.map .setUp ++ [otherClient, helloClient].map .accepted ++
      acts.map (.acted 0) ++ acts'.map (.acted 1)))[i]? = some [otherClient, helloClient][i] := by
    simp only [clients_append, clients_acted, List.append_nil]
    exact List.getElem?_eq_getElem hi
  obtain ⟨s, hs, -, hall⟩ := shows hrun hclient
  have hended : ∀ s ∈ [Session.ended, .ended], s = .ended := by simp
  rw [hall (hended s (List.mem_of_getElem? hs))]
  exact halone _ (List.getElem_mem _)

/-- A client with one request takes the process through everything that happens for it. -/
theorem run_request (env : Env) (beast : Beast) (t : Tree) (raw : StrRequest) :
    let healthy := handleRequest beast (t.routable env) raw
    ∃ labels p close client, Run env beast t start labels p ∧ p.up = true ∧
      p.sessions[0]? = some (.handling close ⟨[], healthy.outcome⟩ client) ∧
      ∀ e ∈ healthy.events, .acted 0 (.event e) ∈ labels := by
  intro healthy
  have hcut : handleRequestOn env beast t raw healthy.writes.length =
      (healthy, healthy.writes.length - healthy.writes.length) := by
    rw [handleRequestOn_eq]
    exact V60.Run.cut_of_le (Nat.le_refl _)
  have hread := Session.run_read hcut false []
  have hacts : ∀ a ∈ Act.read raw :: healthy.events.map .event, a ≠ .aborted := by simp
  have halone := run_alone (p := serving [⟨[raw], _⟩]) (i := 0) rfl rfl hread hacts
  refine ⟨_, _, _, _, (run_serving env beast t [_]).append halone, rfl, rfl, ?_⟩
  intro e he
  apply List.mem_append_right
  exact List.mem_map_of_mem (List.mem_cons_of_mem _ (List.mem_map_of_mem he))

end Process

/-! ## The listener -/

namespace Label

def setup? : Label → Option (List Char)
  | .setUp call => some call
  | .refused .. | .accepted _ | .acceptFailed | .acted .. => none

/-- The labels after which the listener is gone. -/
def ends : Label → Bool
  | .refused .. | .acceptFailed => true
  | .setUp _ | .accepted _ | .acted .. => false

end Label

namespace Process

/-- As long as there is a listener it has made the calls the labels show, and the process has
sessions only after the last of them. -/
structure Listens (labels : List Label) (p : Process) : Prop where
  calls : ∀ {left}, p.listener = .opening left →
    setupCalls = labels.filterMap Label.setup? ++ left ∧ labels.all (fun l => !l.ends) = true
  waits : ∀ {call left}, p.listener = .opening (call :: left) →
    p.log = ["Listening...".toList] ∧ p.sessions = []

theorem Listens.of_closed (hl : p.listener = .closed) : Listens labels p := by
  constructor
  · intro left hleft
    cases hl.symm.trans hleft
  · intro call left hleft
    cases hl.symm.trans hleft

theorem Listens.skip (h : Listens labels p) {label : Label} (hsetup : label.setup? = none)
    (hends : label.ends = false) {left : List (List Char)} (hl : p.listener = .opening left) :
    setupCalls = (labels ++ [label]).filterMap Label.setup? ++ left ∧
      (labels ++ [label]).all (fun l => !l.ends) = true := by
  obtain ⟨hcalls, hall⟩ := h.calls hl
  constructor
  · rw [List.filterMap_append, List.filterMap_cons_none hsetup, List.filterMap_nil,
      List.append_nil, hcalls]
  · rw [List.all_append, hall, List.all_cons, hends]
    rfl

theorem step_listens {label : Label} (h : Listens labels p) (hstep : Step env beast t p label p') :
    Listens (labels ++ [label]) p' := by
  cases hstep with
  | @setUp call calls hup hl =>
    obtain ⟨hcalls, hends⟩ := h.calls hl
    refine ⟨?_, fun _ => h.waits hl⟩
    intro left hleft
    obtain rfl := Listener.opening.inj hleft
    constructor
    · rw [hcalls, List.filterMap_append, List.append_assoc]
      rfl
    · rw [List.all_append, hends]
      rfl
  | refused message hup hl => exact .of_closed rfl
  | accepted client hup hl =>
    refine ⟨h.skip rfl rfl, ?_⟩
    intro call left hleft
    cases hl.symm.trans hleft
  | acceptFailed hup hl => exact .of_closed rfl
  | acted hup hs hstep =>
    refine ⟨h.skip rfl rfl, ?_⟩
    intro call left hleft
    obtain ⟨-, hnone⟩ := h.waits hleft
    rw [hnone] at hs
    cases hs

theorem start_listens : Listens [] start := by
  refine ⟨?_, ?_⟩
  · intro left hleft
    obtain rfl := Listener.opening.inj hleft
    exact ⟨rfl, rfl⟩
  · intro call left hleft
    exact ⟨rfl, rfl⟩

theorem run_listens (h : Run env beast t start labels p) : Listens labels p :=
  h.history (l := []) (fun _ _ _ _ => step_listens) start_listens

/-- Without a listener and without sessions `listen` returns. -/
theorem run_idle (hl : p.listener = .closed) (hnone : p.sessions = [])
    (h : Run env beast t p labels p') : labels = [] ∧ p' = p := by
  cases h with
  | nil p => exact ⟨rfl, rfl⟩
  | cons hstep h =>
    cases hstep with
    | setUp hup hopen => cases hl.symm.trans hopen
    | refused message hup hopen => cases hl.symm.trans hopen
    | accepted client hup hopen => cases hl.symm.trans hopen
    | acceptFailed hup hopen => cases hl.symm.trans hopen
    | acted hup hs hstep =>
      rw [hnone] at hs
      cases hs

/-- A client is accepted only after the four calls of `do_listen` succeeded, in their order, and
before the listener fails. When one of them fails the process says which, and nothing happens any
more. -/
theorem listener_order (h : Run env beast t start labels p) :
    (∀ before client after, labels = before ++ .accepted client :: after →
      before.filterMap Label.setup? = setupCalls ∧ before.all (fun l => !l.ends) = true) ∧
    ∀ before call message after, labels = before ++ .refused call message :: after →
      before.filterMap Label.setup? ++ [call] <+: setupCalls ∧ after = [] ∧ p.sessions = [] ∧
        p.log = ["Listening...".toList, fail message call] := by
  constructor
  · intro before client after heq
    subst heq
    obtain ⟨q, hbefore, hrest⟩ := h.of_append
    obtain ⟨q', hstep, -⟩ := hrest.of_cons
    cases hstep with
    | accepted client hup hl =>
      obtain ⟨hcalls, hends⟩ := (run_listens hbefore).calls hl
      rw [List.append_nil] at hcalls
      exact ⟨hcalls.symm, hends⟩
  · intro before call message after heq
    subst heq
    obtain ⟨q, hbefore, hrest⟩ := h.of_append
    obtain ⟨q', hstep, hafter⟩ := hrest.of_cons
    cases hstep with
    | @refused call left message hup hl =>
      obtain ⟨hcalls, -⟩ := (run_listens hbefore).calls hl
      obtain ⟨hlog, hnone⟩ := (run_listens hbefore).waits hl
      obtain ⟨rfl, rfl⟩ := run_idle (p := q.failListener [fail message call]) rfl hnone hafter
      refine ⟨⟨left, ?_⟩, rfl, hnone, ?_⟩
      · rw [List.append_assoc, hcalls]
        rfl
      · rw [failListener, hlog]
        rfl

theorem listener_order_refused :
    let labels : List Label := [.setUp "open".toList, .refused "set_option".toList "denied".toList]
    let p := start.failListener [fail "denied".toList "set_option".toList]
    (∀ before client after, labels = before ++ .accepted client :: after →
      before.filterMap Label.setup? = setupCalls ∧ before.all (fun l => !l.ends) = true) ∧
    ∀ before call message after, labels = before ++ .refused call message :: after →
      before.filterMap Label.setup? ++ [call] <+: setupCalls ∧ after = [] ∧ p.sessions = [] ∧
        p.log = ["Listening...".toList, fail message call] := by
  have h : Run (pcreEnv .debug) .reference parameterRoute start
      [.setUp "open".toList, .refused "set_option".toList "denied".toList]
      (start.failListener [fail "denied".toList "set_option".toList]) :=
    .cons (.setUp rfl rfl) (.one (.refused _ rfl rfl))
  exact listener_order h

end Process

end V60
