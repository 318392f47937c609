import V60.Equivalence
import V60.Messages

/-!
# Who hangs up

`do_session` shuts its connection down after a response that needs the end of
the stream. As long as no handler sets a `Connection` field of its own, that is
up to the request alone: one that is turned away for its target is followed,
and any other is followed in its version, whatever it asked for. So a session
hangs up on every request of HTTP/1.0, and on none of HTTP/1.1 that reaches a
route (`Process.shutdown_iff`).
-/

namespace V60

/-- Whether an answer to the request ends the connection. -/
def hangsUp (beast : Beast) (raw : StrRequest) : Bool :=
  if badTarget raw.target then !beast.keepAlive raw.version raw.fields
  else decide (raw.version = .http10)

/-! ## Messages -/

section Messages

variable (beast : Beast)

theorem keepAlive_set {fields : Fields} (version : Version) {key : List Char} (text : List Char)
    (hkey : StrResponse.LeavesConnection key) :
    beast.keepAlive version (fields.set key text) = beast.keepAlive version fields := by
  rw [Beast.keepAlive, Beast.keepAlive, Fields.find_set_of_ne text hkey]

theorem decide_http10 (version : Version) :
    decide (version = .http10) = !decide (version = .http11) := by
  cases version <;> rfl

theorem connection_stable (version : Version) :
    Stable StrResponse.LeavesConnection
      (fun m => m.version = version ∧
        beast.keepAlive m.version m.fields = decide (version = .http11))
      (fun m => beast.needEof m = decide (version = .http10)) where
  status _ h := h
  header text hkey h := ⟨h.1, (keepAlive_set beast _ text hkey).trans h.2⟩
  moved h := ⟨h.1, h.1 ▸ beast.keepAlive_nil _⟩
  message {r} data h := by
    have hsized : ((r.message data).fields.find "Content-Length".toList).isSome = true := by
      simp only [Response.message, StrResponse.contentLength]
      rw [Fields.find_set_self]
      rfl
    have hkeep : beast.keepAlive (r.message data).version (r.message data).fields =
        decide (version = .http11) :=
      (keepAlive_set beast _ _ StrResponse.connectionless_kept.contentLength).trans h.2
    rw [beast.needEof_sized hsized, hkeep, decide_http10]
  contentType := StrResponse.connectionless_kept.contentType

variable (env : Env) {t : Tree}

theorem handleRequest_hangsUp
    (ht : t.All (fun _ => True) (Handler.Sets StrResponse.LeavesConnection)) (raw : StrRequest) :
    ∀ m ∈ (handleRequest beast (t.routable env) raw).writes,
      beast.needEof m = hangsUp beast raw := by
  cases hraw : badTarget raw.target with
  | true =>
    rw [handleRequest_bad hraw, hangsUp, if_pos hraw]
    intro m hm
    obtain rfl : m = badRequest beast raw "Illegal request-target".toList := by
      simpa [Run.writes, Run.wrote?] using hm
    obtain ⟨hkeep, hneed⟩ := badRequest_keepAlive beast raw "Illegal request-target".toList
    rw [hneed, hkeep]
  | false =>
    rw [handleRequest_good hraw, hangsUp, if_neg (by simp [hraw])]
    apply Tree.call_stable (connection_stable beast raw.version) ht
    refine ⟨rfl, ?_⟩
    have hconnection := freshMessage_connection beast raw
    rw [StrResponse.connection] at hconnection
    rw [Beast.keepAlive, hconnection]
    exact beast.keepAliveValue_spec _ _ _

end Messages

/-! ## Sessions -/

theorem Run.mem_writes {events : List Event} {m : StrResponse} :
    m ∈ events.filterMap wrote? ↔ .wrote m ∈ events := by
  rw [List.mem_filterMap]
  constructor
  · intro h
    obtain ⟨e, he, hwrote⟩ := h
    cases e with
    | wrote m' =>
      obtain rfl := Option.some.inj hwrote
      exact he
    | ran verb handler req => cases hwrote
  · intro h
    exact ⟨_, h, rfl⟩

theorem closeAfter_const {beast : Beast} {writes : List StrResponse} {b : Bool}
    (h : ∀ m ∈ writes, beast.needEof m = b) :
    closeAfter beast false writes = (b && decide (writes ≠ [])) := by
  induction writes using List.reverseRecOn with
  | nil => simp [closeAfter]
  | append_singleton writes m ih =>
    have hlast : closeAfter beast false (writes ++ [m]) = beast.needEof m :=
      closeAfter_append beast false writes [m]
    rw [hlast, h m (by simp)]
    simp

theorem closes_iff {env : Env} {beast : Beast} {t : Tree}
    (ht : t.All (fun _ => True) (Handler.Sets StrResponse.LeavesConnection)) (raw : StrRequest) :
    let run := handleRequest beast (t.routable env) raw
    closeAfter beast false run.writes = true ↔
      hangsUp beast raw = true ∧ ∃ m, .wrote m ∈ run.events := by
  intro run
  have hwrites : run.writes ≠ [] ↔ ∃ m, .wrote m ∈ run.events := by
    rw [ne_eq, List.eq_nil_iff_forall_not_mem, not_forall_not]
    exact exists_congr fun m => Run.mem_writes
  rw [closeAfter_const (handleRequest_hangsUp beast env ht raw), Bool.and_eq_true,
    decide_eq_true_iff, hwrites]

namespace Process

variable {env : Env} {beast : Beast} {t : Tree} {p : Process}

/-- A session that is done with a request hangs up if the request has it and anything was written;
otherwise it reads the next one. -/
theorem shutdown_iff (ht : t.All (fun _ => True) (Handler.Sets StrResponse.LeavesConnection))
    {before after : List Label} {i : ℕ} {a : Act}
    (h : Run env beast t start (before ++ .acted i a :: after) p)
    (ha : a = .shutdown ∨ a = .returned) :
    ∃ earlier raw, ∃ since : List Event,
      Machines.acts i (moves before) = earlier ++ .read raw :: since.map .event ∧
      (a = .shutdown ↔ hangsUp beast raw = true ∧ ∃ m, .wrote m ∈ since) := by
  have hacts : Machines.acts i (moves (before ++ .acted i a :: after)) =
      Machines.acts i (moves before) ++ a :: Machines.acts i (moves after) := by
    rw [acts_append]
    exact congrArg (_ ++ ·) (Machines.acts_cons_self i a (moves after))
  obtain ⟨-, earlier, raw, -, -, hearlier, hshutdown⟩ := run_done h hacts ha
  exact ⟨earlier, raw, _, hearlier, hshutdown.trans (closes_iff ht raw)⟩

theorem shutdown_iff_hello :
    ∃ before p, Run (pcreEnv .debug) .reference parameterRoute start
        (before ++ [.acted 0 .shutdown]) p ∧
      ∃ earlier raw, ∃ since : List Event,
        Machines.acts 0 (moves before) = earlier ++ .read raw :: since.map .event ∧
        (Act.shutdown = .shutdown ↔
          hangsUp .reference raw = true ∧ ∃ m, .wrote m ∈ since) := by
  let raw : StrRequest := { getRequest "/hello/world".toList (by decide) with version := .http10 }
  let r := (handleRequestOn (pcreEnv .debug) .reference parameterRoute raw 1).1
  have houtcome : r.outcome = .returned true := by decide +kernel
  have hclose : closeAfter .reference false r.writes = true := by decide +kernel
  obtain ⟨p, hp⟩ := run_handled (pcreEnv .debug) .reference parameterRoute raw 1
  rw [requestLabels, handled, houtcome, hclose, ← List.cons_append, List.map_append,
    ← List.append_assoc] at hp
  have hsets : parameterRoute.All (fun _ => True)
      (Handler.Sets StrResponse.LeavesConnection) := by
    intro req call hcall
    obtain rfl := List.mem_singleton.mp hcall
    trivial
  exact ⟨_, p, hp, shutdown_iff hsets hp (Or.inl rfl)⟩

end Process

end V60
