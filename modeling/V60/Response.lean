import V60.Request

/-!
# Responses, handlers and runs

A `response` is a sender and the message it will send. Processing a request is
a run: the handler calls and the writes in order, and how the coroutine ended.
A handler is a script of response calls computed from its request, followed by
a return or an exception. It keeps nothing between requests, and it catches
nothing: a call that throws ends it.
-/

namespace V60

structure Response where
  /-- whether `m_send` holds a target -/
  sender : Bool
  resp : StrResponse

inductive Event where
  | ran (verb : Verb) (handler : ℕ) (req : Request)
  | wrote (resp : StrResponse)

inductive Outcome where
  | returned (res : Bool)
  | threw
  | aborted
  deriving DecidableEq

structure Run where
  events : List Event
  outcome : Outcome

namespace Run

def done (res : Bool) : Run := ⟨[], .returned res⟩

def failed : Run := ⟨[], .threw⟩

def abort : Run := ⟨[], .aborted⟩

def after (events : List Event) (r : Run) : Run := ⟨events ++ r.events, r.outcome⟩

def andThen (r : Run) (f : Bool → Run) : Run :=
  match r.outcome with
  | .returned res => (f res).after r.events
  | .threw | .aborted => r

/-- `try { co_return co_await r; } catch (std::exception&)` and the code after it. -/
def orElse (r : Run) (handler : Run) : Run :=
  match r.outcome with
  | .threw => handler.after r.events
  | .returned _ | .aborted => r

def wrote? : Event → Option StrResponse
  | .wrote resp => some resp
  | .ran .. => none

def ran? : Event → Option (Verb × ℕ × Request)
  | .ran verb handler req => some (verb, handler, req)
  | .wrote _ => none

def writes (r : Run) : List StrResponse := r.events.filterMap wrote?

def handlers (r : Run) : List (Verb × ℕ × Request) := r.events.filterMap ran?

end Run

namespace Response

def header (r : Response) (key value : List Char) : Response :=
  { r with resp := { r.resp with fields := r.resp.fields.set key value } }

def contentType (r : Response) (type : List Char) : Response := r.header "content-type".toList type

def status (r : Response) (code : ℕ) : Response :=
  { r with resp := { r.resp with result := code } }

/-- The constructor: whatever the message held, it becomes a 200 of type `text/html`. -/
def new (resp : StrResponse) : Response :=
  ((⟨true, resp⟩ : Response).status 200).contentType "text/html".toList

def movedFrom (r : Response) : Response := ⟨false, r.resp.movedFrom⟩

def message (r : Response) (data : List Char) : StrResponse :=
  { r.resp with body := data }.contentLength data.length

/-- `co_await send(data)` and what follows it; without a target it throws
`bad_function_call`. -/
def send (r : Response) (data : List Char) (rest : Response → Run) : Run :=
  if r.sender then
    (rest { r with resp := (r.message data).movedFrom }).after [.wrote (r.message data)]
  else .failed

end Response

/-- What a handler calls. The message throws at a code of more than three digits, so that a script
that sets one ends before it with an exception. -/
inductive Call where
  | status (code : Fin 1000)
  | header (key value : List Char)
  | contentType (type : List Char)
  | send (data : List Char)
  | json (data : List Char)

structure Script where
  calls : List Call
  throws : Bool

def Response.perform (throws : Bool) : List Call → Response → Run
  | [], _ => if throws then .failed else .done true
  | .status code :: calls, r => perform throws calls (r.status code)
  | .header key value :: calls, r => perform throws calls (r.header key value)
  | .contentType type :: calls, r => perform throws calls (r.contentType type)
  | .send data :: calls, r => r.send data (perform throws calls)
  | .json data :: calls, r =>
    (r.contentType "application/json".toList).send data (perform throws calls)

structure Handler where
  name : ℕ
  script : Request → Script

def Handler.run (h : Handler) (verb : Verb) (req : Request) (resp : Response) : Run :=
  (resp.perform (h.script req).throws (h.script req).calls).after [.ran verb h.name req]

namespace Run

@[simp] theorem after_outcome (events : List Event) (r : Run) :
    (r.after events).outcome = r.outcome := rfl

@[simp] theorem after_events (events : List Event) (r : Run) :
    (r.after events).events = events ++ r.events := rfl

theorem andThen_returned {r : Run} {res : Bool} (h : r.outcome = .returned res) (f : Bool → Run) :
    r.andThen f = (f res).after r.events := by
  simp only [andThen, h]

theorem andThen_threw {r : Run} (h : r.outcome = .threw) (f : Bool → Run) : r.andThen f = r := by
  simp only [andThen, h]

theorem andThen_aborted {r : Run} (h : r.outcome = .aborted) (f : Bool → Run) :
    r.andThen f = r := by
  simp only [andThen, h]

theorem orElse_threw {r : Run} (h : r.outcome = .threw) (handler : Run) :
    r.orElse handler = handler.after r.events := by
  simp only [orElse, h]

theorem orElse_of_ne {r : Run} (h : r.outcome ≠ .threw) (handler : Run) : r.orElse handler = r := by
  cases ho : r.outcome with
  | threw => exact absurd ho h
  | returned res => simp only [orElse, ho]
  | aborted => simp only [orElse, ho]

@[simp] theorem writes_after (events : List Event) (r : Run) :
    (r.after events).writes = events.filterMap wrote? ++ r.writes := by
  simp [writes]

@[simp] theorem handlers_after (events : List Event) (r : Run) :
    (r.after events).handlers = events.filterMap ran? ++ r.handlers := by
  simp [handlers]

end Run

theorem Response.send_alive {r : Response} (h : r.sender = true) (data : List Char)
    (rest : Response → Run) :
    r.send data rest =
      (rest { r with resp := (r.message data).movedFrom }).after [.wrote (r.message data)] := by
  rw [Response.send, if_pos h]

theorem Response.send_dead {r : Response} (h : r.sender = false) (data : List Char)
    (rest : Response → Run) : r.send data rest = .failed := by
  rw [Response.send, if_neg (by simp [h])]

theorem Response.perform_outcome (throws : Bool) (calls : List Call) (r : Response) :
    (r.perform throws calls).outcome = .returned true ∨
      (r.perform throws calls).outcome = .threw := by
  induction calls generalizing r with
  | nil => cases throws <;> simp [Response.perform, Run.failed, Run.done]
  | cons call calls ih =>
    cases call with
    | status code => exact ih _
    | header key value => exact ih _
    | contentType type => exact ih _
    | send data =>
      rw [Response.perform, Response.send]
      split_ifs
      · exact ih _
      · exact Or.inr rfl
    | json data =>
      rw [Response.perform, Response.send]
      split_ifs
      · exact ih _
      · exact Or.inr rfl

theorem Handler.run_outcome (h : Handler) (verb : Verb) (req : Request) (resp : Response) :
    (h.run verb req resp).outcome = .returned true ∨ (h.run verb req resp).outcome = .threw :=
  Response.perform_outcome _ _ _

theorem Response.perform_handlers (throws : Bool) (calls : List Call) (r : Response) :
    (r.perform throws calls).handlers = [] := by
  induction calls generalizing r with
  | nil => cases throws <;> rfl
  | cons call calls ih =>
    cases call with
    | status code => exact ih _
    | header key value => exact ih _
    | contentType type => exact ih _
    | send data =>
      rw [Response.perform, Response.send]
      split_ifs
      · exact ih _
      · rfl
    | json data =>
      rw [Response.perform, Response.send]
      split_ifs
      · exact ih _
      · rfl

theorem Handler.run_handlers (h : Handler) (verb : Verb) (req : Request) (resp : Response) :
    (h.run verb req resp).handlers = [(verb, h.name, req)] := by
  rw [Handler.run, Run.handlers_after, Response.perform_handlers]
  rfl

end V60
