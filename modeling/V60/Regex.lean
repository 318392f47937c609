import Mathlib.Data.List.Basic
import Mathlib.Data.Nat.Basic
import Mathlib.Order.Basic

/-!
# Backtracking regular expressions

A matcher that walks an expression with the rest of the pattern as its
continuation, and the list-of-successes reading of the same expression. The
body of a repetition is matched on its own, as one step that has to consume
something; what comes after the repetition decides how many steps it keeps.
`evaluate_eq` says that the matcher is the first success the continuation
accepts, so every later fact is a fact about `results`.
-/

namespace Regex

variable {α ν : Type*}

/-- `repeat lo hi`: a bound `hi = 0` stands for no bound. -/
inductive Expr (α ν : Type*) where
  | empty : Expr α ν
  | char : (α → Bool) → Expr α ν
  | seq : Expr α ν → Expr α ν → Expr α ν
  | alt : Expr α ν → Expr α ν → Expr α ν
  | greedy : ℕ → ℕ → Expr α ν → Expr α ν
  | lazy : ℕ → ℕ → Expr α ν → Expr α ν
  | possessive : ℕ → ℕ → Expr α ν → Expr α ν
  | capture : ℕ → Option ν → Expr α ν → Expr α ν
  | atBegin : Expr α ν
  | atEnd : Expr α ν

structure State (α : Type*) where
  rest : List α
  caps : List (ℕ × List α)
  deriving DecidableEq

abbrev Cont (α : Type*) := State α → Option (State α)

def State.between (s t : State α) : List α := s.rest.take (s.rest.length - t.rest.length)

def State.record (id : ℕ) (s t : State α) : State α :=
  { t with caps := (id, s.between t) :: t.caps }

def Consumed (s t : State α) : Prop := t.rest.length < s.rest.length

instance (s t : State α) : Decidable (Consumed s t) := inferInstanceAs (Decidable (_ < _))

def below (hi i : ℕ) : Bool := hi = 0 || i < hi

def atLeast (once : Cont α) : ℕ → Cont α
  | 0, s => some s
  | n + 1, s => (once s).bind (atLeast once n)

def greedyLoop (once k : Cont α) (hi : ℕ) : ℕ → ℕ → Cont α
  | 0, _, s => k s
  | n + 1, i, s =>
    if below hi i then
      match once s with
      | some t => (greedyLoop once k hi n (i + 1) t).or (k s)
      | none => k s
    else k s

def lazyLoop (once k : Cont α) (hi : ℕ) : ℕ → ℕ → Cont α
  | 0, _, s => k s
  | n + 1, i, s =>
    (k s).or (if below hi i then (once s).bind (lazyLoop once k hi n (i + 1)) else none)

def possessiveLoop (once : Cont α) (hi : ℕ) : ℕ → ℕ → State α → State α
  | 0, _, s => s
  | n + 1, i, s =>
    if below hi i then
      match once s with
      | some t => possessiveLoop once hi n (i + 1) t
      | none => s
    else s

def accept (s : State α) : Cont α := fun t => if Consumed s t then some t else none

/-- `n` is the length of the whole subject, which only `atBegin` looks at. -/
def evaluate (n : ℕ) : Expr α ν → State α → Cont α → Option (State α)
  | .empty, s, k => k s
  | .char p, s, k =>
    match s.rest with
    | [] => none
    | c :: cs => if p c then k { s with rest := cs } else none
  | .seq a b, s, k => evaluate n a s (fun t => evaluate n b t k)
  | .alt a b, s, k => (evaluate n a s k).or (evaluate n b s k)
  | .greedy lo hi r, s, k =>
    let once : Cont α := fun s => evaluate n r s (accept s)
    (atLeast once lo s).bind fun t => greedyLoop once k hi t.rest.length lo t
  | .lazy lo hi r, s, k =>
    let once : Cont α := fun s => evaluate n r s (accept s)
    (atLeast once lo s).bind fun t => lazyLoop once k hi t.rest.length lo t
  | .possessive lo hi r, s, k =>
    let once : Cont α := fun s => evaluate n r s (accept s)
    (atLeast once lo s).bind fun t => k (possessiveLoop once hi t.rest.length lo t)
  | .capture id _ r, s, k => evaluate n r s (fun t => k (s.record id t))
  | .atBegin, s, k => if s.rest.length = n then k s else none
  | .atEnd, s, k => if s.rest = [] then k s else none

def seqAll : List (Expr α ν) → Expr α ν
  | [] => .empty
  | [r] => r
  | r :: rs => .seq r (seqAll rs)

def captures : Expr α ν → List (ℕ × Option ν)
  | .empty | .char _ | .atBegin | .atEnd => []
  | .seq a b | .alt a b => captures a ++ captures b
  | .greedy _ _ r | .lazy _ _ r | .possessive _ _ r => captures r
  | .capture id name r => (id, name) :: captures r

def greedyResults (once : Cont α) (hi : ℕ) : ℕ → ℕ → State α → List (State α)
  | 0, _, s => [s]
  | n + 1, i, s =>
    (if below hi i then
      match once s with
      | some t => greedyResults once hi n (i + 1) t
      | none => []
    else []) ++ [s]

def lazyResults (once : Cont α) (hi : ℕ) : ℕ → ℕ → State α → List (State α)
  | 0, _, s => [s]
  | n + 1, i, s =>
    s :: (if below hi i then
      match once s with
      | some t => lazyResults once hi n (i + 1) t
      | none => []
    else [])

def step (f : State α → List (State α)) : Cont α := fun s => (f s).find? (fun t => Consumed s t)

/-- Every way the expression can match at `s`, in the order the matcher tries them. -/
def results (n : ℕ) : Expr α ν → State α → List (State α)
  | .empty, s => [s]
  | .char p, s =>
    match s.rest with
    | [] => []
    | c :: cs => if p c then [{ s with rest := cs }] else []
  | .seq a b, s => (results n a s).flatMap (results n b)
  | .alt a b, s => results n a s ++ results n b s
  | .greedy lo hi r, s =>
    (atLeast (step (results n r)) lo s).elim [] fun t =>
      greedyResults (step (results n r)) hi t.rest.length lo t
  | .lazy lo hi r, s =>
    (atLeast (step (results n r)) lo s).elim [] fun t =>
      lazyResults (step (results n r)) hi t.rest.length lo t
  | .possessive lo hi r, s =>
    (atLeast (step (results n r)) lo s).elim [] fun t =>
      [possessiveLoop (step (results n r)) hi t.rest.length lo t]
  | .capture id _ r, s => (results n r s).map (s.record id)
  | .atBegin, s => if s.rest.length = n then [s] else []
  | .atEnd, s => if s.rest = [] then [s] else []

theorem greedyLoop_eq (once k : Cont α) (hi fuel i : ℕ) (s : State α) :
    greedyLoop once k hi fuel i s = (greedyResults once hi fuel i s).findSome? k := by
  induction fuel generalizing i s with
  | zero => simp [greedyLoop, greedyResults]
  | succ fuel ih =>
    simp only [greedyLoop, greedyResults]
    cases below hi i with
    | false => simp
    | true =>
      cases once s with
      | none => simp
      | some t => simp [ih, List.findSome?_append]

theorem lazyLoop_eq (once k : Cont α) (hi fuel i : ℕ) (s : State α) :
    lazyLoop once k hi fuel i s = (lazyResults once hi fuel i s).findSome? k := by
  induction fuel generalizing i s with
  | zero => simp [lazyLoop, lazyResults]
  | succ fuel ih =>
    simp only [lazyLoop, lazyResults, List.findSome?_cons]
    cases hb : below hi i with
    | false => cases k s <;> simp
    | true =>
      cases once s with
      | none => cases k s <;> simp
      | some t => cases k s <;> simp [ih]

theorem findSome?_accept (s : State α) (l : List (State α)) :
    l.findSome? (accept s) = l.find? (fun t => Consumed s t) := by
  induction l with
  | nil => rfl
  | cons t l ih => by_cases h : Consumed s t <;> simp [accept, h, ih]

theorem step_eq (f : State α → List (State α)) :
    (fun s => (f s).findSome? (accept s)) = step f := by
  funext s
  exact findSome?_accept s (f s)

theorem findSome?_flatMap (l : List (State α)) (f : State α → List (State α)) (k : Cont α) :
    (l.flatMap f).findSome? k = l.findSome? fun t => (f t).findSome? k := by
  induction l with
  | nil => rfl
  | cons t l ih =>
    rw [List.flatMap_cons, List.findSome?_append, ih, List.findSome?_cons]
    cases (f t).findSome? k <;> rfl

theorem evaluate_eq (n : ℕ) (r : Expr α ν) (s : State α) (k : Cont α) :
    evaluate n r s k = (results n r s).findSome? k := by
  induction r generalizing s k with
  | empty => simp [evaluate, results]
  | char p =>
    simp only [evaluate, results]
    cases s.rest with
    | nil => rfl
    | cons c cs => by_cases h : p c <;> simp [h]
  | seq a b iha ihb => simp only [evaluate, results, iha, ihb, findSome?_flatMap]
  | alt a b iha ihb => simp only [evaluate, results, iha, ihb, List.findSome?_append]
  | greedy lo hi r ih =>
    simp only [evaluate, results, ih, step_eq]
    cases atLeast _ lo s with
    | none => rfl
    | some t => exact greedyLoop_eq _ _ _ _ _ _
  | «lazy» lo hi r ih =>
    simp only [evaluate, results, ih, step_eq]
    cases atLeast _ lo s with
    | none => rfl
    | some t => exact lazyLoop_eq _ _ _ _ _ _
  | possessive lo hi r ih =>
    simp only [evaluate, results, ih, step_eq]
    cases atLeast _ lo s with
    | none => rfl
    | some t => simp
  | capture id name r ih =>
    simp only [evaluate, results, ih]
    induction results n r s with
    | nil => rfl
    | cons t l ihl => simp [List.findSome?_cons, ihl]
  | atBegin => simp only [evaluate, results]; split_ifs <;> simp
  | atEnd => simp only [evaluate, results]; split_ifs <;> simp

theorem results_seqAll_cons (n : ℕ) (r : Expr α ν) (rs : List (Expr α ν)) (s : State α) :
    results n (seqAll (r :: rs)) s = (results n r s).flatMap (results n (seqAll rs)) := by
  cases rs with
  | nil => simp [seqAll, results]
  | cons a as => rfl

theorem results_seqAll_append (n : ℕ) (rs ts : List (Expr α ν)) (s : State α) :
    results n (seqAll (rs ++ ts)) s =
      (results n (seqAll rs) s).flatMap (results n (seqAll ts)) := by
  induction rs generalizing s with
  | nil => simp [seqAll, results]
  | cons r rs ih =>
    rw [List.cons_append, results_seqAll_cons, results_seqAll_cons, List.flatMap_assoc]
    exact List.flatMap_congr fun t _ => ih t

theorem captures_seqAll (rs : List (Expr α ν)) :
    captures (seqAll rs) = rs.flatMap captures := by
  induction rs with
  | nil => rfl
  | cons r rs ih =>
    cases rs with
    | nil => simp [seqAll]
    | cons a as => rw [List.flatMap_cons, ← ih]; rfl

end Regex
