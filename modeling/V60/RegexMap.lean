import V60.RegexMethods

/-!
# Mapping the subject

A map of the characters that the classes of an expression cannot see, in that
each takes a character exactly if it takes its image, commutes with matching:
the expression does on the image of a subject what it does on the subject.
-/

namespace Regex

variable {α ν : Type*} {f : α → α}

def Respects (f : α → α) : Expr α ν → Prop
  | .empty | .atBegin | .atEnd => True
  | .char p => ∀ c, p (f c) = p c
  | .seq a b | .alt a b => Respects f a ∧ Respects f b
  | .greedy _ _ r | .lazy _ _ r | .possessive _ _ r | .capture _ _ r => Respects f r

theorem respects_seqAll {rs : List (Expr α ν)} :
    Respects f (seqAll rs) ↔ ∀ r ∈ rs, Respects f r := by
  induction rs with
  | nil => simp [seqAll, Respects]
  | cons r rs ih =>
    cases rs with
    | nil => simp [seqAll]
    | cons s rs =>
      have hcons : Respects f (seqAll (r :: s :: rs)) ↔
          Respects f r ∧ Respects f (seqAll (s :: rs)) := Iff.rfl
      rw [hcons, ih, List.forall_mem_cons (l := s :: rs)]

def State.map (f : α → α) (s : State α) : State α :=
  ⟨s.rest.map f, s.caps.map fun g => (g.1, g.2.map f)⟩

@[simp]
theorem State.map_rest (f : α → α) (s : State α) : (s.map f).rest = s.rest.map f := rfl

theorem State.map_rest_length (f : α → α) (s : State α) :
    (s.map f).rest.length = s.rest.length := List.length_map _

theorem consumed_map {s t : State α} : Consumed (s.map f) (t.map f) ↔ Consumed s t := by
  rw [Consumed, Consumed, State.map_rest_length, State.map_rest_length]

theorem record_map (id : ℕ) (s t : State α) :
    (s.map f).record id (t.map f) = (s.record id t).map f := by
  simp only [State.record, State.between, State.map, List.length_map, List.map_cons, List.map_take]

/-- A step that does on the image of a state what it does on the state. -/
def Commutes (f : α → α) (once : Cont α) : Prop :=
  ∀ s, once (s.map f) = (once s).map (State.map f)

theorem step_map {results : State α → List (State α)}
    (h : ∀ s, results (s.map f) = (results s).map (State.map f)) : Commutes f (step results) := by
  intro s
  have hconsumed : (fun t => decide (Consumed (s.map f) t)) ∘ State.map f =
      fun t => decide (Consumed s t) := by
    funext t
    simp only [Function.comp_apply, consumed_map]
  rw [step, step, h, List.find?_map, hconsumed]

theorem atLeast_map {once : Cont α} (h : Commutes f once) (n : ℕ) :
    Commutes f (atLeast once n) := by
  induction n with
  | zero => exact fun s => rfl
  | succ n ih =>
    intro s
    rw [atLeast, atLeast, h]
    cases once s with
    | none => rfl
    | some t => exact ih t

theorem greedyResults_map {once : Cont α} (h : Commutes f once) (hi fuel i : ℕ) (s : State α) :
    greedyResults once hi fuel i (s.map f) =
      (greedyResults once hi fuel i s).map (State.map f) := by
  induction fuel generalizing i s with
  | zero => rfl
  | succ fuel ih =>
    simp only [greedyResults, h s]
    cases below hi i with
    | false => rfl
    | true =>
      cases once s with
      | none => rfl
      | some t => simp [ih]

theorem lazyResults_map {once : Cont α} (h : Commutes f once) (hi fuel i : ℕ) (s : State α) :
    lazyResults once hi fuel i (s.map f) = (lazyResults once hi fuel i s).map (State.map f) := by
  induction fuel generalizing i s with
  | zero => rfl
  | succ fuel ih =>
    simp only [lazyResults, h s]
    cases below hi i with
    | false => rfl
    | true =>
      cases once s with
      | none => rfl
      | some t => simp [ih]

theorem possessiveLoop_map {once : Cont α} (h : Commutes f once) (hi fuel i : ℕ) (s : State α) :
    possessiveLoop once hi fuel i (s.map f) = (possessiveLoop once hi fuel i s).map f := by
  induction fuel generalizing i s with
  | zero => rfl
  | succ fuel ih =>
    simp only [possessiveLoop, h s]
    cases below hi i with
    | false => rfl
    | true =>
      cases once s with
      | none => rfl
      | some t => exact ih (i + 1) t

theorem results_map (n : ℕ) {r : Expr α ν} (hr : Respects f r) (s : State α) :
    results n r (s.map f) = (results n r s).map (State.map f) := by
  induction r generalizing s with
  | empty => rfl
  | char p =>
    obtain ⟨rest, caps⟩ := s
    cases rest with
    | nil => rfl
    | cons c cs =>
      simp only [results, State.map, List.map_cons, hr c]
      split_ifs <;> rfl
  | seq a b iha ihb =>
    rw [results, results, iha hr.1, List.flatMap_map, List.map_flatMap]
    exact List.flatMap_congr fun t _ => ihb hr.2 t
  | alt a b iha ihb => rw [results, results, iha hr.1, ihb hr.2, List.map_append]
  | greedy lo hi r ih =>
    have hstep := step_map (ih hr)
    rw [results, results, atLeast_map hstep lo s]
    cases atLeast (step (results n r)) lo s with
    | none => rfl
    | some t =>
      simp only [Option.map_some, Option.elim_some, State.map_rest_length]
      exact greedyResults_map hstep hi _ lo t
  | «lazy» lo hi r ih =>
    have hstep := step_map (ih hr)
    rw [results, results, atLeast_map hstep lo s]
    cases atLeast (step (results n r)) lo s with
    | none => rfl
    | some t =>
      simp only [Option.map_some, Option.elim_some, State.map_rest_length]
      exact lazyResults_map hstep hi _ lo t
  | possessive lo hi r ih =>
    have hstep := step_map (ih hr)
    rw [results, results, atLeast_map hstep lo s]
    cases atLeast (step (results n r)) lo s with
    | none => rfl
    | some t =>
      simp only [Option.map_some, Option.elim_some, State.map_rest_length]
      rw [possessiveLoop_map hstep]
      rfl
  | capture id name r ih =>
    rw [results, results, ih hr, List.map_map, List.map_map]
    exact List.map_congr_left fun t _ => record_map id s t
  | atBegin =>
    simp only [results, State.map_rest_length]
    split_ifs <;> rfl
  | atEnd =>
    simp only [results, State.map_rest, List.map_eq_nil_iff]
    split_ifs <;> rfl

theorem startsWith_map {r : Expr α ν} (hr : Respects f r) (input : List α) :
    startsWith r (input.map f) = (startsWith r input).map (State.map f) := by
  have hresults := results_map input.length hr (start input)
  rw [startsWith_eq, startsWith_eq, List.length_map, ← List.head?_map, ← hresults]
  rfl

end Regex
