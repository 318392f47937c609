import Mathlib.Algebra.BigOperators.Group.Finset.Piecewise
import Mathlib.Data.List.Basic

/-!
# Machines that run side by side

A machine takes one step after the other, each of them an action, until it is
in a state without a step. A pool of copies of it takes the steps of its members
in any order, and new members may join at any time. What a member has done and
the state it is in are those of a run of its own (`PoolRun.member`), so that the
order of the steps leaves no trace in the pool (`PoolRun.confluent`).
-/

namespace Machines

/-! ## Traces -/

inductive Trace {σ α : Type*} (R : σ → α → σ → Prop) : σ → List α → σ → Prop
  | nil (s : σ) : Trace R s [] s
  | cons {s s' s'' : σ} {a : α} {l : List α} :
    R s a s' → Trace R s' l s'' → Trace R s (a :: l) s''

namespace Trace

variable {σ α τ β : Type*} {R : σ → α → σ → Prop} {s s' s'' : σ} {a : α} {l l' : List α}

theorem one (h : R s a s') : Trace R s [a] s' := .cons h (.nil s')

theorem append (h : Trace R s l s') (h' : Trace R s' l' s'') : Trace R s (l ++ l') s'' := by
  induction h with
  | nil s => exact h'
  | cons hstep h ih => exact .cons hstep (ih h')

theorem eq_of_nil (h : Trace R s [] s') : s = s' := by
  cases h
  rfl

theorem of_cons (h : Trace R s (a :: l) s'') : ∃ s', R s a s' ∧ Trace R s' l s'' := by
  cases h with
  | cons hstep h => exact ⟨_, hstep, h⟩

theorem of_append (h : Trace R s (l ++ l') s'') : ∃ s', Trace R s l s' ∧ Trace R s' l' s'' := by
  induction l generalizing s with
  | nil => exact ⟨s, .nil s, h⟩
  | cons a l ih =>
    obtain ⟨t, hstep, h⟩ := h.of_cons
    obtain ⟨s', hl, hl'⟩ := ih h
    exact ⟨s', .cons hstep hl, hl'⟩

/-- What every step keeps, of the actions so far and the state, holds at the end of a trace. -/
theorem history {p : List α → σ → Prop}
    (hstep : ∀ l s a s', p l s → R s a s' → p (l ++ [a]) s') (h : Trace R s l' s')
    (hp : p l s) : p (l ++ l') s' := by
  induction h generalizing l with
  | nil s => rwa [List.append_nil]
  | cons hs h ih =>
    rw [List.append_cons]
    exact ih (hstep _ _ _ _ hp hs)

/-- A step without a counterpart leaves the part `f` alone, the others are steps of it. -/
theorem project {R' : τ → β → τ → Prop} {f : σ → τ} {g : α → Option β}
    (hskip : ∀ s a s', R s a s' → g a = none → f s = f s')
    (hstep : ∀ s a s' b, R s a s' → g a = some b → R' (f s) b (f s'))
    (h : Trace R s l s') : Trace R' (f s) (l.filterMap g) (f s') := by
  induction h with
  | nil s => exact .nil (f s)
  | @cons s s₁ s' a l hs h ih =>
    cases ha : g a with
    | none =>
      rw [List.filterMap_cons_none ha, hskip _ _ _ hs ha]
      exact ih
    | some b =>
      rw [List.filterMap_cons_some ha]
      exact .cons (hstep _ _ _ _ hs ha) ih

/-- A relation that the steps of another machine keep up with relates the ends of two traces. -/
theorem simulate {τ : Type*} {R' : τ → α → τ → Prop} (sim : σ → τ → Prop)
    (hstep : ∀ s t a s', sim s t → R s a s' → ∃ t', R' t a t' ∧ sim s' t')
    (h : Trace R s l s') {t : τ} (hsim : sim s t) : ∃ t', Trace R' t l t' ∧ sim s' t' := by
  induction h generalizing t with
  | nil s => exact ⟨t, .nil t, hsim⟩
  | cons hs h ih =>
    obtain ⟨t₁, ht, hsim₁⟩ := hstep _ _ _ _ hsim hs
    obtain ⟨t', htrace, hsim'⟩ := ih hsim₁
    exact ⟨t', .cons ht htrace, hsim'⟩

end Trace

/-! ## A machine -/

abbrev Run {σ α : Type*} (step : σ → Option (α × σ)) : σ → List α → σ → Prop :=
  Trace fun s a s' => step s = some (a, s')

namespace Run

variable {σ α : Type*} {step : σ → Option (α × σ)} {s s' s'' : σ} {l l' : List α}

/-- The length of a run determines its actions and where it ends. -/
theorem determined (h : Run step s l s') (h' : Run step s l' s'')
    (hlen : l.length = l'.length) : l = l' ∧ s' = s'' := by
  induction h generalizing l' with
  | nil s =>
    obtain rfl : l' = [] := List.length_eq_zero_iff.mp hlen.symm
    exact ⟨rfl, h'.eq_of_nil⟩
  | cons hstep h ih =>
    cases h' with
    | nil s => simp at hlen
    | cons hstep' h' =>
      rw [hstep] at hstep'
      obtain ⟨rfl, rfl⟩ := Prod.mk.inj (Option.some.inj hstep')
      obtain ⟨rfl, rfl⟩ := ih h' (by simpa using hlen)
      exact ⟨rfl, rfl⟩

/-- Every run can go on as the run to a final state does. -/
theorem completes {f : σ} (h : Run step s l f) (hfinal : step f = none) (h' : Run step s l' s') :
    ∃ r, l = l' ++ r ∧ Run step s' r f := by
  induction h' generalizing l with
  | nil s => exact ⟨l, rfl, h⟩
  | cons hstep h' ih =>
    cases h with
    | nil s =>
      rw [hfinal] at hstep
      cases hstep
    | cons hstep' h =>
      rw [hstep] at hstep'
      obtain ⟨rfl, rfl⟩ := Prod.mk.inj (Option.some.inj hstep')
      obtain ⟨r, rfl, hr⟩ := ih h
      exact ⟨r, rfl, hr⟩

/-- Of two runs from one state one goes on where the other stops. -/
theorem prefix_or_prefix (h : Run step s l s') (h' : Run step s l' s'') :
    l <+: l' ∨ l' <+: l := by
  induction h generalizing l' with
  | nil s => exact Or.inl (List.nil_prefix)
  | cons hstep h ih =>
    cases h' with
    | nil s => exact Or.inr (List.nil_prefix)
    | cons hstep' h' =>
      rw [hstep] at hstep'
      obtain ⟨rfl, rfl⟩ := Prod.mk.inj (Option.some.inj hstep')
      rw [List.prefix_cons_inj, List.prefix_cons_inj]
      exact ih h'

theorem nil_of_final (h : Run step s l s') (hfinal : step s = none) : l = [] := by
  cases h with
  | nil s => rfl
  | cons hstep h =>
    rw [hfinal] at hstep
    cases hstep

end Run

/-! ## A pool of machines -/

inductive Move (σ α : Type*) where
  | join (s : σ)
  | act (i : ℕ) (a : α)

namespace Move

variable {σ α : Type*}

def joined? : Move σ α → Option σ
  | .join s => some s
  | .act .. => none

def actOf? (i : ℕ) : Move σ α → Option α
  | .join _ => none
  | .act j a => if j = i then some a else none

end Move

inductive PoolStep {σ α : Type*} (step : σ → Option (α × σ)) :
    List σ → Move σ α → List σ → Prop
  | join (p : List σ) (s : σ) : PoolStep step p (.join s) (p ++ [s])
  | act {p : List σ} {i : ℕ} {a : α} {s s' : σ} :
    p[i]? = some s → step s = some (a, s') → PoolStep step p (.act i a) (p.set i s')

abbrev PoolRun {σ α : Type*} (step : σ → Option (α × σ)) :
    List σ → List (Move σ α) → List σ → Prop :=
  Trace (PoolStep step)

section Moves

variable {σ α : Type*}

def joined (moves : List (Move σ α)) : List σ := moves.filterMap Move.joined?

def acts (i : ℕ) (moves : List (Move σ α)) : List α := moves.filterMap (Move.actOf? i)

theorem joined_cons_join (s : σ) (moves : List (Move σ α)) :
    joined (.join s :: moves) = s :: joined moves := rfl

theorem joined_cons_act (i : ℕ) (a : α) (moves : List (Move σ α)) :
    joined (.act i a :: moves) = joined moves := rfl

theorem acts_cons_join (i : ℕ) (s : σ) (moves : List (Move σ α)) :
    acts i (.join s :: moves) = acts i moves := rfl

theorem acts_cons_self (i : ℕ) (a : α) (moves : List (Move σ α)) :
    acts i (.act i a :: moves) = a :: acts i moves :=
  List.filterMap_cons_some (if_pos rfl)

theorem acts_cons_of_ne {i j : ℕ} (h : j ≠ i) (a : α) (moves : List (Move σ α)) :
    acts i (.act j a :: moves) = acts i moves :=
  List.filterMap_cons_none (if_neg h)

end Moves

namespace PoolRun

variable {σ α : Type*} {step : σ → Option (α × σ)} {p p' p'' : List σ}
  {moves moves' : List (Move σ α)}

theorem length_eq (h : PoolRun step p moves p') :
    p'.length = p.length + (joined moves).length := by
  induction h with
  | nil p => rfl
  | cons hstep h ih =>
    rw [ih]
    cases hstep with
    | join s =>
      rw [joined_cons_join, List.length_append, List.length_cons, List.length_cons,
        List.length_nil]
      omega
    | act hs hstep => rw [joined_cons_act, List.length_set]

theorem lt_of_mem (h : PoolRun step p moves p') {i : ℕ} {a : α} (ha : .act i a ∈ moves) :
    i < p'.length := by
  induction h with
  | nil p => exact absurd ha List.not_mem_nil
  | cons hstep h ih =>
    rcases List.mem_cons.mp ha with heq | ha
    · subst heq
      cases hstep with
      | act hs hstep =>
        have hlt := (List.getElem?_eq_some_iff.mp hs).1
        rw [PoolRun.length_eq h, List.length_set]
        omega
    · exact ih ha

theorem lt_of_acts (h : PoolRun step p moves p') {i : ℕ} {a : α} (ha : a ∈ acts i moves) :
    i < p'.length := by
  obtain ⟨move, hmove, hact⟩ := List.mem_filterMap.mp ha
  cases move with
  | join s => cases hact
  | act j b =>
    rw [Move.actOf?] at hact
    split_ifs at hact with hij
    exact h.lt_of_mem (hij ▸ hmove)

/-- A member of a pool has run on its own. -/
theorem member (h : PoolRun step p moves p') {i : ℕ} {s : σ}
    (hs : (p ++ joined moves)[i]? = some s) :
    ∃ s', p'[i]? = some s' ∧ Run step s (acts i moves) s' := by
  induction h generalizing s with
  | nil p =>
    rw [joined, List.filterMap_nil, List.append_nil] at hs
    exact ⟨s, hs, .nil s⟩
  | @cons p p₁ p' m moves hstep h ih =>
    cases hstep with
    | join t =>
      apply ih
      rwa [List.append_assoc]
    | @act j a t t' ht hstep =>
      have hj : j < p.length := (List.getElem?_eq_some_iff.mp ht).1
      rw [joined_cons_act] at hs
      by_cases hij : j = i
      · subst hij
        rw [List.getElem?_append_left hj, ht] at hs
        obtain rfl := Option.some.inj hs
        have hset : (p.set j t' ++ joined moves)[j]? = some t' := by
          rw [List.getElem?_append_left (by simpa using hj), List.getElem?_set_self hj]
        obtain ⟨s', hs', hrun⟩ := ih hset
        rw [acts_cons_self]
        exact ⟨s', hs', .cons hstep hrun⟩
      · rw [acts_cons_of_ne hij]
        apply ih
        by_cases hi : i < p.length
        · rw [List.getElem?_append_left (by simpa using hi), List.getElem?_set_ne hij]
          rwa [List.getElem?_append_left hi] at hs
        · rw [List.getElem?_append_right (by simpa using hi), List.length_set]
          rwa [List.getElem?_append_right (by omega)] at hs

/-- Runs in which the same members join and each of them takes as many steps end alike, each
member having done the same. -/
theorem confluent (h : PoolRun step p moves p') (h' : PoolRun step p moves' p'')
    (hjoined : joined moves = joined moves')
    (hacts : ∀ i < p'.length, (acts i moves).length = (acts i moves').length) :
    p' = p'' ∧ ∀ i < p'.length, acts i moves = acts i moves' := by
  have hmember : ∀ i < p'.length, p'[i]? = p''[i]? ∧ acts i moves = acts i moves' := by
    intro i hi
    have hmem : i < (p ++ joined moves).length := by
      rw [List.length_append, ← h.length_eq]
      exact hi
    obtain ⟨s, hs⟩ : ∃ s, (p ++ joined moves)[i]? = some s := ⟨_, List.getElem?_eq_getElem hmem⟩
    obtain ⟨s', hs', hrun⟩ := h.member hs
    rw [hjoined] at hs
    obtain ⟨s'', hs'', hrun'⟩ := h'.member hs
    obtain ⟨hl, rfl⟩ := hrun.determined hrun' (hacts i hi)
    exact ⟨hs'.trans hs''.symm, hl⟩
  have hlen : p'.length = p''.length := by rw [h.length_eq, h'.length_eq, hjoined]
  constructor
  · refine List.ext_getElem? fun i => ?_
    by_cases hi : i < p'.length
    · exact (hmember i hi).1
    · rw [List.getElem?_eq_none (by omega), List.getElem?_eq_none (by omega)]
  · intro i hi
    exact (hmember i hi).2

/-- The moves of a pool are those of its members, and one for each that joined. -/
theorem length_moves (h : PoolRun step p moves p') :
    moves.length = (joined moves).length + ∑ i ∈ Finset.range p'.length, (acts i moves).length := by
  induction h with
  | nil p => simp [joined, acts]
  | @cons p p₁ p' m moves hstep h ih =>
    cases hstep with
    | join s =>
      simp only [acts_cons_join, joined_cons_join, List.length_cons]
      omega
    | @act j a s s' hs hstep =>
      have hj : j ∈ Finset.range p'.length := by
        have hlt : j < p.length := (List.getElem?_eq_some_iff.mp hs).1
        rw [Finset.mem_range, PoolRun.length_eq h, List.length_set]
        omega
      have hacts : ∀ i, (acts i (.act j a :: moves)).length =
          (acts i moves).length + if j = i then 1 else 0 := by
        intro i
        by_cases hij : j = i
        · rw [hij, acts_cons_self, if_pos rfl, List.length_cons]
        · rw [acts_cons_of_ne hij, if_neg hij, Nat.add_zero]
      rw [Finset.sum_congr rfl fun i _ => hacts i, Finset.sum_add_distrib, Finset.sum_ite_eq,
        if_pos hj, joined_cons_act, List.length_cons, ih]
      omega

end PoolRun

end Machines
