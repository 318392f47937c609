import V60.Regex
import Mathlib.Data.List.TakeWhile

/-!
# Entry points of the matcher, and the rule for a greedy run of characters

`startsWith` takes the first success, `fullMatch` the first one that leaves
nothing, `range` the successive leftmost matches. A greedy `+` over one
character class gives back the suffixes left after a non-empty run, shortest
suffix first; `mem_plusSuffixes` and `plusSuffixes_sorted` are the two facts
about that list that clients use.
-/

namespace Regex

variable {α ν : Type*}

def start (input : List α) : State α := ⟨input, []⟩

def startsWith (r : Expr α ν) (input : List α) : Option (State α) :=
  evaluate input.length r (start input) some

def fullMatch (r : Expr α ν) (input : List α) : Option (State α) :=
  evaluate input.length r (start input) (fun t => if t.rest = [] then some t else none)

def search (n : ℕ) (r : Expr α ν) : List α → Option (List α × State α)
  | [] => (evaluate n r (start []) some).map (Prod.mk [])
  | c :: cs =>
    match evaluate n r (start (c :: cs)) some with
    | some t => some ([], t)
    | none => (search n r cs).map fun m => (c :: m.1, m.2)

structure Hit (α : Type*) where
  first : ℕ
  last : ℕ
  caps : List (ℕ × List α)

def rangeFrom (n : ℕ) (r : Expr α ν) : ℕ → ℕ → List α → List (Hit α)
  | 0, _, _ => []
  | fuel + 1, pos, input =>
    match search n r input with
    | none => []
    | some (skipped, t) =>
      let last := pos + (input.length - t.rest.length)
      ⟨pos + skipped.length, last, t.caps⟩ ::
        (if t.rest = [] then [] else rangeFrom n r fuel last t.rest)

/-- The matches of an expression that cannot match the empty text, left to right. -/
def range (r : Expr α ν) (input : List α) : List (Hit α) :=
  rangeFrom input.length r (input.length + 1) 0 input

theorem evaluate_some (n : ℕ) (r : Expr α ν) (s : State α) :
    evaluate n r s some = (results n r s).head? := by
  rw [evaluate_eq]
  cases results n r s <;> rfl

theorem startsWith_eq (r : Expr α ν) (input : List α) :
    startsWith r input = (results input.length r (start input)).head? :=
  evaluate_some _ _ _

theorem fullMatch_eq (r : Expr α ν) (input : List α) :
    fullMatch r input =
      (results input.length r (start input)).find? (fun t => decide (t.rest = [])) := by
  rw [fullMatch, evaluate_eq]
  induction results input.length r (start input) with
  | nil => rfl
  | cons t l ih => by_cases h : t.rest = [] <;> simp_all

theorem head_flatMap_of_pairwise {α β : Type} {R : α → α → Prop} {l : List α}
    {f : α → List β} {b b' : β} (hl : l.Pairwise R) (hb : (l.flatMap f).head? = some b)
    (hb' : b' ∈ l.flatMap f) :
    ∃ a ∈ l, ∃ a' ∈ l, (f a).head? = some b ∧ b' ∈ f a' ∧ (a = a' ∨ R a a') := by
  rw [List.head?_flatMap, List.findSome?_eq_some_iff] at hb
  obtain ⟨before, a, after, rfl, ha, hnone⟩ := hb
  obtain ⟨a', ha', hmem⟩ := List.mem_flatMap.mp hb'
  refine ⟨a, by simp, a', ha', ha, hmem, ?_⟩
  rcases List.mem_append.mp ha' with hbefore | hrest
  · have hempty := List.head?_eq_none_iff.mp (hnone a' hbefore)
    rw [hempty] at hmem
    exact absurd hmem List.not_mem_nil
  · rcases List.mem_cons.mp hrest with rfl | hafter
    · exact Or.inl rfl
    · exact Or.inr ((List.pairwise_cons.mp (List.pairwise_append.mp hl).2.1).1 a' hafter)

/-! ## Greedy runs of one character class -/

def plusSuffixes (p : α → Bool) : List α → List (List α)
  | [] => []
  | c :: cs => if p c then plusSuffixes p cs ++ [cs] else []

def plus (p : α → Bool) : Expr α ν := .greedy 1 0 (.char p)

theorem step_char_cons (n : ℕ) (p : α → Bool) (c : α) (cs : List α) (caps : List (ℕ × List α)) :
    step (results n (.char p : Expr α ν)) ⟨c :: cs, caps⟩ =
      if p c then some ⟨cs, caps⟩ else none := by
  by_cases h : p c <;> simp [step, results, h, Consumed]

theorem greedyResults_char (n : ℕ) (p : α → Bool) (i : ℕ) (cs : List α)
    (caps : List (ℕ × List α)) :
    greedyResults (step (results n (.char p : Expr α ν))) 0 cs.length i ⟨cs, caps⟩ =
      (plusSuffixes p cs ++ [cs]).map (⟨·, caps⟩) := by
  induction cs generalizing i with
  | nil => rfl
  | cons c cs ih =>
    simp only [List.length_cons, greedyResults, below, decide_true, Bool.true_or, if_true,
      step_char_cons, plusSuffixes]
    by_cases h : p c
    · simp [h, ih]
    · simp [h]

theorem results_greedy (n lo hi : ℕ) (r : Expr α ν) (s : State α) :
    results n (.greedy lo hi r) s = (atLeast (step (results n r)) lo s).elim [] fun t =>
      greedyResults (step (results n r)) hi t.rest.length lo t := rfl

theorem results_plus (n : ℕ) (p : α → Bool) (s : State α) :
    results n (plus p : Expr α ν) s = (plusSuffixes p s.rest).map (⟨·, s.caps⟩) := by
  obtain ⟨rest, caps⟩ := s
  cases rest with
  | nil => rfl
  | cons c cs =>
    simp only [plus, results_greedy, atLeast, step_char_cons]
    by_cases h : p c
    · have hloop := @greedyResults_char α ν n p 1 cs caps
      simpa [h, plusSuffixes] using hloop
    · simp [h, plusSuffixes]

theorem mem_plusSuffixes {p : α → Bool} {cs t : List α} :
    t ∈ plusSuffixes p cs ↔ ∃ v, v ≠ [] ∧ (∀ c ∈ v, p c) ∧ cs = v ++ t := by
  induction cs with
  | nil =>
    simp only [plusSuffixes, List.not_mem_nil, false_iff, not_exists, not_and]
    intro v hv _ h
    exact hv (List.append_eq_nil_iff.mp h.symm).1
  | cons c cs ih =>
    simp only [plusSuffixes]
    constructor
    · intro h
      split_ifs at h with hc
      · rcases List.mem_append.mp h with h | h
        · obtain ⟨v, -, hv, rfl⟩ := ih.mp h
          exact ⟨c :: v, by simp, by simpa [hc] using hv, rfl⟩
        · rw [List.mem_singleton] at h
          exact ⟨[c], by simp, by simpa using hc, by simp [h]⟩
      · simp at h
    · intro h
      obtain ⟨v, hv, hp, h⟩ := h
      obtain ⟨d, v, rfl⟩ := List.exists_cons_of_ne_nil hv
      obtain ⟨rfl, rfl⟩ := List.cons_eq_cons.mp h
      rw [if_pos (hp _ (by simp)), List.mem_append, List.mem_singleton]
      by_cases hv : v = []
      · simp [hv]
      · exact Or.inl (ih.mpr ⟨v, hv, fun c hc => hp c (by simp [hc]), rfl⟩)

theorem plusSuffixes_length_lt {p : α → Bool} {cs t : List α} (h : t ∈ plusSuffixes p cs) :
    t.length < cs.length := by
  obtain ⟨v, hv, -, rfl⟩ := mem_plusSuffixes.mp h
  have := List.length_pos_iff.mpr hv
  simp only [List.length_append]
  omega

theorem plusSuffixes_sorted (p : α → Bool) (cs : List α) :
    (plusSuffixes p cs).Pairwise (fun t u => t.length < u.length) := by
  induction cs with
  | nil => simp [plusSuffixes]
  | cons c cs ih =>
    simp only [plusSuffixes]
    split_ifs
    · rw [List.pairwise_append]
      refine ⟨ih, List.pairwise_singleton _ _, fun t ht u hu => ?_⟩
      rw [List.mem_singleton.mp hu]
      exact plusSuffixes_length_lt ht
    · simp

theorem plusSuffixes_head? (p : α → Bool) (cs : List α) :
    (plusSuffixes p cs).head? =
      if cs.takeWhile p = [] then none else some (cs.dropWhile p) := by
  induction cs with
  | nil => rfl
  | cons c cs ih =>
    simp only [plusSuffixes]
    by_cases h : p c
    · simp only [h, if_true, List.head?_append, ih, List.takeWhile_cons_of_pos,
        List.dropWhile_cons_of_pos]
      by_cases ht : cs.takeWhile p = []
      · have hd : cs.dropWhile p = cs := by
          simpa [ht] using List.takeWhile_append_dropWhile (p := p) (l := cs)
        simp [ht, hd]
      · simp [ht]
    · simp [h]

end Regex
