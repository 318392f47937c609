import Mathlib.Computability.Language
import V60.RegexSemantics

/-!
# Rows of repetitions

A row is an expression without alternatives: classes of characters, greedy and
possessive repetitions of them, marks of the end, and groups around any of
these. A matcher that backtracks finds the first match in its own order; for a
row the first is the longest that the row can read (`startsWith_row`), so that
nothing is lost by stopping there.
-/

namespace Regex

open scoped Computability

variable {α ν : Type*}

/-! ## Repetitions of one step -/

theorem Iterated.split {σ : Type*} {R : σ → σ → Prop} {j k : ℕ} {s u : σ}
    (h : Iterated R (j + k) s u) : ∃ t, Iterated R j s t ∧ Iterated R k t u := by
  induction j generalizing s with
  | zero => exact ⟨s, rfl, by rwa [Nat.zero_add] at h⟩
  | succ j ih =>
    rw [Nat.add_right_comm] at h
    obtain ⟨v, hv, hrest⟩ := h
    obtain ⟨t, hj, hk⟩ := ih hrest
    exact ⟨t, ⟨v, hv, hj⟩, hk⟩

section Steps

variable {once : Cont α}

theorem atLeast_eq_some {k : ℕ} {s t : State α} :
    atLeast once k s = some t ↔ Iterated (fun s t => once s = some t) k s t := by
  induction k generalizing s with
  | zero => exact Option.some_inj
  | succ k ih =>
    rw [atLeast, Option.bind_eq_some_iff]
    exact exists_congr fun u => and_congr_right fun _ => ih

theorem below_of_add {hi i k : ℕ} (hk : k + 1 = 0 ∨ hi = 0 ∨ i + (k + 1) ≤ hi) :
    below hi i = true ∧ (k = 0 ∨ hi = 0 ∨ i + 1 + k ≤ hi) := by
  rw [below, Bool.or_eq_true, decide_eq_true_eq, decide_eq_true_eq]
  omega

theorem mem_greedyResults {hi fuel i k : ℕ} {s t : State α}
    (h : Iterated (fun s t => once s = some t) k s t) (hk : k = 0 ∨ hi = 0 ∨ i + k ≤ hi)
    (hfuel : k ≤ fuel) : t ∈ greedyResults once hi fuel i s := by
  induction k generalizing fuel i s with
  | zero =>
    have heq : s = t := h
    subst heq
    cases fuel <;> simp [greedyResults]
  | succ k ih =>
    obtain ⟨u, hu, hrest⟩ := h
    obtain ⟨fuel, rfl⟩ : ∃ f, fuel = f + 1 := ⟨fuel - 1, by omega⟩
    obtain ⟨hbelow, hk⟩ := below_of_add hk
    rw [greedyResults, if_pos hbelow, hu]
    exact List.mem_append_left _ (ih hrest hk (by omega))

variable (hconsumed : ∀ {s t}, once s = some t → Consumed s t)
include hconsumed

theorem iterated_length {k : ℕ} {s t : State α}
    (h : Iterated (fun s t => once s = some t) k s t) : k + t.rest.length ≤ s.rest.length := by
  induction k generalizing s with
  | zero =>
    have heq : s = t := h
    rw [heq, Nat.zero_add]
  | succ k ih =>
    obtain ⟨u, hu, hrest⟩ := h
    have hlen := ih hrest
    have hlt : u.rest.length < s.rest.length := hconsumed hu
    omega

theorem greedyResults_sorted (hi fuel i : ℕ) (s : State α) :
    (greedyResults once hi fuel i s).Pairwise fun t t' => t.rest.length < t'.rest.length := by
  induction fuel generalizing i s with
  | zero => exact List.pairwise_singleton _ _
  | succ fuel ih =>
    rw [greedyResults, List.pairwise_append]
    split_ifs with hbelow
    · cases hs : once s with
      | none => simp
      | some u =>
        refine ⟨ih (i + 1) u, List.pairwise_singleton _ _, ?_⟩
        intro t ht t' ht'
        rw [List.mem_singleton.mp ht']
        obtain ⟨k, -, hiter⟩ := greedyResults_steps (fun h => h) ht
        have hlen := iterated_length hconsumed hiter
        have hlt : u.rest.length < s.rest.length := hconsumed hs
        omega
    · simp

/-- A loop that gives nothing back stops where no step is left or no other is allowed. -/
theorem possessiveLoop_stops (hi i : ℕ) {fuel : ℕ} {s : State α} (hfuel : s.rest.length ≤ fuel) :
    ∃ k, Iterated (fun s t => once s = some t) k s (possessiveLoop once hi fuel i s) ∧
      (k = 0 ∨ hi = 0 ∨ i + k ≤ hi) ∧
      (once (possessiveLoop once hi fuel i s) = none ∨ hi ≠ 0 ∧ hi ≤ i + k) := by
  induction fuel generalizing i s with
  | zero =>
    refine ⟨0, rfl, Or.inl rfl, Or.inl ?_⟩
    cases hs : once s with
    | none => exact hs
    | some u =>
      have hlt : u.rest.length < s.rest.length := hconsumed hs
      omega
  | succ fuel ih =>
    rw [possessiveLoop]
    split_ifs with hbelow
    · cases hs : once s with
      | none => exact ⟨0, rfl, Or.inl rfl, Or.inl hs⟩
      | some u =>
        have hlt : u.rest.length < s.rest.length := hconsumed hs
        obtain ⟨k, hiter, hk, hstop⟩ := ih (i + 1) (s := u) (by omega)
        refine ⟨k + 1, ⟨u, hs, hiter⟩, below_add hbelow hk, hstop.imp_right ?_⟩
        omega
    · refine ⟨0, rfl, Or.inl rfl, Or.inr ?_⟩
      rw [below, Bool.or_eq_true, decide_eq_true_eq, decide_eq_true_eq] at hbelow
      omega

end Steps

/-! ## What a row reads -/

inductive Piece (α : Type*) where
  | greedy (lo hi : ℕ) (p : α → Bool)
  | possessive (lo hi : ℕ) (p : α → Bool)
  | atEnd

/-- A text that `repeat lo hi` of one class can read. -/
structure Taken (lo hi : ℕ) (p : α → Bool) (v : List α) : Prop where
  run : ∀ c ∈ v, p c = true
  allowed : Allowed lo hi v.length

/-- What a piece can leave of a text. -/
def Piece.Splits : Piece α → List α → List α → Prop
  | .greedy lo hi p, w, u => ∃ v, w = v ++ u ∧ Taken lo hi p v
  | .possessive lo hi p, w, u =>
    ∃ v, w = v ++ u ∧ Taken lo hi p v ∧ ∀ c ∈ u.head?, ¬Taken lo hi p (v ++ [c])
  | .atEnd, w, u => w = [] ∧ u = []

def Reads : List (Piece α) → List α → List α → Prop
  | [], w, r => w = r
  | piece :: pieces, w, r => ∃ u, piece.Splits w u ∧ Reads pieces u r

/-- Nothing that the row can leave is shorter. -/
structure Longest (pieces : List (Piece α)) (w r : List α) : Prop where
  reads : Reads pieces w r
  least : ∀ r', Reads pieces w r' → r.length ≤ r'.length

section Reads

variable {piece : Piece α} {pieces : List (Piece α)} {w w' u u' r r' : List α}

theorem Piece.Splits.suffix (h : piece.Splits w u) : u <:+ w := by
  cases piece with
  | greedy lo hi p =>
    obtain ⟨v, rfl, -⟩ := h
    exact List.suffix_append v u
  | possessive lo hi p =>
    obtain ⟨v, rfl, -, -⟩ := h
    exact List.suffix_append v u
  | atEnd =>
    obtain ⟨rfl, rfl⟩ := h
    exact List.suffix_refl _

theorem Reads.suffix (h : Reads pieces w r) : r <:+ w := by
  induction pieces generalizing w with
  | nil =>
    have heq : w = r := h
    exact heq ▸ List.suffix_refl _
  | cons piece pieces ih =>
    obtain ⟨u, hsplits, hrest⟩ := h
    exact (ih hrest).trans hsplits.suffix

theorem Longest.unique (h : Longest pieces w r) (h' : Longest pieces w r') : r = r' := by
  have hlen : r.length = r'.length := le_antisymm (h.least r' h'.reads) (h'.least r h.reads)
  exact (List.suffix_of_suffix_length_le h.reads.suffix h'.reads.suffix hlen.le).eq_of_length hlen

theorem Longest.nil_iff : Longest pieces w [] ↔ Reads pieces w [] :=
  ⟨Longest.reads, fun h => ⟨h, fun _ _ => Nat.zero_le _⟩⟩

theorem reads_append {ps qs : List (Piece α)} :
    Reads (ps ++ qs) w r ↔ ∃ u, Reads ps w u ∧ Reads qs u r := by
  induction ps generalizing w with
  | nil => simp [Reads]
  | cons piece ps ih =>
    rw [List.cons_append, Reads, exists_congr fun u => and_congr_right fun _ => ih]
    constructor
    · intro h
      obtain ⟨u, hsplits, v, hps, hqs⟩ := h
      exact ⟨v, ⟨u, hsplits, hps⟩, hqs⟩
    · intro h
      obtain ⟨v, ⟨u, hsplits, hps⟩, hqs⟩ := h
      exact ⟨u, hsplits, v, hps, hqs⟩

theorem longest_congr {ps qs : List (Piece α)} (h : ∀ w r, Reads ps w r ↔ Reads qs w r) :
    Longest ps w r ↔ Longest qs w r := by
  constructor
  · intro hps
    exact ⟨(h w r).mp hps.reads, fun r' hr' => hps.least r' ((h w r').mpr hr')⟩
  · intro hqs
    exact ⟨(h w r).mpr hqs.reads, fun r' hr' => hqs.least r' ((h w r').mp hr')⟩

theorem Taken.between {lo hi : ℕ} {p : α → Bool} {v x v' : List α} (h : Taken lo hi p v)
    (h' : Taken lo hi p v') (hx : v ++ x <:+ v') : Taken lo hi p (v ++ x) := by
  refine ⟨fun c hc => h'.run c (hx.subset hc), ?_, ?_⟩
  · exact h.allowed.1.trans (by simp)
  · exact h'.allowed.2.imp_right hx.length_le.trans

theorem Piece.Splits.between (hsuffix : w <:+ w') {y v v' : List α} (hw : w = v ++ (y ++ u'))
    (hw' : w' = v' ++ u') {lo hi : ℕ} {p : α → Bool} (h : Taken lo hi p v)
    (h' : Taken lo hi p v') : Taken lo hi p (v ++ y) := by
  rw [hw, hw', ← List.append_assoc] at hsuffix
  exact h.between h' (List.suffix_append_self_iff.mp hsuffix)

/-- The bound of two repetitions in a row. -/
def sumBound (hi hi' : ℕ) : ℕ := if hi ≠ 0 ∧ hi' ≠ 0 then hi + hi' else 0

theorem sumBound_comm (hi hi' : ℕ) : sumBound hi hi' = sumBound hi' hi := by
  simp only [sumBound, and_comm, Nat.add_comm]

theorem allowed_add {lo hi lo' hi' n : ℕ} (hbound : hi = 0 ∨ lo ≤ hi)
    (hbound' : hi' = 0 ∨ lo' ≤ hi') (h : Allowed (lo + lo') (sumBound hi hi') n) :
    ∃ i j, n = i + j ∧ Allowed lo hi i ∧ Allowed lo' hi' j := by
  obtain ⟨hlo, hhi⟩ := h
  rw [sumBound] at hhi
  by_cases hfree : hi = 0
  · exact ⟨n - lo', lo', by omega, ⟨by omega, Or.inl hfree⟩, ⟨le_rfl, by omega⟩⟩
  · by_cases hfree' : hi' = 0
    · exact ⟨lo, n - lo, by omega, ⟨le_rfl, by omega⟩, ⟨by omega, Or.inl hfree'⟩⟩
    · rw [if_pos ⟨hfree, hfree'⟩] at hhi
      -- as much as the first can take while the second still has its least
      exact ⟨min hi (n - lo'), n - min hi (n - lo'), by omega, ⟨by omega, by omega⟩,
        ⟨by omega, by omega⟩⟩

theorem Taken.append {lo hi lo' hi' : ℕ} {p : α → Bool} {v v' : List α} (h : Taken lo hi p v)
    (h' : Taken lo' hi' p v') (hbound : hi = 0 ∨ lo ≤ hi) (hbound' : hi' = 0 ∨ lo' ≤ hi') :
    Taken (lo + lo') (sumBound hi hi') p (v ++ v') := by
  obtain ⟨hlo, hhi⟩ := h.allowed
  obtain ⟨hlo', hhi'⟩ := h'.allowed
  refine ⟨fun c hc => ?_, ?_⟩
  · exact (List.mem_append.mp hc).elim (h.run c) (h'.run c)
  · rw [List.length_append]
    refine ⟨by omega, ?_⟩
    rw [sumBound]
    split_ifs <;> omega

/-- Two greedy repetitions of one class in a row read what one with the sums of their bounds
reads. -/
theorem reads_greedy_add {lo hi lo' hi' : ℕ} {p : α → Bool} (hbound : hi = 0 ∨ lo ≤ hi)
    (hbound' : hi' = 0 ∨ lo' ≤ hi') :
    Reads [.greedy (lo + lo') (sumBound hi hi') p] w r ↔
      Reads [.greedy lo hi p, .greedy lo' hi' p] w r := by
  constructor
  · intro h
    obtain ⟨_, ⟨v, rfl, htaken⟩, rfl⟩ := h
    obtain ⟨i, j, hlen, hi, hj⟩ := allowed_add hbound hbound' htaken.allowed
    have hcut : v = v.take i ++ v.drop i := (List.take_append_drop i v).symm
    have hrun : ∀ c ∈ v, p c = true := htaken.run
    refine ⟨v.drop i ++ _, ⟨v.take i, ?_, fun c hc => hrun c (List.mem_of_mem_take hc), ?_⟩, _,
      ⟨v.drop i, rfl, fun c hc => hrun c (List.mem_of_mem_drop hc), ?_⟩, rfl⟩
    · rw [← List.append_assoc, ← hcut]
    · rwa [List.length_take, min_eq_left (by omega)]
    · rwa [List.length_drop, hlen, Nat.add_sub_cancel_left]
  · intro h
    obtain ⟨_, ⟨v, rfl, htaken⟩, _, ⟨v', rfl, htaken'⟩, rfl⟩ := h
    refine ⟨_, ⟨v ++ v', ?_, htaken.append htaken' hbound hbound'⟩, rfl⟩
    rw [List.append_assoc]

/-- A possessive repetition gets as far as one that started further back. -/
theorem Piece.Splits.possessive_le {lo hi : ℕ} {p : α → Bool} (hsuffix : w <:+ w')
    (h : (Piece.possessive lo hi p).Splits w u) (h' : (Piece.possessive lo hi p).Splits w' u') :
    u.length ≤ u'.length := by
  by_contra hlt
  obtain ⟨y, rfl⟩ : u' <:+ u := List.suffix_of_suffix_length_le h'.suffix
    (h.suffix.trans hsuffix) (by omega)
  obtain ⟨v, hw, htaken, hfull⟩ := h
  obtain ⟨v', hw', htaken', -⟩ := h'
  cases y with
  | nil => simp at hlt
  | cons c y =>
    have hy := Piece.Splits.between hsuffix hw hw' htaken htaken'
    apply hfull c rfl
    rw [List.append_cons] at hy
    refine ⟨fun d hd => hy.run d (List.mem_append_left _ hd), ?_, ?_⟩
    · exact htaken.allowed.1.trans (by simp)
    · exact hy.allowed.2.imp_right (le_trans (by simp))

theorem Piece.Splits.possessive_unique {lo hi : ℕ} {p : α → Bool}
    (h : (Piece.possessive lo hi p).Splits w u) (h' : (Piece.possessive lo hi p).Splits w u') :
    u = u' := by
  have hlen : u.length = u'.length := le_antisymm (h.possessive_le (List.suffix_refl _) h')
    (h'.possessive_le (List.suffix_refl _) h)
  exact (List.suffix_of_suffix_length_le h.suffix h'.suffix hlen.le).eq_of_length hlen

/-- A text that was read on from further back can be read from here. -/
theorem Piece.Splits.overtake (hsuffix : w <:+ w') (h : piece.Splits w u)
    (h' : piece.Splits w' u') (hlt : u'.length < u.length) : piece.Splits w u' := by
  cases piece with
  | greedy lo hi p =>
    obtain ⟨y, rfl⟩ : u' <:+ u := List.suffix_of_suffix_length_le h'.suffix
      (h.suffix.trans hsuffix) hlt.le
    obtain ⟨v, hw, htaken⟩ := h
    obtain ⟨v', hw', htaken'⟩ := h'
    refine ⟨v ++ y, ?_, Piece.Splits.between hsuffix hw hw' htaken htaken'⟩
    rw [hw, List.append_assoc]
  | possessive lo hi p => exact absurd hlt (not_lt.mpr (h.possessive_le hsuffix h'))
  | atEnd =>
    obtain ⟨-, hu⟩ := h
    rw [hu] at hlt
    exact absurd hlt (Nat.not_lt_zero _)

end Reads

/-! ## The first match of a row -/

/-- The results of an expression are what a piece leaves, the shortest first. -/
structure Spells (r : Expr α ν) (piece : Piece α) : Prop where
  mem : ∀ (n : ℕ) (s : State α) (u : List α),
    (∃ t ∈ results n r s, t.rest = u) ↔ piece.Splits s.rest u
  sorted : ∀ (n : ℕ) (s : State α),
    (results n r s).Pairwise fun t t' => t.rest.length < t'.rest.length

section Row

variable {rs : List (Expr α ν)} {pieces : List (Piece α)}

theorem exists_results_row (h : List.Forall₂ Spells rs pieces) (n : ℕ) (s : State α)
    (r : List α) :
    (∃ t ∈ results n (seqAll rs) s, t.rest = r) ↔ Reads pieces s.rest r := by
  induction h generalizing s with
  | nil => simp [seqAll, results, Reads]
  | @cons e piece rs pieces hspells h ih =>
    rw [results_seqAll_cons]
    constructor
    · intro hmem
      obtain ⟨t, ht, hrest⟩ := hmem
      obtain ⟨u, hu, ht⟩ := List.mem_flatMap.mp ht
      exact ⟨u.rest, (hspells.mem n s u.rest).mp ⟨u, hu, rfl⟩, (ih u).mp ⟨t, ht, hrest⟩⟩
    · intro hreads
      obtain ⟨u, hsplits, hreads⟩ := hreads
      obtain ⟨t, ht, rfl⟩ := (hspells.mem n s u).mpr hsplits
      obtain ⟨t', ht', hrest⟩ := (ih t).mpr hreads
      exact ⟨t', List.mem_flatMap.mpr ⟨t, ht, ht'⟩, hrest⟩

/-- The first match leaves no more than any that starts here or further back: where the other one
gets ahead, the first would have gone on as far. -/
theorem head_results_row (h : List.Forall₂ Spells rs pieces) {n : ℕ} {s t : State α}
    {w r : List α} (hfirst : (results n (seqAll rs) s).head? = some t) (hsuffix : s.rest <:+ w)
    (hreads : Reads pieces w r) : t.rest.length ≤ r.length := by
  induction h generalizing s w with
  | nil =>
    obtain rfl : s = t := by simpa [seqAll, results] using hfirst
    have heq : w = r := hreads
    exact heq ▸ hsuffix.length_le
  | @cons e piece rs pieces hspells h ih =>
    rw [results_seqAll_cons, List.head?_flatMap, List.findSome?_eq_some_iff] at hfirst
    obtain ⟨before, a, after, hlist, ha, hnone⟩ := hfirst
    obtain ⟨u, hu, hreads⟩ := hreads
    have hsplits : piece.Splits s.rest a.rest :=
      (hspells.mem n s a.rest).mp ⟨a, by simp [hlist], rfl⟩
    by_cases hlt : u.length < a.rest.length
    · obtain ⟨b, hb, rfl⟩ := (hspells.mem n s u).mpr (hsplits.overtake hsuffix hu hlt)
      obtain ⟨b', hb', -⟩ := (exists_results_row h n b r).mpr hreads
      have hsorted := hspells.sorted n s
      rw [hlist] at hb hsorted
      rcases List.mem_append.mp hb with hbefore | hrest
      · have hempty := List.head?_eq_none_iff.mp (hnone b hbefore)
        rw [hempty] at hb'
        exact absurd hb' List.not_mem_nil
      · rcases List.mem_cons.mp hrest with rfl | hafter
        · exact absurd hlt (lt_irrefl _)
        · have hlater := (List.pairwise_append.mp hsorted).2.1
          have hgt := (List.pairwise_cons.mp hlater).1 b hafter
          omega
    · apply ih ha _ hreads
      exact List.suffix_of_suffix_length_le (hsplits.suffix.trans hsuffix) hu.suffix (by omega)

/-- A row matches what it can read, and leaves as little as it can. -/
theorem startsWith_row (h : List.Forall₂ Spells rs pieces) (input r : List α) :
    (∃ t, startsWith (seqAll rs) input = some t ∧ t.rest = r) ↔ Longest pieces input r := by
  rw [startsWith_eq]
  have hlongest : ∀ {t}, (results input.length (seqAll rs) (start input)).head? = some t →
      Longest pieces input t.rest := by
    intro t ht
    refine ⟨?_, fun r' => head_results_row h ht (List.suffix_refl _)⟩
    exact (exists_results_row h _ (start input) _).mp ⟨t, List.mem_of_head? ht, rfl⟩
  constructor
  · intro hfirst
    obtain ⟨t, ht, rfl⟩ := hfirst
    exact hlongest ht
  · intro hr
    obtain ⟨t, ht, -⟩ := (exists_results_row h _ (start input) r).mpr hr.reads
    cases hfirst : (results input.length (seqAll rs) (start input)).head? with
    | none =>
      rw [List.head?_eq_none_iff.mp hfirst] at ht
      exact absurd ht List.not_mem_nil
    | some t' => exact ⟨t', rfl, (hlongest hfirst).unique hr⟩

end Row

/-! ## Parts of a row -/

section Parts

variable {n : ℕ} {p : α → Bool}

theorem iterated_char {k : ℕ} {s t : State α} :
    Iterated (fun s t => step (results n (.char p : Expr α ν)) s = some t) k s t ↔
      ∃ v, v.length = k ∧ s.rest = v ++ t.rest ∧ (∀ c ∈ v, p c = true) ∧ s.caps = t.caps := by
  induction k generalizing s with
  | zero =>
    constructor
    · intro h
      have heq : s = t := h
      exact ⟨[], rfl, by rw [heq, List.nil_append], by simp, by rw [heq]⟩
    · intro h
      obtain ⟨v, hv, hrest, -, hcaps⟩ := h
      rw [List.length_eq_zero_iff.mp hv, List.nil_append] at hrest
      obtain ⟨rest, caps⟩ := s
      obtain rfl : rest = t.rest := hrest
      obtain rfl : caps = t.caps := hcaps
      rfl
  | succ k ih =>
    constructor
    · intro h
      obtain ⟨u, hu, hiter⟩ := h
      obtain ⟨v, hv, hrest, hrun, hcaps⟩ := ih.mp hiter
      obtain ⟨c, hc, hcons, hsame⟩ : Derives n (.char p : Expr α ν) s u :=
        derives_of_results (of_step hu).1
      refine ⟨c :: v, by simp [hv], by simp [hcons, hrest], ?_, hsame.trans hcaps⟩
      exact List.forall_mem_cons.mpr ⟨hc, hrun⟩
    · intro h
      obtain ⟨v, hv, hrest, hrun, hcaps⟩ := h
      obtain ⟨c, v, rfl⟩ := List.exists_cons_of_length_eq_add_one hv
      obtain ⟨hc, hrun⟩ := List.forall_mem_cons.mp hrun
      refine ⟨⟨v ++ t.rest, s.caps⟩, ?_, ih.mpr ⟨v, by simpa using hv, rfl, hrun, hcaps⟩⟩
      obtain ⟨rest, caps⟩ := s
      obtain rfl : rest = c :: (v ++ t.rest) := hrest
      rw [step_char_cons, if_pos hc]

theorem step_consumed {f : State α → List (State α)} {s t : State α} (h : step f s = some t) :
    Consumed s t := (of_step h).2

theorem taken_of_iterated {lo hi k : ℕ} {s t : State α} (hk : Allowed lo hi k)
    (h : Iterated (fun s t => step (results n (.char p : Expr α ν)) s = some t) k s t) :
    ∃ v, v.length = k ∧ s.rest = v ++ t.rest ∧ Taken lo hi p v := by
  obtain ⟨v, rfl, hrest, hrun, -⟩ := iterated_char.mp h
  exact ⟨v, rfl, hrest, hrun, hk⟩

/-- The steps that `repeat lo hi` has to take, and then the others. -/
theorem Taken.iterated {lo hi : ℕ} {s t : State α} {v : List α} (h : Taken lo hi p v)
    (hrest : s.rest = v ++ t.rest) (hcaps : s.caps = t.caps) :
    ∃ k u, atLeast (step (results n (.char p : Expr α ν))) lo s = some u ∧
      Iterated (fun s t => step (results n (.char p : Expr α ν)) s = some t) k u t ∧
      (k = 0 ∨ hi = 0 ∨ lo + k ≤ hi) := by
  obtain ⟨hlo, hhi⟩ := h.allowed
  obtain ⟨k, hk⟩ := Nat.exists_eq_add_of_le hlo
  obtain ⟨u, hleast, hmore⟩ := (iterated_char.mpr ⟨v, hk, hrest, h.run, hcaps⟩).split
  exact ⟨k, u, atLeast_eq_some.mpr hleast, hmore, by omega⟩

theorem taken_one {v : List α} : Taken 1 1 p v ↔ ∃ c, p c = true ∧ v = [c] := by
  constructor
  · intro h
    obtain ⟨hlo, hhi⟩ := h.allowed
    obtain ⟨c, rfl⟩ := List.length_eq_one_iff.mp (by omega : v.length = 1)
    exact ⟨c, h.run c List.mem_cons_self, rfl⟩
  · intro h
    obtain ⟨c, hc, rfl⟩ := h
    exact ⟨by simpa using hc, le_rfl, Or.inr le_rfl⟩

end Parts

section Spells

variable (p : α → Bool)

theorem spells_char : Spells (.char p : Expr α ν) (.greedy 1 1 p) where
  mem n s u := by
    constructor
    · intro h
      obtain ⟨t, ht, rfl⟩ := h
      obtain ⟨c, hc, hrest, -⟩ : Derives n (.char p : Expr α ν) s t := derives_of_results ht
      exact ⟨[c], hrest, taken_one.mpr ⟨c, hc, rfl⟩⟩
    · intro h
      obtain ⟨v, hrest, htaken⟩ := h
      obtain ⟨c, hc, rfl⟩ := taken_one.mp htaken
      exact ⟨⟨u, s.caps⟩, by simp [results, hrest, hc], rfl⟩
  sorted n s := by
    rw [results]
    split
    · exact .nil
    · split_ifs <;> simp

theorem spells_greedy (lo hi : ℕ) :
    Spells (.greedy lo hi (.char p) : Expr α ν) (.greedy lo hi p) where
  mem n s u := by
    rw [results_greedy]
    constructor
    · intro h
      obtain ⟨t, ht, rfl⟩ := h
      cases hlo : atLeast (step (results n (.char p : Expr α ν))) lo s with
      | none => simp [hlo] at ht
      | some u =>
        rw [hlo, Option.elim_some] at ht
        obtain ⟨k, hk, hiter⟩ := repeat_iterated (fun h => h) hlo
          (greedyResults_steps (fun h => h) ht)
        obtain ⟨v, -, hrest, htaken⟩ := taken_of_iterated hk hiter
        exact ⟨v, hrest, htaken⟩
    · intro h
      obtain ⟨v, hrest, htaken⟩ := h
      obtain ⟨k, s', hlo, hiter, hk⟩ := htaken.iterated (n := n) (ν := ν) (t := ⟨u, s.caps⟩)
        hrest rfl
      have hlen := iterated_length step_consumed hiter
      refine ⟨⟨u, s.caps⟩, ?_, rfl⟩
      rw [hlo, Option.elim_some]
      exact mem_greedyResults hiter hk (by omega)
  sorted n s := by
    rw [results_greedy]
    cases atLeast (step (results n (.char p : Expr α ν))) lo s with
    | none => exact .nil
    | some u => exact greedyResults_sorted step_consumed _ _ _ _

/-- What is left after a possessive repetition cannot be read on. -/
theorem possessiveLoop_splits {lo n : ℕ} (hi : ℕ) {s u : State α}
    (hlo : atLeast (step (results n (.char p : Expr α ν))) lo s = some u) :
    (Piece.possessive lo hi p).Splits s.rest
      (possessiveLoop (step (results n (.char p : Expr α ν))) hi u.rest.length lo u).rest := by
  obtain ⟨k, hiter, hk, hstop⟩ := possessiveLoop_stops
    (step_consumed (f := results n (.char p : Expr α ν))) hi lo (s := u) le_rfl
  generalize possessiveLoop (step (results n (.char p : Expr α ν))) hi u.rest.length lo u = t
    at hiter hstop ⊢
  have hallowed : Allowed lo hi (lo + k) := ⟨Nat.le_add_right lo k, by omega⟩
  obtain ⟨v, hv, hrest, htaken⟩ :=
    taken_of_iterated hallowed ((atLeast_eq_some.mp hlo).append hiter)
  refine ⟨v, hrest, htaken, ?_⟩
  intro c hc hmore
  rcases hstop with hnone | hfull
  · obtain ⟨rest, caps⟩ := t
    obtain ⟨cs, rfl⟩ := List.head?_eq_some_iff.mp hc
    rw [step_char_cons, if_pos (hmore.run c (by simp))] at hnone
    cases hnone
  · have hlen := hmore.allowed.2
    rw [List.length_append, List.length_singleton, hv] at hlen
    omega

theorem spells_possessive (lo hi : ℕ) :
    Spells (.possessive lo hi (.char p) : Expr α ν) (.possessive lo hi p) where
  mem n s u := by
    rw [results]
    constructor
    · intro h
      obtain ⟨t, ht, rfl⟩ := h
      cases hlo : atLeast (step (results n (.char p : Expr α ν))) lo s with
      | none => simp [hlo] at ht
      | some u =>
        rw [hlo, Option.elim_some] at ht
        obtain rfl := List.mem_singleton.mp ht
        exact possessiveLoop_splits p hi hlo
    · intro h
      obtain ⟨v, hrest, htaken, hfull⟩ := h
      obtain ⟨k, s', hlo, -, -⟩ := htaken.iterated (n := n) (ν := ν) (t := ⟨u, s.caps⟩)
        hrest rfl
      have hsplits := possessiveLoop_splits p hi hlo
      rw [hlo, Option.elim_some]
      refine ⟨_, List.mem_singleton_self _, ?_⟩
      exact hsplits.possessive_unique ⟨v, hrest, htaken, hfull⟩
  sorted n s := by
    rw [results]
    cases atLeast (step (results n (.char p : Expr α ν))) lo s with
    | none => exact .nil
    | some u => exact List.pairwise_singleton _ _

theorem spells_atEnd : Spells (.atEnd : Expr α ν) .atEnd where
  mem n s u := by
    rw [results]
    split_ifs with hrest
    · simp [Piece.Splits, hrest, eq_comm]
    · simp [Piece.Splits, hrest]
  sorted n s := by
    rw [results]
    split_ifs <;> simp

variable {p}

theorem Spells.capture {r : Expr α ν} {piece : Piece α} (h : Spells r piece) (id : ℕ)
    (name : Option ν) : Spells (.capture id name r) piece where
  mem n s u := by
    rw [results, ← h.mem n s u]
    simp [State.record]
  sorted n s := by
    rw [results, List.pairwise_map]
    exact h.sorted n s

end Spells

/-! ## Rows as languages -/

section Languages

def chars (p : α → Bool) : Language α := {w | ∃ c, p c = true ∧ w = [c]}

/-- All characters of the class from the start on, and then a word of the language. -/
def allThen (p : α → Bool) (L : Language α) : Language α := {w | w.dropWhile p ∈ L}

/-- The end of the text, and then a word of the language, which is empty. -/
def endThen (L : Language α) : Language α := {w | w = [] ∧ w ∈ L}

def words (lo hi : ℕ) (p : α → Bool) : Language α := {v | Taken lo hi p v}

variable {p : α → Bool} {w u : List α}

theorem words_one : words 1 1 p = chars p := Set.ext fun _ => taken_one

theorem words_star : words 0 0 p = (chars p)∗ := by
  ext w
  constructor
  · intro h
    have hjoin : (w.map fun c => [c]).flatten = w := List.flatMap_singleton' w
    rw [← hjoin]
    apply Language.join_mem_kstar
    intro y hy
    obtain ⟨c, hc, rfl⟩ := List.mem_map.mp hy
    exact ⟨c, Taken.run h c hc, rfl⟩
  · intro h
    obtain ⟨parts, rfl, hparts⟩ := Language.mem_kstar.mp h
    refine ⟨fun c hc => ?_, Nat.zero_le _, Or.inl rfl⟩
    obtain ⟨part, hpart, hmem⟩ := List.mem_flatten.mp hc
    obtain ⟨d, hd, rfl⟩ := hparts part hpart
    obtain rfl := List.mem_singleton.mp hmem
    exact hd

theorem words_plus : words 1 0 p = chars p * (chars p)∗ := by
  rw [← words_star]
  ext w
  rw [Language.mem_mul]
  constructor
  · intro h
    obtain ⟨hrun, hlo, -⟩ := h
    obtain ⟨c, cs, rfl⟩ := List.exists_cons_of_length_pos hlo
    obtain ⟨hc, hrun⟩ := List.forall_mem_cons.mp hrun
    exact ⟨[c], ⟨c, hc, rfl⟩, cs, ⟨hrun, Nat.zero_le _, Or.inl rfl⟩, rfl⟩
  · intro h
    obtain ⟨_, ⟨c, hc, rfl⟩, cs, htaken, rfl⟩ := h
    exact ⟨List.forall_mem_cons.mpr ⟨hc, Taken.run htaken⟩, Nat.succ_pos _, Or.inl rfl⟩

theorem words_optional : words 0 1 p = 1 + chars p := by
  ext w
  rw [Language.mem_add, Language.mem_one, ← words_one]
  constructor
  · intro h
    have htaken : Taken 0 1 p w := h
    by_cases hw : w = []
    · exact Or.inl hw
    · refine Or.inr ⟨htaken.run, List.length_pos_iff.mpr hw, ?_⟩
      exact htaken.allowed.2
  · intro h
    rcases h with rfl | htaken
    · exact ⟨by simp, le_rfl, Or.inr (Nat.zero_le _)⟩
    · exact ⟨Taken.run htaken, Nat.zero_le _, (Taken.allowed htaken).2⟩

theorem mem_words_mul {lo hi : ℕ} {L : Language α} :
    w ∈ words lo hi p * L ↔ ∃ u, (Piece.greedy lo hi p).Splits w u ∧ u ∈ L := by
  rw [Language.mem_mul]
  constructor
  · intro h
    obtain ⟨v, hv, u, hu, rfl⟩ := h
    exact ⟨u, ⟨v, rfl, hv⟩, hu⟩
  · intro h
    obtain ⟨u, ⟨v, rfl, hv⟩, hu⟩ := h
    exact ⟨v, hv, u, hu, rfl⟩

/-- Without a bound, a possessive repetition takes every character of its class. -/
theorem possessive_splits_iff {lo : ℕ} :
    (Piece.possessive lo 0 p).Splits w u ↔
      u = w.dropWhile p ∧ lo ≤ (w.takeWhile p).length := by
  have hall : lo ≤ (w.takeWhile p).length →
      (Piece.possessive lo 0 p).Splits w (w.dropWhile p) := by
    intro hlo
    refine ⟨w.takeWhile p, List.takeWhile_append_dropWhile.symm, ⟨?_, hlo, Or.inl rfl⟩, ?_⟩
    · exact fun c hc => List.mem_takeWhile_imp hc
    · intro c hc hmore
      have hhead := List.head?_dropWhile_not p w
      rw [Option.mem_def.mp hc] at hhead
      simp [hmore.run c (by simp)] at hhead
  constructor
  · intro h
    have hlo : lo ≤ (w.takeWhile p).length := by
      obtain ⟨v, rfl, htaken, -⟩ := h
      rw [List.takeWhile_append_of_pos htaken.run, List.length_append]
      exact htaken.allowed.1.trans (Nat.le_add_right _ _)
    exact ⟨h.possessive_unique (hall hlo), hlo⟩
  · intro h
    obtain ⟨rfl, hlo⟩ := h
    exact hall hlo

theorem mem_allThen {L : Language α} :
    w ∈ allThen p L ↔ ∃ u, (Piece.possessive 0 0 p).Splits w u ∧ u ∈ L := by
  constructor
  · intro h
    exact ⟨w.dropWhile p, possessive_splits_iff.mpr ⟨rfl, Nat.zero_le _⟩, h⟩
  · intro h
    obtain ⟨u, hsplits, hu⟩ := h
    obtain ⟨rfl, -⟩ := possessive_splits_iff.mp hsplits
    exact hu

theorem mem_chars_mul_allThen {L : Language α} :
    w ∈ chars p * allThen p L ↔ ∃ u, (Piece.possessive 1 0 p).Splits w u ∧ u ∈ L := by
  rw [Language.mem_mul]
  constructor
  · intro h
    obtain ⟨_, ⟨c, hc, rfl⟩, cs, hcs, rfl⟩ := h
    exact ⟨cs.dropWhile p, possessive_splits_iff.mpr (by simp [hc]), hcs⟩
  · intro h
    obtain ⟨u, hsplits, hu⟩ := h
    obtain ⟨rfl, hlo⟩ := possessive_splits_iff.mp hsplits
    cases w with
    | nil => simp at hlo
    | cons c cs =>
      by_cases hc : p c = true
      · rw [List.dropWhile_cons_of_pos hc] at hu
        exact ⟨[c], ⟨c, hc, rfl⟩, cs, hu, rfl⟩
      · simp [hc] at hlo

theorem mem_endThen {L : Language α} :
    w ∈ endThen L ↔ ∃ u, (Piece.atEnd : Piece α).Splits w u ∧ u ∈ L := by
  constructor
  · intro h
    obtain ⟨rfl, hnil⟩ := h
    exact ⟨[], ⟨rfl, rfl⟩, hnil⟩
  · intro h
    obtain ⟨u, ⟨rfl, rfl⟩, hnil⟩ := h
    exact ⟨rfl, hnil⟩

end Languages

end Regex
