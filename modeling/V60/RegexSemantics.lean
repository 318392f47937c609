import V60.RegexMethods

/-!
# What an expression means

`Derives` reads an expression without an order of trials: a repetition is any
allowed number of steps that consume something. What the matcher finds is
derived (`derives_of_results`), so that a relation between states that reading
one character and recording a group keep holds between the ends of every match
(`Derives.rel`). A match leaves a suffix, and its groups are parts of the subject.
-/

namespace Regex

variable {α ν : Type*}

def Iterated {σ : Type*} (R : σ → σ → Prop) : ℕ → σ → σ → Prop
  | 0, s, t => s = t
  | k + 1, s, u => ∃ t, R s t ∧ Iterated R k t u

theorem Iterated.append {σ : Type*} {R : σ → σ → Prop} {j k : ℕ} {s t u : σ}
    (h : Iterated R j s t) (h' : Iterated R k t u) : Iterated R (j + k) s u := by
  induction j generalizing s with
  | zero =>
    have heq : s = t := h
    subst heq
    rwa [Nat.zero_add]
  | succ j ih =>
    obtain ⟨v, hv, hrest⟩ := h
    rw [Nat.add_right_comm]
    exact ⟨v, hv, ih hrest⟩

theorem Iterated.rel {σ : Type*} {R S : σ → σ → Prop} (hrefl : ∀ s, S s s)
    (htrans : ∀ {s t u}, S s t → S t u → S s u) (hR : ∀ {s t}, R s t → S s t) {k : ℕ} {s t : σ}
    (h : Iterated R k s t) : S s t := by
  induction k generalizing s with
  | zero =>
    have heq : s = t := h
    subst heq
    exact hrefl s
  | succ k ih =>
    obtain ⟨u, hu, hrest⟩ := h
    exact htrans (hR hu) (ih hrest)

/-- The numbers of steps of `repeat lo hi`. -/
def Allowed (lo hi k : ℕ) : Prop := lo ≤ k ∧ (hi = 0 ∨ k ≤ max lo hi)

def Derives (n : ℕ) : Expr α ν → State α → State α → Prop
  | .empty, s, t => s = t
  | .char p, s, t => ∃ c, p c = true ∧ s.rest = c :: t.rest ∧ s.caps = t.caps
  | .seq a b, s, u => ∃ t, Derives n a s t ∧ Derives n b t u
  | .alt a b, s, t => Derives n a s t ∨ Derives n b s t
  | .greedy lo hi r, s, t | .lazy lo hi r, s, t | .possessive lo hi r, s, t =>
    ∃ k, Allowed lo hi k ∧ Iterated (fun s t => Derives n r s t ∧ Consumed s t) k s t
  | .capture id _ r, s, u => ∃ t, Derives n r s t ∧ u = s.record id t
  | .atBegin, s, t => s = t ∧ s.rest.length = n
  | .atEnd, s, t => s = t ∧ s.rest = []

/-! ## Soundness -/

theorem below_add {hi i k : ℕ} (h : below hi i = true) (hk : k = 0 ∨ hi = 0 ∨ i + 1 + k ≤ hi) :
    k + 1 = 0 ∨ hi = 0 ∨ i + (k + 1) ≤ hi := by
  rw [below, Bool.or_eq_true, decide_eq_true_eq, decide_eq_true_eq] at h
  omega

section Loops

variable {once : Cont α} {R : State α → State α → Prop}
  (honce : ∀ {s t}, once s = some t → R s t)
include honce

theorem atLeast_iterated {k : ℕ} {s t : State α} (h : atLeast once k s = some t) :
    Iterated R k s t := by
  induction k generalizing s with
  | zero => exact Option.some.inj h
  | succ k ih =>
    obtain ⟨u, hu, hrest⟩ := Option.bind_eq_some_iff.mp h
    exact ⟨u, honce hu, ih hrest⟩

/-- The steps of a loop after `i` others. -/
def LoopSteps (R : State α → State α → Prop) (hi i : ℕ) (s t : State α) : Prop :=
  ∃ k, (k = 0 ∨ hi = 0 ∨ i + k ≤ hi) ∧ Iterated R k s t

omit honce in
theorem LoopSteps.none (hi i : ℕ) (s : State α) : LoopSteps R hi i s s := ⟨0, Or.inl rfl, rfl⟩

theorem LoopSteps.cons {hi i : ℕ} {s t u : State α} (hbelow : below hi i = true)
    (hs : once s = some t) (h : LoopSteps R hi (i + 1) t u) : LoopSteps R hi i s u := by
  obtain ⟨k, hk, hrest⟩ := h
  exact ⟨k + 1, below_add hbelow hk, t, honce hs, hrest⟩

theorem greedyResults_steps {hi fuel i : ℕ} {s t : State α}
    (h : t ∈ greedyResults once hi fuel i s) : LoopSteps R hi i s t := by
  induction fuel generalizing i s with
  | zero =>
    obtain rfl := List.mem_singleton.mp h
    exact .none hi i t
  | succ fuel ih =>
    rcases List.mem_append.mp h with h | h
    · split_ifs at h with hbelow
      · cases hs : once s with
        | none => simp [hs] at h
        | some u =>
          simp only [hs] at h
          exact .cons honce hbelow hs (ih h)
      · exact absurd h List.not_mem_nil
    · obtain rfl := List.mem_singleton.mp h
      exact .none hi i t

theorem lazyResults_steps {hi fuel i : ℕ} {s t : State α}
    (h : t ∈ lazyResults once hi fuel i s) : LoopSteps R hi i s t := by
  induction fuel generalizing i s with
  | zero =>
    obtain rfl := List.mem_singleton.mp h
    exact .none hi i t
  | succ fuel ih =>
    rcases List.mem_cons.mp h with rfl | h
    · exact .none hi i t
    · split_ifs at h with hbelow
      · cases hs : once s with
        | none => simp [hs] at h
        | some u =>
          simp only [hs] at h
          exact .cons honce hbelow hs (ih h)
      · exact absurd h List.not_mem_nil

theorem possessiveLoop_steps (hi fuel i : ℕ) (s : State α) :
    LoopSteps R hi i s (possessiveLoop once hi fuel i s) := by
  induction fuel generalizing i s with
  | zero => exact .none hi i s
  | succ fuel ih =>
    rw [possessiveLoop]
    split_ifs with hbelow
    · cases hs : once s with
      | none => exact .none hi i s
      | some u => exact .cons honce hbelow hs (ih (i + 1) u)
    · exact .none hi i s

/-- The steps a repetition has to take, and those its loop adds. -/
theorem repeat_iterated {lo hi : ℕ} {s t u : State α} (hlo : atLeast once lo s = some t)
    (h : LoopSteps R hi lo t u) : ∃ k, Allowed lo hi k ∧ Iterated R k s u := by
  obtain ⟨k, hk, hrest⟩ := h
  refine ⟨lo + k, ⟨Nat.le_add_right lo k, ?_⟩, (atLeast_iterated honce hlo).append hrest⟩
  omega

end Loops

theorem of_step {f : State α → List (State α)} {s t : State α} (h : step f s = some t) :
    t ∈ f s ∧ Consumed s t :=
  ⟨List.mem_of_find?_eq_some h, by simpa using List.find?_some h⟩

/-- What the matcher finds is derived. -/
theorem derives_of_results {n : ℕ} {r : Expr α ν} {s t : State α} (h : t ∈ results n r s) :
    Derives n r s t := by
  induction r generalizing s t with
  | empty => exact (List.mem_singleton.mp h).symm
  | char p =>
    rw [results] at h
    cases hrest : s.rest with
    | nil => simp [hrest] at h
    | cons c cs =>
      simp only [hrest] at h
      split_ifs at h with hp
      · obtain rfl := List.mem_singleton.mp h
        exact ⟨c, hp, hrest, rfl⟩
      · exact absurd h List.not_mem_nil
  | seq a b iha ihb =>
    obtain ⟨u, hu, ht⟩ := List.mem_flatMap.mp h
    exact ⟨u, iha hu, ihb ht⟩
  | alt a b iha ihb => exact (List.mem_append.mp h).imp iha ihb
  | greedy lo hi r ih =>
    rw [results] at h
    cases hlo : atLeast (step (results n r)) lo s with
    | none => simp [hlo] at h
    | some u =>
      rw [hlo, Option.elim_some] at h
      have honce : ∀ {s t}, step (results n r) s = some t → Derives n r s t ∧ Consumed s t :=
        fun hstep => (of_step hstep).imp_left ih
      exact repeat_iterated honce hlo (greedyResults_steps honce h)
  | «lazy» lo hi r ih =>
    rw [results] at h
    cases hlo : atLeast (step (results n r)) lo s with
    | none => simp [hlo] at h
    | some u =>
      rw [hlo, Option.elim_some] at h
      have honce : ∀ {s t}, step (results n r) s = some t → Derives n r s t ∧ Consumed s t :=
        fun hstep => (of_step hstep).imp_left ih
      exact repeat_iterated honce hlo (lazyResults_steps honce h)
  | possessive lo hi r ih =>
    rw [results] at h
    cases hlo : atLeast (step (results n r)) lo s with
    | none => simp [hlo] at h
    | some u =>
      rw [hlo, Option.elim_some] at h
      obtain rfl := List.mem_singleton.mp h
      have honce : ∀ {s t}, step (results n r) s = some t → Derives n r s t ∧ Consumed s t :=
        fun hstep => (of_step hstep).imp_left ih
      exact repeat_iterated honce hlo (possessiveLoop_steps honce hi _ lo u)
  | capture id name r ih =>
    obtain ⟨u, hu, rfl⟩ := List.mem_map.mp h
    exact ⟨u, ih hu, rfl⟩
  | atBegin =>
    rw [results] at h
    split_ifs at h with hn
    · exact ⟨(List.mem_singleton.mp h).symm, hn⟩
    · exact absurd h List.not_mem_nil
  | atEnd =>
    rw [results] at h
    split_ifs at h with hn
    · exact ⟨(List.mem_singleton.mp h).symm, hn⟩
    · exact absurd h List.not_mem_nil

/-! ## What every match keeps -/

/-- A relation that reading a character and recording a group keep relates the ends of every
match. -/
theorem Derives.rel {R : State α → State α → Prop} (hrefl : ∀ s, R s s)
    (htrans : ∀ {s t u}, R s t → R t u → R s u)
    (hchar : ∀ {s t c}, s.rest = c :: t.rest → s.caps = t.caps → R s t)
    (hrecord : ∀ {s t} id, R s t → R s (s.record id t)) {n : ℕ} {r : Expr α ν} {s t : State α}
    (h : Derives n r s t) : R s t := by
  induction r generalizing s t with
  | empty =>
    have heq : s = t := h
    subst heq
    exact hrefl s
  | char p =>
    obtain ⟨c, -, hrest, hcaps⟩ := h
    exact hchar hrest hcaps
  | seq a b iha ihb =>
    obtain ⟨u, ha, hb⟩ := h
    exact htrans (iha ha) (ihb hb)
  | alt a b iha ihb =>
    rcases h with h | h
    · exact iha h
    · exact ihb h
  | greedy lo hi r ih =>
    obtain ⟨k, -, h⟩ := h
    exact h.rel hrefl htrans fun h => ih h.1
  | «lazy» lo hi r ih =>
    obtain ⟨k, -, h⟩ := h
    exact h.rel hrefl htrans fun h => ih h.1
  | possessive lo hi r ih =>
    obtain ⟨k, -, h⟩ := h
    exact h.rel hrefl htrans fun h => ih h.1
  | capture id name r ih =>
    obtain ⟨u, hu, rfl⟩ := h
    exact hrecord id (ih hu)
  | atBegin =>
    obtain ⟨rfl, -⟩ := h
    exact hrefl s
  | atEnd =>
    obtain ⟨rfl, -⟩ := h
    exact hrefl s

theorem Derives.suffix {n : ℕ} {r : Expr α ν} {s t : State α} (h : Derives n r s t) :
    t.rest <:+ s.rest := by
  refine h.rel (R := fun s t => t.rest <:+ s.rest) (fun s => List.suffix_refl _)
    (fun h h' => h'.trans h) ?_ (fun _ h => h)
  intro s t c hrest _
  rw [hrest]
  exact List.suffix_cons c t.rest

/-- The groups of a state are parts of this text, and so is what is left. -/
structure State.Within (input : List α) (s : State α) : Prop where
  rest : s.rest <:+ input
  caps : ∀ g ∈ s.caps, g.2 <:+: input

theorem Derives.within {input : List α} {n : ℕ} {r : Expr α ν} {s t : State α}
    (h : Derives n r s t) (hs : s.Within input) : t.Within input := by
  refine h.rel (R := fun s t => s.Within input → t.Within input) (fun s hs => hs)
    (fun h h' hs => h' (h hs)) ?_ ?_ hs
  · intro s t c hrest hcaps hs
    have hsuffix := hs.rest
    rw [hrest] at hsuffix
    exact ⟨(List.suffix_cons c t.rest).trans hsuffix, hcaps ▸ hs.caps⟩
  · intro s t id h hs
    refine ⟨(h hs).rest, ?_⟩
    intro g hg
    rcases List.mem_cons.mp hg with rfl | hg
    · exact (List.take_prefix _ _).isInfix.trans hs.rest.isInfix
    · exact (h hs).caps g hg

theorem startsWith_within {r : Expr α ν} {input : List α} {t : State α}
    (h : startsWith r input = some t) : t.Within input := by
  rw [startsWith_eq] at h
  refine (derives_of_results (List.mem_of_head? h)).within ⟨List.suffix_refl _, ?_⟩
  intro g hg
  exact absurd hg List.not_mem_nil

end Regex
