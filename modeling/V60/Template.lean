import Mathlib.Data.List.Nodup

/-!
# Partial specialisation

Class templates over numbers and lists of types, given by their partial
specialisations: which of them an argument list selects, and the recursion of
instantiations that their bodies ask for. Every instantiation that a body names
is made, whichever of its results the body then uses.
-/

namespace V60.Template

/-- A parameter of a specialisation: a fixed number, any number, or a list of types of which the
first `heads` are named and the others are a pack or none. -/
inductive Param
  | literal (n : ℕ)
  | count
  | types (heads : ℕ) (pack : Bool)
  deriving DecidableEq

inductive Arg (α : Type*)
  | count (n : ℕ)
  | types (l : List α)

/-- The body of a specialisation: its members, or an instantiation of a template and how the
body goes on with the members of that. -/
inductive Body (κ α ρ : Type*)
  | done (r : ρ)
  | inst (name : κ) (args : List (Arg α)) (k : ρ → Body κ α ρ)

/-- A partial specialisation; its body is there for arguments that its parameters take. -/
structure Spec (κ α ρ : Type*) where
  params : List Param
  body : List (Arg α) → Option (Body κ α ρ)

structure Templates (κ α ρ : Type*) where
  specs : κ → List (Spec κ α ρ)
  distinct : ∀ name, ((specs name).map Spec.params).Nodup

variable {κ α ρ : Type*}

@[simp]
def Param.fits : Param → Arg α → Bool
  | .literal n, .count m => n = m
  | .count, .count _ => true
  | .types heads pack, .types l => if pack then heads ≤ l.length else heads = l.length
  | _, _ => false

/-- Whether the first parameter is at least as specialised as the second. -/
@[simp]
def Param.atLeast : Param → Param → Bool
  | .literal n, .literal m => n = m
  | .literal _, .count => true
  | .count, .count => true
  | .types heads pack, .types heads' pack' =>
    if pack' then heads' ≤ heads else !pack && heads' = heads
  | _, _ => false

@[simp]
def fits : List Param → List (Arg α) → Bool
  | [], [] => true
  | p :: ps, a :: as => p.fits a && fits ps as
  | _, _ => false

@[simp]
def atLeast : List Param → List Param → Bool
  | [], [] => true
  | p :: ps, q :: qs => p.atLeast q && atLeast ps qs
  | _, _ => false

@[simp]
def moreSpecialised (ps qs : List Param) : Bool := atLeast ps qs && !atLeast qs ps

def select (specs : List (Spec κ α ρ)) (args : List (Arg α)) : Option (Spec κ α ρ) :=
  let found := specs.filter fun s => fits s.params args
  found.find? fun s => found.all fun t => t.params = s.params || moreSpecialised s.params t.params

def Body.run (instantiate : κ → List (Arg α) → Option ρ) : Body κ α ρ → Option ρ
  | .done r => some r
  | .inst name args k => (instantiate name args).bind fun r => (k r).run instantiate

/-- Instantiations nested no deeper than the fuel. -/
def instantiate (env : Templates κ α ρ) : ℕ → κ → List (Arg α) → Option ρ
  | 0, _, _ => none
  | fuel + 1, name, args =>
    (select (env.specs name) args).bind fun s =>
      (s.body args).bind fun b => b.run (instantiate env fuel)

def Yields (env : Templates κ α ρ) (name : κ) (args : List (Arg α)) (r : ρ) : Prop :=
  ∃ fuel, instantiate env fuel name args = some r

def Runs (env : Templates κ α ρ) (b : Body κ α ρ) (r : ρ) : Prop :=
  ∃ fuel, b.run (instantiate env fuel) = some r

/-- The instantiations that a body asks for itself. -/
inductive Asks (env : Templates κ α ρ) : Body κ α ρ → κ → List (Arg α) → Prop
  | here {name : κ} {args : List (Arg α)} {k : ρ → Body κ α ρ} :
      Asks env (.inst name args k) name args
  | later {name : κ} {args : List (Arg α)} {k : ρ → Body κ α ρ} {r : ρ} {name' : κ}
      {args' : List (Arg α)} (hyields : Yields env name args r)
      (hasks : Asks env (k r) name' args') :
      Asks env (.inst name args k) name' args'

/-- The instantiations that one instantiation leads to, itself among them. -/
inductive Reaches (env : Templates κ α ρ) (name : κ) (args : List (Arg α)) :
    κ → List (Arg α) → Prop
  | refl : Reaches env name args name args
  | step {name' : κ} {args' : List (Arg α)} {s : Spec κ α ρ} {b : Body κ α ρ} {name'' : κ}
      {args'' : List (Arg α)} (hreaches : Reaches env name args name' args')
      (hselect : select (env.specs name') args' = some s) (hbody : s.body args' = some b)
      (hasks : Asks env b name'' args'') : Reaches env name args name'' args''

structure MostSpecialised (specs : List (Spec κ α ρ)) (args : List (Arg α)) (s : Spec κ α ρ) :
    Prop where
  mem : s ∈ specs
  fits : fits s.params args = true
  most : ∀ t ∈ specs, Template.fits t.params args = true →
    t = s ∨ moreSpecialised s.params t.params = true

section Selection

variable {env : Templates κ α ρ} {name : κ} {args : List (Arg α)}

theorem moreSpecialised_asymm {ps qs : List Param} (h : moreSpecialised ps qs = true) :
    moreSpecialised qs ps = false := by
  simp only [moreSpecialised, Bool.and_eq_true, Bool.not_eq_true'] at h
  simp [moreSpecialised, h.2]

theorem mostSpecialised_of_select {s : Spec κ α ρ} (h : select (env.specs name) args = some s) :
    MostSpecialised (env.specs name) args s := by
  simp only [select] at h
  have hmem := List.mem_filter.mp (List.mem_of_find?_eq_some h)
  have hall := List.find?_some h
  refine ⟨hmem.1, hmem.2, fun t ht hfits => ?_⟩
  have ht' := List.all_eq_true.mp hall t (List.mem_filter.mpr ⟨ht, hfits⟩)
  rcases Bool.or_eq_true_iff.mp ht' with heq | hmore
  · exact Or.inl (List.inj_on_of_nodup_map (env.distinct name) ht hmem.1 (of_decide_eq_true heq))
  · exact Or.inr hmore

theorem not_mostSpecialised_of_select {specs : List (Spec κ α ρ)}
    (h : select specs args = none) : ¬∃ s, MostSpecialised specs args s := by
  intro hexists
  obtain ⟨s, hs⟩ := hexists
  simp only [select] at h
  refine List.find?_eq_none.mp h s (List.mem_filter.mpr ⟨hs.mem, hs.fits⟩)
    (List.all_eq_true.mpr fun t ht => ?_)
  rcases hs.most t (List.mem_filter.mp ht).1 (List.mem_filter.mp ht).2 with rfl | hmore
  · simp
  · rw [hmore, Bool.or_true]

theorem MostSpecialised.unique {specs : List (Spec κ α ρ)} {s t : Spec κ α ρ}
    (hs : MostSpecialised specs args s) (ht : MostSpecialised specs args t) : t = s := by
  rcases hs.most t ht.mem ht.fits with heq | hst
  · exact heq
  · rcases ht.most s hs.mem hs.fits with heq | hts
    · exact heq.symm
    · rw [moreSpecialised_asymm hst] at hts
      exact absurd hts Bool.false_ne_true

theorem existsUnique_of_select {s : Spec κ α ρ} (h : select (env.specs name) args = some s) :
    ∃! t, MostSpecialised (env.specs name) args t :=
  ⟨s, mostSpecialised_of_select h, fun _ ht => (mostSpecialised_of_select h).unique ht⟩

end Selection

section Rules

variable {env : Templates κ α ρ} {name : κ} {args : List (Arg α)} {r : ρ}

theorem Body.run_mono {f g : κ → List (Arg α) → Option ρ}
    (h : ∀ name args r, f name args = some r → g name args = some r) {b : Body κ α ρ}
    (hrun : b.run f = some r) : b.run g = some r := by
  induction b with
  | done r' => exact hrun
  | inst name args k ih =>
    obtain ⟨r', hr', hk⟩ := Option.bind_eq_some_iff.mp hrun
    exact Option.bind_eq_some_iff.mpr ⟨r', h name args r' hr', ih r' hk⟩

theorem instantiate_succ {fuel : ℕ} (h : instantiate env fuel name args = some r) :
    instantiate env (fuel + 1) name args = some r := by
  induction fuel generalizing name args r with
  | zero => simp [instantiate] at h
  | succ fuel ih =>
    rw [instantiate, Option.bind_eq_some_iff] at h ⊢
    obtain ⟨s, hs, h⟩ := h
    obtain ⟨b, hb, hrun⟩ := Option.bind_eq_some_iff.mp h
    exact ⟨s, hs, Option.bind_eq_some_iff.mpr ⟨b, hb, Body.run_mono (fun _ _ _ => ih) hrun⟩⟩

theorem instantiate_mono {fuel fuel' : ℕ} (hle : fuel ≤ fuel')
    (h : instantiate env fuel name args = some r) : instantiate env fuel' name args = some r := by
  induction hle with
  | refl => exact h
  | step _ ih => exact instantiate_succ ih

theorem Yields.unique {r' : ρ} (h : Yields env name args r) (h' : Yields env name args r') :
    r' = r := by
  obtain ⟨n, hn⟩ := h
  obtain ⟨m, hm⟩ := h'
  have hn' := instantiate_mono (Nat.le_max_left n m) hn
  have hm' := instantiate_mono (Nat.le_max_right n m) hm
  rw [hn'] at hm'
  exact (Option.some.inj hm').symm

theorem Runs.done : Runs env (.done r) r := ⟨0, rfl⟩

theorem Runs.inst {k : ρ → Body κ α ρ} {r' : ρ} (hyields : Yields env name args r)
    (hk : Runs env (k r) r') : Runs env (.inst name args k) r' := by
  obtain ⟨n, hn⟩ := hyields
  obtain ⟨m, hm⟩ := hk
  refine ⟨max n m, Option.bind_eq_some_iff.mpr ⟨r, instantiate_mono (Nat.le_max_left n m) hn, ?_⟩⟩
  exact Body.run_mono (fun _ _ _ => instantiate_mono (Nat.le_max_right n m)) hm

theorem Yields.of_select {s : Spec κ α ρ} {b : Body κ α ρ}
    (hselect : select (env.specs name) args = some s) (hbody : s.body args = some b)
    (hruns : Runs env b r) : Yields env name args r := by
  obtain ⟨fuel, hrun⟩ := hruns
  refine ⟨fuel + 1, ?_⟩
  rw [instantiate, hselect, Option.bind_some, hbody, Option.bind_some, hrun]

theorem Yields.selected (h : Yields env name args r) :
    ∃ s b, select (env.specs name) args = some s ∧ s.body args = some b ∧ Runs env b r := by
  obtain ⟨fuel, h⟩ := h
  cases fuel with
  | zero => simp [instantiate] at h
  | succ fuel =>
    obtain ⟨s, hs, h⟩ := Option.bind_eq_some_iff.mp h
    obtain ⟨b, hb, hrun⟩ := Option.bind_eq_some_iff.mp h
    exact ⟨s, b, hs, hb, fuel, hrun⟩

theorem Runs.asked {b : Body κ α ρ} {name' : κ} {args' : List (Arg α)} (hruns : Runs env b r)
    (hasks : Asks env b name' args') : ∃ r', Yields env name' args' r' := by
  obtain ⟨fuel, hrun⟩ := hruns
  induction hasks with
  | here =>
    obtain ⟨r', hr', -⟩ := Option.bind_eq_some_iff.mp hrun
    exact ⟨r', fuel, hr'⟩
  | later hyields _ ih =>
    obtain ⟨r', hr', hk⟩ := Option.bind_eq_some_iff.mp hrun
    rw [hyields.unique ⟨fuel, hr'⟩] at hk
    exact ih hk

/-- An instantiation that comes to its end makes no other than such that do. -/
theorem Yields.reached {name' : κ} {args' : List (Arg α)} (h : Yields env name args r)
    (hreaches : Reaches env name args name' args') : ∃ r', Yields env name' args' r' := by
  induction hreaches with
  | refl => exact ⟨r, h⟩
  | step _ hselect hbody hasks ih =>
    obtain ⟨r', hr'⟩ := ih
    obtain ⟨s, b, hselect', hbody', hruns⟩ := hr'.selected
    obtain rfl := Option.some.inj (hselect.symm.trans hselect')
    obtain rfl := Option.some.inj (hbody.symm.trans hbody')
    exact hruns.asked hasks

theorem Yields.reached_select {name' : κ} {args' : List (Arg α)} (h : Yields env name args r)
    (hreaches : Reaches env name args name' args') :
    ∃ s, select (env.specs name') args' = some s := by
  obtain ⟨r', hr'⟩ := h.reached hreaches
  obtain ⟨s, b, hselect, -⟩ := hr'.selected
  exact ⟨s, hselect⟩

end Rules

end V60.Template
