import V60.Object
import V60.Template
import Mathlib.Data.List.Pairwise

/-!
# The specialisations of the type lists

The partial specialisations of `take`, `merge`, `sort_list` and the set
operations for type lists. The comparator, a parameter that every one of them
passes on, is fixed. Each instantiation that sorting a list leads to selects
exactly one specialisation and comes to the list that the functions of the
model compute.
-/

namespace V60.Meta

open Template

inductive Name
  | take | merge | sortList | union | intersection | difference
  deriving DecidableEq

/-- The member types of an instantiation; only `take` has a `rest`. -/
structure Members (α : Type*) where
  type : List α
  rest : List α

variable {α : Type*}

def takeZero : Spec Name α (Members α) where
  params := [.literal 0, .types 0 true]
  body
    | [_, .types l] => some (.done ⟨[], l⟩)
    | _ => none

def takeOne : Spec Name α (Members α) where
  params := [.literal 1, .types 1 true]
  body
    | [_, .types (a :: l)] => some (.done ⟨[a], l⟩)
    | _ => none

def takeCount : Spec Name α (Members α) where
  params := [.count, .types 1 true]
  body
    | [.count count, .types (a :: l)] =>
      some (.inst .take [.count (count - 1), .types l] fun r => .done ⟨a :: r.type, r.rest⟩)
    | _ => none

def mergeNilLeft : Spec Name α (Members α) where
  params := [.types 0 false, .types 0 true]
  body
    | [_, .types bs] => some (.done ⟨bs, []⟩)
    | _ => none

def mergeNilRight : Spec Name α (Members α) where
  params := [.types 0 true, .types 0 false]
  body
    | [.types as, _] => some (.done ⟨as, []⟩)
    | _ => none

def mergeHeads (less : α → α → Bool) : Spec Name α (Members α) where
  params := [.types 1 true, .types 1 true]
  body
    | [.types (a :: as), .types (b :: bs)] =>
      some (.inst .merge [.types as, .types (b :: bs)] fun left =>
        .inst .merge [.types (a :: as), .types bs] fun right =>
          .done ⟨if less a b then a :: left.type else b :: right.type, []⟩)
    | _ => none

def sortListNil : Spec Name α (Members α) where
  params := [.types 0 false]
  body _ := some (.done ⟨[], []⟩)

def sortListOne : Spec Name α (Members α) where
  params := [.types 1 false]
  body
    | [.types [a]] => some (.done ⟨[a], []⟩)
    | _ => none

def sortListTwo (less : α → α → Bool) : Spec Name α (Members α) where
  params := [.types 2 false]
  body
    | [.types [a, b]] => some (.done ⟨if less a b then [a, b] else [b, a], []⟩)
    | _ => none

def sortListTypes : Spec Name α (Members α) where
  params := [.types 0 true]
  body
    | [.types types] =>
      some (.inst .take [.count (types.length / 2), .types types] fun split =>
        .inst .sortList [.types split.type] fun left =>
          .inst .sortList [.types split.rest] fun right =>
            .inst .merge [.types left.type, .types right.type] fun r => .done ⟨r.type, []⟩)
    | _ => none

def walkNil : Spec Name α (Members α) where
  params := [.types 0 false, .types 0 false]
  body _ := some (.done ⟨[], []⟩)

def walkNilRight (w : Walk α) : Spec Name α (Members α) where
  params := [.types 0 true, .types 0 false]
  body
    | [.types as, _] => some (.done ⟨w.nilRight as, []⟩)
    | _ => none

def walkNilLeft (w : Walk α) : Spec Name α (Members α) where
  params := [.types 0 false, .types 0 true]
  body
    | [_, .types bs] => some (.done ⟨w.nilLeft bs, []⟩)
    | _ => none

-- the conditions choose between three types that have all been instantiated
def walkHeads (less : α → α → Bool) (name : Name) (w : Walk α) : Spec Name α (Members α) where
  params := [.types 1 true, .types 1 true]
  body
    | [.types (a :: as), .types (b :: bs)] =>
      some (.inst name [.types as, .types bs] fun both =>
        .inst name [.types as, .types (b :: bs)] fun left =>
          .inst name [.types (a :: as), .types bs] fun right =>
            .done ⟨if eq less a b then w.headEq a both.type
              else if less a b then w.aLess a left.type
              else w.bLess b right.type, []⟩)
    | _ => none

def walkSpecs (less : α → α → Bool) (name : Name) (w : Walk α) : List (Spec Name α (Members α)) :=
  [walkNil, walkNilRight w, walkNilLeft w, walkHeads less name w]

def templates (less : α → α → Bool) : Templates Name α (Members α) where
  specs
    | .take => [takeZero, takeOne, takeCount]
    | .merge => [mergeNilLeft, mergeNilRight, mergeHeads less]
    | .sortList => [sortListNil, sortListOne, sortListTwo less, sortListTypes]
    | .union => walkSpecs less .union unionWalk
    | .intersection => walkSpecs less .intersection intersectionWalk
    | .difference => walkSpecs less .difference differenceWalk
  distinct name := by
    cases name <;> simp [takeZero, takeOne, takeCount, mergeNilLeft, mergeNilRight, mergeHeads,
      sortListNil, sortListOne, sortListTwo, sortListTypes, walkSpecs, walkNil, walkNilRight,
      walkNilLeft, walkHeads]

variable {less : α → α → Bool}

theorem take_yields (less : α → α → Bool) {count : ℕ} {l : List α} (hpos : 0 < count)
    (hle : count ≤ l.length) :
    Yields (templates less) .take [.count count, .types l]
      ⟨(take count l).1, (take count l).2⟩ := by
  induction count generalizing l with
  | zero => omega
  | succ count ih =>
    obtain ⟨a, l, rfl⟩ := List.exists_cons_of_length_pos (by omega : 0 < l.length)
    cases count with
    | zero =>
      have hselect : select ((templates less).specs .take) [.count 1, .types (a :: l)] =
          some takeOne := by
        simp [select, templates, takeZero, takeOne, takeCount]
      have htake : take 1 (a :: l) = ([a], l) := by simp [take]
      rw [Nat.zero_add, htake]
      exact Yields.of_select hselect rfl Runs.done
    | succ count =>
      have hselect : select ((templates less).specs .take)
          [.count (count + 2), .types (a :: l)] = some takeCount := by
        simp [select, templates, takeZero, takeOne, takeCount]
      have htake : take (count + 2) (a :: l) =
          (a :: (take (count + 1) l).1, (take (count + 1) l).2) := by
        simp [take]
      rw [htake]
      exact Yields.of_select hselect rfl
        (Runs.inst (ih (Nat.succ_pos count) (Nat.le_of_succ_le_succ hle)) Runs.done)

theorem select_mergeNilLeft {bs : List α} (hbs : bs ≠ []) :
    select ((templates less).specs .merge) [.types [], .types bs] = some mergeNilLeft := by
  have hlen : bs.length ≠ 0 := by simpa using hbs
  simp [select, templates, mergeNilLeft, mergeNilRight, mergeHeads, hlen.symm]

theorem select_mergeNilRight {as : List α} (has : as ≠ []) :
    select ((templates less).specs .merge) [.types as, .types []] = some mergeNilRight := by
  have hlen : as.length ≠ 0 := by simpa using has
  simp [select, templates, mergeNilLeft, mergeNilRight, mergeHeads, hlen.symm]

theorem select_mergeHeads (a b : α) (as bs : List α) :
    select ((templates less).specs .merge) [.types (a :: as), .types (b :: bs)] =
      some (mergeHeads less) := by
  simp [select, templates, mergeNilLeft, mergeNilRight, mergeHeads]

theorem merge_yields (less : α → α → Bool) (as bs : List α) (h : as ≠ [] ∨ bs ≠ []) :
    Yields (templates less) .merge [.types as, .types bs] ⟨merge less as bs, []⟩ := by
  induction as generalizing bs with
  | nil =>
    have hbs : bs ≠ [] := h.resolve_left fun hne => hne rfl
    rw [merge]
    exact Yields.of_select (select_mergeNilLeft hbs) rfl Runs.done
  | cons a as iha =>
    induction bs with
    | nil =>
      rw [merge]
      exact Yields.of_select (select_mergeNilRight (List.cons_ne_nil a as)) rfl Runs.done
    | cons b bs ihb =>
      have hleft := iha (b :: bs) (Or.inr (List.cons_ne_nil b bs))
      have hright := ihb (Or.inl (List.cons_ne_nil a as))
      rw [merge]
      exact Yields.of_select (select_mergeHeads a b as bs) rfl
        (Runs.inst hleft (Runs.inst hright Runs.done))

theorem select_sortListTwo (a b : α) :
    select ((templates less).specs .sortList) [.types [a, b]] = some (sortListTwo less) := by
  simp [select, templates, sortListNil, sortListOne, sortListTwo, sortListTypes]

theorem select_sortListTypes (a b c : α) (l : List α) :
    select ((templates less).specs .sortList) [.types (a :: b :: c :: l)] =
      some sortListTypes := by
  simp [select, templates, sortListNil, sortListOne, sortListTwo, sortListTypes]

theorem sortList_ne_nil {l : List α} (hl : l ≠ []) : sortList less l ≠ [] := by
  rw [← List.length_pos_iff, (sortList_perm l).length_eq]
  exact List.length_pos_iff.mpr hl

theorem sortList_yields (l : List α) :
    Yields (templates less) .sortList [.types l] ⟨sortList less l, []⟩ := by
  fun_induction sortList less l with
  | case1 =>
    have hselect : select ((templates less).specs .sortList) [.types []] = some sortListNil := by
      simp [select, templates, sortListNil, sortListOne, sortListTwo, sortListTypes]
    exact Yields.of_select hselect rfl Runs.done
  | case2 a =>
    have hselect : select ((templates less).specs .sortList) [.types [a]] = some sortListOne := by
      simp [select, templates, sortListNil, sortListOne, sortListTwo, sortListTypes]
    exact Yields.of_select hselect rfl Runs.done
  | case3 a b hab =>
    apply Yields.of_select (select_sortListTwo a b) rfl
    rw [if_pos hab]
    exact Runs.done
  | case4 a b hab =>
    apply Yields.of_select (select_sortListTwo a b) rfl
    rw [if_neg hab]
    exact Runs.done
  | case5 a b c l types split ih₁ ih₂ =>
    -- neither half is empty, so take and merge are asked for what they are there for
    have hlen : 3 ≤ types.length := by simp [types]
    have htake : Yields (templates less) .take [.count (types.length / 2), .types types]
        ⟨split.1, split.2⟩ := take_yields less (by omega) (by omega)
    have hne : split.1 ≠ [] := by
      simp only [split, take, List.splitAt_eq, ← List.length_pos_iff, List.length_take]
      omega
    have hmerge := merge_yields less (sortList less split.1) (sortList less split.2)
      (Or.inl (sortList_ne_nil hne))
    exact Yields.of_select (select_sortListTypes a b c l) rfl
      (Runs.inst htake (Runs.inst ih₁ (Runs.inst ih₂ (Runs.inst hmerge Runs.done))))

theorem walk_yields {name : Name} {w : Walk α}
    (hspecs : (templates less).specs name = walkSpecs less name w) (hnil : w.nilLeft [] = [])
    (as bs : List α) :
    Yields (templates less) name [.types as, .types bs] ⟨walk less w as bs, []⟩ := by
  induction as generalizing bs with
  | nil =>
    rw [walk]
    cases bs with
    | nil =>
      have hselect : select ((templates less).specs name) [.types [], .types []] =
          some walkNil := by
        rw [hspecs]
        simp [select, walkSpecs, walkNil, walkNilRight, walkNilLeft, walkHeads]
      rw [hnil]
      exact Yields.of_select hselect rfl Runs.done
    | cons b bs =>
      have hselect : select ((templates less).specs name) [.types [], .types (b :: bs)] =
          some (walkNilLeft w) := by
        rw [hspecs]
        simp [select, walkSpecs, walkNil, walkNilRight, walkNilLeft, walkHeads]
      exact Yields.of_select hselect rfl Runs.done
  | cons a as iha =>
    induction bs with
    | nil =>
      have hselect : select ((templates less).specs name) [.types (a :: as), .types []] =
          some (walkNilRight w) := by
        rw [hspecs]
        simp [select, walkSpecs, walkNil, walkNilRight, walkNilLeft, walkHeads]
      rw [walk]
      exact Yields.of_select hselect rfl Runs.done
    | cons b bs ihb =>
      have hselect : select ((templates less).specs name) [.types (a :: as), .types (b :: bs)] =
          some (walkHeads less name w) := by
        rw [hspecs]
        simp [select, walkSpecs, walkNil, walkNilRight, walkNilLeft, walkHeads]
      rw [walk]
      exact Yields.of_select hselect rfl
        (Runs.inst (iha bs) (Runs.inst (iha (b :: bs)) (Runs.inst ihb Runs.done)))

theorem mergeNil_ambiguous (less : α → α → Bool) :
    ¬∃ s, MostSpecialised ((templates less).specs .merge) [.types [], .types []] s :=
  not_mostSpecialised_of_select (by
    simp [select, templates, mergeNilLeft, mergeNilRight, mergeHeads])

theorem takeZero_ambiguous (less : α → α → Bool) (a : α) (as : List α) :
    ¬∃ s, MostSpecialised ((templates less).specs .take) [.count 0, .types (a :: as)] s :=
  not_mostSpecialised_of_select (by simp [select, templates, takeZero, takeOne, takeCount])

/-- Inequivalent elements have one sorted order. -/
theorem sortList_eq_of_perm (h : StrictWeakOrder less) {l l' : List α}
    (hl : l.Pairwise fun a b => eq less a b = false) (hperm : l'.Perm l) :
    sortList less l' = sortList less l := by
  have hsymm : Std.Symm fun a b => eq less a b = false :=
    ⟨fun a b hab => by rwa [eq, Bool.and_comm]⟩
  have hantisymm : ∀ a b, a ∈ sortList less l' → b ∈ sortList less l → less b a = false →
      less a b = false → a = b := by
    intro a b ha hb hba hab
    have ha' : a ∈ l := hperm.mem_iff.mp (mem_sortList.mp ha)
    by_contra hne
    have heq := hl.forall ha' (mem_sortList.mp hb) hne
    simp [eq, hab, hba] at heq
  exact List.Perm.eq_of_pairwise hantisymm (sortList_sorted h l') (sortList_sorted h l)
    ((sortList_perm l').trans (hperm.trans (sortList_perm l).symm))

theorem StrictWeakOrder.comap {β : Type*} (h : StrictWeakOrder less) (f : β → α) :
    StrictWeakOrder fun a b => less (f a) (f b) where
  asymm hab := h.asymm hab
  cotrans b hac := h.cotrans (f b) hac

end V60.Meta

namespace V60

open Template

/-- A member of an object type: its key and its value type. -/
abbrev Member (τ : Type*) := Key × τ

variable {τ : Type*}

def Member.less (a b : Member τ) : Bool := memberLess a.1 b.1

theorem Member.less_strictWeakOrder : Meta.StrictWeakOrder (Member.less (τ := τ)) :=
  memberLess_strictWeakOrder.comap Prod.fst

/-- The members that `object` hands to `object_impl`. -/
def objectMembers (members : List (Member τ)) : List (Member τ) :=
  Meta.sortList Member.less members

theorem pairwise_not_eq {members : List (Member τ)} (h : (members.map Prod.fst).Nodup) :
    members.Pairwise fun a b => Meta.eq Member.less a b = false := by
  apply (List.pairwise_map.mp h).imp
  intro a b hab
  by_contra heq
  exact hab (memberLess_trichotomous a.1 b.1 (eq_true_of_ne_false heq))

theorem sortList_canonical {α : Type*} {less : α → α → Bool} (h : Meta.StrictWeakOrder less)
    (l : List α) :
    Yields (Meta.templates less) .sortList [.types l] ⟨Meta.sortList less l, []⟩ ∧
      (∀ name args, Reaches (Meta.templates less) .sortList [.types l] name args →
        (∃! s, MostSpecialised ((Meta.templates less).specs name) args s) ∧
        ¬(name = .merge ∧ args = [.types [], .types []]) ∧
        ∀ a as, ¬(name = .take ∧ args = [.count 0, .types (a :: as)])) ∧
      (¬∃ s, MostSpecialised ((Meta.templates less).specs .merge) [.types [], .types []] s) ∧
      (∀ a as, ¬∃ s,
        MostSpecialised ((Meta.templates less).specs .take) [.count 0, .types (a :: as)] s) ∧
      (Meta.sortList less l).Perm l ∧ Meta.Sorted less (Meta.sortList less l) ∧
      (l.Pairwise (fun a b => Meta.eq less a b = false) →
        ∀ l', l'.Perm l → Meta.sortList less l' = Meta.sortList less l) ∧
      ∀ {τ : Type} {members members' : List (Member τ)}, (members.map Prod.fst).Nodup →
        members'.Perm members → objectMembers members' = objectMembers members := by
  have hyields : Yields (Meta.templates less) .sortList [.types l] ⟨Meta.sortList less l, []⟩ :=
    Meta.sortList_yields l
  refine ⟨hyields, fun name args hreaches => ?_, Meta.mergeNil_ambiguous less,
    Meta.takeZero_ambiguous less, Meta.sortList_perm l, Meta.sortList_sorted h l,
    fun hl l' hperm => Meta.sortList_eq_of_perm h hl hperm, fun hkeys hperm =>
      Meta.sortList_eq_of_perm Member.less_strictWeakOrder (pairwise_not_eq hkeys) hperm⟩
  obtain ⟨s, hselect⟩ := hyields.reached_select hreaches
  have hunique := existsUnique_of_select hselect
  refine ⟨hunique, fun hmerge => ?_, fun a as htake => ?_⟩
  · obtain ⟨rfl, rfl⟩ := hmerge
    exact Meta.mergeNil_ambiguous less hunique.exists
  · obtain ⟨rfl, rfl⟩ := htake
    exact Meta.takeZero_ambiguous less a as hunique.exists

inductive TestType
  | char | float | int
  deriving DecidableEq

def testLess : TestType → TestType → Bool
  | .float, .char => true
  | .int, .float => true
  | .int, .char => true
  | _, _ => false

theorem testLess_strictWeakOrder : Meta.StrictWeakOrder testLess where
  asymm {a b} h := by
    cases a <;> cases b <;> first | rfl | exact absurd h (by decide)
  cotrans {a c} b h := by
    cases a <;> cases b <;> cases c <;> simp [testLess] at h ⊢

theorem sortList_canonical_test :
    Yields (Meta.templates testLess) .sortList [.types [.float, .char, .int]]
        ⟨[.int, .float, .char], []⟩ ∧
      ∀ l' : List TestType, l'.Perm [.float, .char, .int] →
        Meta.sortList testLess l' = [.int, .float, .char] := by
  have hsort : Meta.sortList testLess [.float, .char, .int] = [.int, .float, .char] := by
    simp [Meta.sortList, Meta.take, Meta.merge, testLess]
  obtain ⟨hyields, -, -, -, -, -, hperm, -⟩ :=
    sortList_canonical testLess_strictWeakOrder [.float, .char, .int]
  rw [hsort] at hyields hperm
  exact ⟨hyields, hperm (by decide)⟩

end V60
