import Mathlib.Data.List.Basic
import Mathlib.Data.List.Perm.Basic
import Mathlib.Data.Nat.Basic
import Mathlib.Order.Basic

/-!
# Type lists

`take`, `merge`, `sort_list` and the set operations of the type lists, over any
element type and any comparator. The facts that objects rest on are that
sorting permutes and sorts, and that the intersection of two sorted lists holds
the elements of both.
-/

namespace V60.Meta

variable {α : Type*}

def eq (less : α → α → Bool) (a b : α) : Bool := !less a b && !less b a

def take (count : ℕ) (l : List α) : List α × List α := l.splitAt count

def merge (less : α → α → Bool) : List α → List α → List α
  | [], bs => bs
  | a :: as, [] => a :: as
  | a :: as, b :: bs =>
    if less a b then a :: merge less as (b :: bs) else b :: merge less (a :: as) bs
termination_by as bs => as.length + bs.length

def sortList (less : α → α → Bool) : List α → List α
  | [] => []
  | [a] => [a]
  | [a, b] => if less a b then [a, b] else [b, a]
  | a :: b :: c :: l =>
    let types := a :: b :: c :: l
    let split := take (types.length / 2) types
    merge less (sortList less split.1) (sortList less split.2)
termination_by l => l.length
decreasing_by
  all_goals
    simp only [take, List.splitAt_eq, List.length_take, List.length_drop, List.length_cons]
    omega

def intersection (less : α → α → Bool) : List α → List α → List α
  | [], _ => []
  | _ :: _, [] => []
  | a :: as, b :: bs =>
    if eq less a b then a :: intersection less as bs
    else if less a b then intersection less as (b :: bs)
    else intersection less (a :: as) bs
termination_by as bs => as.length + bs.length

/-- How a walk along two sorted lists goes on: with what is left of one of them when the other
has come to its end, and with the heads otherwise. -/
structure Walk (α : Type*) where
  nilLeft : List α → List α
  nilRight : List α → List α
  headEq : α → List α → List α
  aLess : α → List α → List α
  bLess : α → List α → List α

def walk (less : α → α → Bool) (w : Walk α) : List α → List α → List α
  | [], bs => w.nilLeft bs
  | a :: as, [] => w.nilRight (a :: as)
  | a :: as, b :: bs =>
    if eq less a b then w.headEq a (walk less w as bs)
    else if less a b then w.aLess a (walk less w as (b :: bs))
    else w.bLess b (walk less w (a :: as) bs)
termination_by as bs => as.length + bs.length

def unionWalk : Walk α := ⟨id, id, List.cons, List.cons, List.cons⟩

def intersectionWalk : Walk α := ⟨fun _ => [], fun _ => [], List.cons, fun _ l => l, fun _ l => l⟩

def differenceWalk : Walk α := ⟨id, id, fun _ l => l, List.cons, List.cons⟩

def union (less : α → α → Bool) : List α → List α → List α := walk less unionWalk

def difference (less : α → α → Bool) : List α → List α → List α := walk less differenceWalk

def doIndexOf (equal : α → α → Bool) (needle : α) : ℕ → List α → ℕ
  | _, [] => 0
  | i, a :: haystack => if equal a needle then i + 1 else doIndexOf equal needle (i + 1) haystack

def indexOf (equal : α → α → Bool) (needle : α) (haystack : List α) : ℤ :=
  doIndexOf equal needle 0 haystack - 1

structure StrictWeakOrder (less : α → α → Bool) : Prop where
  asymm : ∀ {a b}, less a b = true → less b a = false
  cotrans : ∀ {a c} b, less a c = true → less a b = true ∨ less b c = true

def Trichotomous (less : α → α → Bool) : Prop := ∀ a b, eq less a b = true → a = b

def Sorted (less : α → α → Bool) (l : List α) : Prop := l.Pairwise fun a b => less b a = false

variable {less : α → α → Bool}

theorem StrictWeakOrder.irrefl (h : StrictWeakOrder less) (a : α) : less a a = false := by
  cases ha : less a a with
  | false => rfl
  | true => rw [← ha, h.asymm ha]

theorem StrictWeakOrder.le_trans (h : StrictWeakOrder less) {a b c : α} (hab : less b a = false)
    (hbc : less c b = false) : less c a = false := by
  cases hca : less c a with
  | false => rfl
  | true => cases h.cotrans b hca <;> simp_all

theorem StrictWeakOrder.ne_of_less (h : StrictWeakOrder less) {a b : α} (hab : less a b = true) :
    a ≠ b := by
  intro heq
  subst heq
  simp [h.irrefl a] at hab

theorem merge_perm (as bs : List α) : (merge less as bs).Perm (as ++ bs) := by
  fun_induction merge less as bs with
  | case1 bs => simp
  | case2 a as => simp
  | case3 a as b bs h ih => exact ih.cons a
  | case4 a as b bs h ih => exact (ih.cons b).trans List.perm_middle.symm

theorem merge_sorted (h : StrictWeakOrder less) {as bs : List α} (ha : Sorted less as)
    (hb : Sorted less bs) : Sorted less (merge less as bs) := by
  fun_induction merge less as bs with
  | case1 bs => exact hb
  | case2 a as => exact ha
  | case3 a as b bs hab ih =>
    have hle : less b a = false := h.asymm hab
    refine List.pairwise_cons.mpr ⟨fun x hx => ?_, ih (List.pairwise_cons.mp ha).2 hb⟩
    rcases List.mem_append.mp ((merge_perm as (b :: bs)).mem_iff.mp hx) with hx | hx
    · exact (List.pairwise_cons.mp ha).1 x hx
    · rcases List.mem_cons.mp hx with rfl | hx
      · exact hle
      · exact h.le_trans hle ((List.pairwise_cons.mp hb).1 x hx)
  | case4 a as b bs hab ih =>
    have hle : less a b = false := by simpa using hab
    refine List.pairwise_cons.mpr ⟨fun x hx => ?_, ih ha (List.pairwise_cons.mp hb).2⟩
    rcases List.mem_append.mp ((merge_perm (a :: as) bs).mem_iff.mp hx) with hx | hx
    · rcases List.mem_cons.mp hx with rfl | hx
      · exact hle
      · exact h.le_trans hle ((List.pairwise_cons.mp ha).1 x hx)
    · exact (List.pairwise_cons.mp hb).1 x hx

theorem sortList_perm (l : List α) : (sortList less l).Perm l := by
  fun_induction sortList less l with
  | case1 => exact List.Perm.nil
  | case2 a => exact List.Perm.refl _
  | case3 a b h => exact List.Perm.refl _
  | case4 a b h => exact List.Perm.swap a b []
  | case5 a b c l types split ih₁ ih₂ =>
    have hsplit : split.1 ++ split.2 = types := by
      simp only [split, take, List.splitAt_eq, List.take_append_drop]
    calc (merge less (sortList less split.1) (sortList less split.2)).Perm
          (sortList less split.1 ++ sortList less split.2) := merge_perm _ _
      _ |>.Perm (split.1 ++ split.2) := ih₁.append ih₂
      _ |>.Perm types := by rw [hsplit]

theorem sortList_sorted (h : StrictWeakOrder less) (l : List α) :
    Sorted less (sortList less l) := by
  fun_induction sortList less l with
  | case1 => exact List.Pairwise.nil
  | case2 a => exact List.pairwise_singleton _ _
  | case3 a b hab => exact List.pairwise_pair.mpr (h.asymm hab)
  | case4 a b hab => exact List.pairwise_pair.mpr (by simpa using hab)
  | case5 a b c l types split ih₁ ih₂ => exact merge_sorted h ih₁ ih₂

theorem mem_sortList {l : List α} {a : α} : a ∈ sortList less l ↔ a ∈ l :=
  (sortList_perm l).mem_iff

theorem not_mem_of_less_head (h : StrictWeakOrder less) {a b : α} {bs : List α}
    (hb : Sorted less (b :: bs)) (hab : less a b = true) : a ∉ b :: bs := by
  intro hmem
  rcases List.mem_cons.mp hmem with rfl | hmem
  · exact h.ne_of_less hab rfl
  · exact absurd hab (by simp [(List.pairwise_cons.mp hb).1 a hmem])

theorem mem_intersection (h : StrictWeakOrder less) (htri : Trichotomous less) {as bs : List α}
    (ha : Sorted less as) (hb : Sorted less bs) {x : α} :
    x ∈ intersection less as bs ↔ x ∈ as ∧ x ∈ bs := by
  fun_induction intersection less as bs with
  | case1 bs => simp
  | case2 a as => simp
  | case3 a as b bs heq ih =>
    obtain rfl := htri a b heq
    rw [List.mem_cons, ih (List.pairwise_cons.mp ha).2 (List.pairwise_cons.mp hb).2,
      List.mem_cons, List.mem_cons, ← or_and_left]
  | case4 a as b bs heq hab ih =>
    have hnot : a ∉ b :: bs := not_mem_of_less_head h hb hab
    rw [ih (List.pairwise_cons.mp ha).2 hb]
    refine ⟨fun hx => ⟨List.mem_cons_of_mem a hx.1, hx.2⟩, fun hx => ⟨?_, hx.2⟩⟩
    rcases List.mem_cons.mp hx.1 with rfl | hx'
    · exact absurd hx.2 hnot
    · exact hx'
  | case5 a as b bs heq hab ih =>
    have hba : less b a = true := by simpa [eq, hab] using heq
    have hnot : b ∉ a :: as := not_mem_of_less_head h ha hba
    rw [ih ha (List.pairwise_cons.mp hb).2]
    refine ⟨fun hx => ⟨hx.1, List.mem_cons_of_mem b hx.2⟩, fun hx => ⟨hx.1, ?_⟩⟩
    rcases List.mem_cons.mp hx.2 with rfl | hx'
    · exact absurd hx.1 hnot
    · exact hx'

end V60.Meta
