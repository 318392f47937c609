import V60.TypeLists

/-!
# The set operations on sorted lists

Union, intersection and difference walk along two strictly ascending lists and
differ in what they keep: the elements of both, those of the first list alone
and those of the second list alone.
-/

namespace V60.Meta

variable {α : Type*} {less : α → α → Bool}

def Ascending (less : α → α → Bool) (l : List α) : Prop := l.Pairwise fun a b => less a b = true

/-- The walk that keeps the elements of these kinds. -/
def keeping (both onlyA onlyB : Bool) : Walk α where
  nilLeft bs := if onlyB then bs else []
  nilRight as := if onlyA then as else []
  headEq a l := if both then a :: l else l
  aLess a l := if onlyA then a :: l else l
  bLess b l := if onlyB then b :: l else l

theorem union_eq_keeping : union less = walk less (keeping true true true) := rfl

theorem difference_eq_keeping : difference less = walk less (keeping false true true) := rfl

theorem intersection_eq_walk (as bs : List α) :
    intersection less as bs = walk less intersectionWalk as bs := by
  fun_induction intersection less as bs with
  | case1 bs => simp [walk, intersectionWalk]
  | case2 a as => simp [walk, intersectionWalk]
  | case3 a as b bs heq ih => rw [walk, if_pos heq, ih]; rfl
  | case4 a as b bs heq hab ih => rw [walk, if_neg heq, if_pos hab, ih]; rfl
  | case5 a as b bs heq hab ih => rw [walk, if_neg heq, if_neg hab, ih]; rfl

theorem intersection_eq_keeping (as bs : List α) :
    intersection less as bs = walk less (keeping true false false) as bs :=
  intersection_eq_walk as bs

section Order

theorem eq_comm (a b : α) : eq less a b = eq less b a := Bool.and_comm _ _

theorem StrictWeakOrder.trans (h : StrictWeakOrder less) {a b c : α} (hab : less a b = true)
    (hbc : less b c = true) : less a c = true := by
  rcases h.cotrans c hab with hac | hcb
  · exact hac
  · rw [h.asymm hbc] at hcb
    exact absurd hcb Bool.false_ne_true

theorem StrictWeakOrder.eq_refl (h : StrictWeakOrder less) (a : α) : eq less a a = true := by
  simp [eq, h.irrefl a]

theorem StrictWeakOrder.less_of_eq (h : StrictWeakOrder less) {a b x : α}
    (hab : eq less a b = true) (hax : less a x = true) : less b x = true := by
  simp only [eq, Bool.and_eq_true, Bool.not_eq_true'] at hab
  rcases h.cotrans b hax with hless | hbx
  · exact absurd hless (by simp [hab.1])
  · exact hbx

theorem StrictWeakOrder.eq_trans (h : StrictWeakOrder less) {a b c : α}
    (hab : eq less a b = true) (hbc : eq less b c = true) : eq less a c = true := by
  simp only [eq, Bool.and_eq_true, Bool.not_eq_true'] at hab hbc ⊢
  exact ⟨h.le_trans hbc.1 hab.1, h.le_trans hab.2 hbc.2⟩

theorem eq_eq_false {a b : α} (hab : less a b = true) : eq less a b = false := by
  simp [eq, hab]

theorem less_of_not_eq {a b : α} (heq : ¬eq less a b = true) (hab : ¬less a b = true) :
    less b a = true := by
  simpa [eq, hab] using heq

/-- An element below the head of an ascending list is below all of it. -/
theorem Ascending.less_all (h : StrictWeakOrder less) {a b : α} {bs : List α}
    (hb : Ascending less (b :: bs)) (hab : less a b = true) :
    ∀ x ∈ b :: bs, less a x = true := by
  intro x hx
  rcases List.mem_cons.mp hx with rfl | hx
  · exact hab
  · exact h.trans hab ((List.pairwise_cons.mp hb).1 x hx)

end Order

/-- The elements that such a walk keeps; those that are on both sides come from the first. -/
def Selects (less : α → α → Bool) (both onlyA onlyB : Bool) (as bs : List α) (x : α) : Prop :=
  (both = true ∧ x ∈ as ∧ ∃ b ∈ bs, eq less x b = true) ∨
    (onlyA = true ∧ x ∈ as ∧ ∀ b ∈ bs, eq less x b = false) ∨
    (onlyB = true ∧ x ∈ bs ∧ ∀ a ∈ as, eq less a x = false)

section Selection

variable {both onlyA onlyB : Bool} {a b x : α} {as bs : List α}

theorem selects_cons_left (ha : ∀ y ∈ bs, eq less a y = false) :
    Selects less both onlyA onlyB (a :: as) bs x ↔
      (onlyA = true ∧ x = a) ∨ Selects less both onlyA onlyB as bs x := by
  constructor
  · intro h
    rcases h with ⟨hboth, hx, y, hy, hxy⟩ | ⟨honly, hx, hall⟩ | ⟨honly, hx, hall⟩
    · rcases List.mem_cons.mp hx with rfl | hx
      · simp [ha y hy] at hxy
      · exact Or.inr (Or.inl ⟨hboth, hx, y, hy, hxy⟩)
    · rcases List.mem_cons.mp hx with rfl | hx
      · exact Or.inl ⟨honly, rfl⟩
      · exact Or.inr (Or.inr (Or.inl ⟨honly, hx, hall⟩))
    · exact Or.inr (Or.inr (Or.inr ⟨honly, hx, fun y hy => hall y (List.mem_cons_of_mem a hy)⟩))
  · intro h
    rcases h with ⟨honly, rfl⟩ | ⟨hboth, hx, hy⟩ | ⟨honly, hx, hall⟩ | ⟨honly, hx, hall⟩
    · exact Or.inr (Or.inl ⟨honly, List.mem_cons_self, ha⟩)
    · exact Or.inl ⟨hboth, List.mem_cons_of_mem a hx, hy⟩
    · exact Or.inr (Or.inl ⟨honly, List.mem_cons_of_mem a hx, hall⟩)
    · exact Or.inr (Or.inr ⟨honly, hx, List.forall_mem_cons.mpr ⟨ha x hx, hall⟩⟩)

theorem selects_cons_right (hb : ∀ y ∈ as, eq less y b = false) :
    Selects less both onlyA onlyB as (b :: bs) x ↔
      (onlyB = true ∧ x = b) ∨ Selects less both onlyA onlyB as bs x := by
  constructor
  · intro h
    rcases h with ⟨hboth, hx, y, hy, hxy⟩ | ⟨honly, hx, hall⟩ | ⟨honly, hx, hall⟩
    · rcases List.mem_cons.mp hy with rfl | hy
      · simp [hb x hx] at hxy
      · exact Or.inr (Or.inl ⟨hboth, hx, y, hy, hxy⟩)
    · exact Or.inr (Or.inr (Or.inl ⟨honly, hx, fun y hy => hall y (List.mem_cons_of_mem b hy)⟩))
    · rcases List.mem_cons.mp hx with rfl | hx
      · exact Or.inl ⟨honly, rfl⟩
      · exact Or.inr (Or.inr (Or.inr ⟨honly, hx, hall⟩))
  · intro h
    rcases h with ⟨honly, rfl⟩ | ⟨hboth, hx, y, hy, hxy⟩ | ⟨honly, hx, hall⟩ | ⟨honly, hx, hall⟩
    · exact Or.inr (Or.inr ⟨honly, List.mem_cons_self, hb⟩)
    · exact Or.inl ⟨hboth, hx, y, List.mem_cons_of_mem b hy, hxy⟩
    · exact Or.inr (Or.inl ⟨honly, hx, List.forall_mem_cons.mpr ⟨hb x hx, hall⟩⟩)
    · exact Or.inr (Or.inr ⟨honly, List.mem_cons_of_mem b hx, hall⟩)

theorem selects_cons_cons (hab : eq less a b = true) (ha : ∀ y ∈ bs, eq less a y = false)
    (hb : ∀ y ∈ as, eq less y b = false) :
    Selects less both onlyA onlyB (a :: as) (b :: bs) x ↔
      (both = true ∧ x = a) ∨ Selects less both onlyA onlyB as bs x := by
  constructor
  · intro h
    rcases h with ⟨hboth, hx, y, hy, hxy⟩ | ⟨honly, hx, hall⟩ | ⟨honly, hx, hall⟩
    · rcases List.mem_cons.mp hx with rfl | hx
      · exact Or.inl ⟨hboth, rfl⟩
      · rcases List.mem_cons.mp hy with rfl | hy
        · simp [hb x hx] at hxy
        · exact Or.inr (Or.inl ⟨hboth, hx, y, hy, hxy⟩)
    · rcases List.mem_cons.mp hx with rfl | hx
      · simp [hall b List.mem_cons_self] at hab
      · exact Or.inr (Or.inr (Or.inl ⟨honly, hx, fun y hy => hall y (List.mem_cons_of_mem b hy)⟩))
    · rcases List.mem_cons.mp hx with rfl | hx
      · simp [hall a List.mem_cons_self] at hab
      · exact Or.inr (Or.inr (Or.inr ⟨honly, hx, fun y hy => hall y (List.mem_cons_of_mem a hy)⟩))
  · intro h
    rcases h with ⟨hboth, rfl⟩ | ⟨hboth, hx, y, hy, hxy⟩ | ⟨honly, hx, hall⟩ | ⟨honly, hx, hall⟩
    · exact Or.inl ⟨hboth, List.mem_cons_self, b, List.mem_cons_self, hab⟩
    · exact Or.inl ⟨hboth, List.mem_cons_of_mem a hx, y, List.mem_cons_of_mem b hy, hxy⟩
    · exact Or.inr (Or.inl ⟨honly, List.mem_cons_of_mem a hx,
        List.forall_mem_cons.mpr ⟨hb x hx, hall⟩⟩)
    · exact Or.inr (Or.inr ⟨honly, List.mem_cons_of_mem b hx,
        List.forall_mem_cons.mpr ⟨ha x hx, hall⟩⟩)

theorem mem_of_selects (h : Selects less both onlyA onlyB as bs x) : x ∈ as ∨ x ∈ bs := by
  rcases h with ⟨-, hx, -⟩ | ⟨-, hx, -⟩ | ⟨-, hx, -⟩
  · exact Or.inl hx
  · exact Or.inl hx
  · exact Or.inr hx

theorem mem_ite_cons {keep : Bool} {l : List α} :
    x ∈ (if keep = true then a :: l else l) ↔ (keep = true ∧ x = a) ∨ x ∈ l := by
  cases keep <;> simp

theorem mem_walk (h : StrictWeakOrder less) (ha : Ascending less as) (hb : Ascending less bs) :
    x ∈ walk less (keeping both onlyA onlyB) as bs ↔ Selects less both onlyA onlyB as bs x := by
  fun_induction walk less (keeping both onlyA onlyB) as bs with
  | case1 bs => cases onlyB <;> simp [keeping, Selects]
  | case2 a as => cases onlyA <;> simp [keeping, Selects]
  | case3 a as b bs heq ih =>
    have ha' := List.pairwise_cons.mp ha
    have hb' := List.pairwise_cons.mp hb
    have heq' : eq less b a = true := by rwa [eq_comm]
    rw [selects_cons_cons heq (fun y hy => eq_eq_false (h.less_of_eq heq' (hb'.1 y hy)))
      (fun y hy => by rw [eq_comm]; exact eq_eq_false (h.less_of_eq heq (ha'.1 y hy))),
      ← ih ha'.2 hb'.2]
    exact mem_ite_cons
  | case4 a as b bs heq hab ih =>
    rw [selects_cons_left fun y hy => eq_eq_false (hb.less_all h hab y hy),
      ← ih (List.pairwise_cons.mp ha).2 hb]
    exact mem_ite_cons
  | case5 a as b bs heq hab ih =>
    have hba := less_of_not_eq heq hab
    rw [selects_cons_right fun y hy => by rw [eq_comm]; exact eq_eq_false (ha.less_all h hba y hy),
      ← ih ha (List.pairwise_cons.mp hb).2]
    exact mem_ite_cons

theorem ascending_ite_cons {keep : Bool} {l : List α} (hl : Ascending less l)
    (ha : ∀ y ∈ l, less a y = true) : Ascending less (if keep = true then a :: l else l) := by
  cases keep with
  | false => exact hl
  | true => exact List.pairwise_cons.mpr ⟨ha, hl⟩

theorem walk_ascending (h : StrictWeakOrder less) (ha : Ascending less as)
    (hb : Ascending less bs) : Ascending less (walk less (keeping both onlyA onlyB) as bs) := by
  fun_induction walk less (keeping both onlyA onlyB) as bs with
  | case1 bs =>
    cases onlyB with
    | false => exact List.Pairwise.nil
    | true => exact hb
  | case2 a as =>
    cases onlyA with
    | false => exact List.Pairwise.nil
    | true => exact ha
  | case3 a as b bs heq ih =>
    have ha' := List.pairwise_cons.mp ha
    have hb' := List.pairwise_cons.mp hb
    have heq' : eq less b a = true := by rwa [eq_comm]
    apply ascending_ite_cons (ih ha'.2 hb'.2)
    intro y hy
    rcases mem_of_selects ((mem_walk h ha'.2 hb'.2).mp hy) with hy | hy
    · exact ha'.1 y hy
    · exact h.less_of_eq heq' (hb'.1 y hy)
  | case4 a as b bs heq hab ih =>
    have ha' := List.pairwise_cons.mp ha
    apply ascending_ite_cons (ih ha'.2 hb)
    intro y hy
    rcases mem_of_selects ((mem_walk h ha'.2 hb).mp hy) with hy | hy
    · exact ha'.1 y hy
    · exact hb.less_all h hab y hy
  | case5 a as b bs heq hab ih =>
    have hb' := List.pairwise_cons.mp hb
    apply ascending_ite_cons (ih ha hb'.2)
    intro y hy
    rcases mem_of_selects ((mem_walk h ha hb'.2).mp hy) with hy | hy
    · exact ha.less_all h (less_of_not_eq heq hab) y hy
    · exact hb'.1 y hy

end Selection

theorem union_length_add (as bs : List α) :
    (union less as bs).length + (intersection less as bs).length = as.length + bs.length := by
  rw [intersection_eq_walk, union]
  fun_induction walk less unionWalk as bs with
  | case1 bs => simp [walk, unionWalk, intersectionWalk]
  | case2 a as => simp [walk, unionWalk, intersectionWalk]
  | case3 a as b bs heq ih =>
    rw [walk, if_pos heq]
    simp only [unionWalk, intersectionWalk, List.length_cons] at ih ⊢
    omega
  | case4 a as b bs heq hab ih =>
    rw [walk, if_neg heq, if_pos hab]
    simp only [unionWalk, intersectionWalk, List.length_cons] at ih ⊢
    omega
  | case5 a as b bs heq hab ih =>
    rw [walk, if_neg heq, if_neg hab]
    simp only [unionWalk, intersectionWalk, List.length_cons] at ih ⊢
    omega

theorem mem_union (h : StrictWeakOrder less) {as bs : List α} (ha : Ascending less as)
    (hb : Ascending less bs) {x : α} :
    x ∈ union less as bs ↔ x ∈ as ∨ (x ∈ bs ∧ ∀ a ∈ as, eq less a x = false) := by
  rw [union_eq_keeping, mem_walk h ha hb]
  constructor
  · intro hx
    rcases hx with ⟨-, hx, -⟩ | ⟨-, hx, -⟩ | ⟨-, hx⟩
    · exact Or.inl hx
    · exact Or.inl hx
    · exact Or.inr hx
  · intro hx
    rcases hx with hx | hx
    · by_cases hex : ∃ b ∈ bs, eq less x b = true
      · exact Or.inl ⟨rfl, hx, hex⟩
      · exact Or.inr (Or.inl ⟨rfl, hx, fun b hb => eq_false_of_ne_true fun hxb => hex ⟨b, hb, hxb⟩⟩)
    · exact Or.inr (Or.inr ⟨rfl, hx⟩)

theorem mem_union_equivalent (h : StrictWeakOrder less) {as bs : List α} (ha : Ascending less as)
    (hb : Ascending less bs) {x : α} :
    (∃ y ∈ union less as bs, eq less x y = true) ↔
      (∃ a ∈ as, eq less x a = true) ∨ ∃ b ∈ bs, eq less x b = true := by
  constructor
  · intro hx
    obtain ⟨y, hy, hxy⟩ := hx
    rcases (mem_union h ha hb).mp hy with hy | hy
    · exact Or.inl ⟨y, hy, hxy⟩
    · exact Or.inr ⟨y, hy.1, hxy⟩
  · intro hx
    rcases hx with ⟨a, hmem, hxa⟩ | ⟨b, hmem, hxb⟩
    · exact ⟨a, (mem_union h ha hb).mpr (Or.inl hmem), hxa⟩
    · by_cases hex : ∃ a ∈ as, eq less a b = true
      · obtain ⟨a, hmema, hab⟩ := hex
        exact ⟨a, (mem_union h ha hb).mpr (Or.inl hmema), h.eq_trans hxb (by rwa [eq_comm])⟩
      · refine ⟨b, (mem_union h ha hb).mpr (Or.inr ⟨hmem, fun a hmema => ?_⟩), hxb⟩
        exact eq_false_of_ne_true fun hab => hex ⟨a, hmema, hab⟩

theorem mem_intersection_equivalent (h : StrictWeakOrder less) {as bs : List α}
    (ha : Ascending less as) (hb : Ascending less bs) {x : α} :
    x ∈ intersection less as bs ↔ x ∈ as ∧ ∃ b ∈ bs, eq less x b = true := by
  rw [intersection_eq_keeping, mem_walk h ha hb]
  simp [Selects]

/-- What the code computes under the name of a difference keeps both sides. -/
theorem mem_difference (h : StrictWeakOrder less) {as bs : List α} (ha : Ascending less as)
    (hb : Ascending less bs) {x : α} :
    x ∈ difference less as bs ↔
      (x ∈ as ∧ ∀ b ∈ bs, eq less x b = false) ∨ (x ∈ bs ∧ ∀ a ∈ as, eq less a x = false) := by
  rw [difference_eq_keeping, mem_walk h ha hb]
  simp [Selects]

theorem union_intersection_sorted (h : StrictWeakOrder less) {as bs : List α}
    (ha : Ascending less as) (hb : Ascending less bs) :
    Ascending less (union less as bs) ∧
      (∀ x, (∃ y ∈ union less as bs, eq less x y = true) ↔
        (∃ a ∈ as, eq less x a = true) ∨ ∃ b ∈ bs, eq less x b = true) ∧
      (∀ x, x ∈ union less as bs ↔ x ∈ as ∨ (x ∈ bs ∧ ∀ a ∈ as, eq less a x = false)) ∧
      Ascending less (intersection less as bs) ∧
      (∀ x, x ∈ intersection less as bs ↔ x ∈ as ∧ ∃ b ∈ bs, eq less x b = true) ∧
      (union less as bs).length + (intersection less as bs).length = as.length + bs.length ∧
      ∀ cs ds : List α,
        Template.Yields (templates less) .union [.types cs, .types ds] ⟨union less cs ds, []⟩ ∧
        Template.Yields (templates less) .intersection [.types cs, .types ds]
          ⟨intersection less cs ds, []⟩ ∧
        ∀ name args,
          Template.Reaches (templates less) .union [.types cs, .types ds] name args ∨
            Template.Reaches (templates less) .intersection [.types cs, .types ds] name args →
          ∃! s, Template.MostSpecialised ((templates less).specs name) args s := by
  refine ⟨?_, fun x => mem_union_equivalent h ha hb, fun x => mem_union h ha hb, ?_,
    fun x => mem_intersection_equivalent h ha hb, union_length_add as bs, fun cs ds => ?_⟩
  · rw [union_eq_keeping]
    exact walk_ascending h ha hb
  · rw [intersection_eq_keeping]
    exact walk_ascending h ha hb
  · have hunion : Template.Yields (templates less) .union [.types cs, .types ds]
        ⟨union less cs ds, []⟩ := walk_yields rfl rfl cs ds
    have hinter : Template.Yields (templates less) .intersection [.types cs, .types ds]
        ⟨walk less intersectionWalk cs ds, []⟩ := walk_yields rfl rfl cs ds
    rw [← intersection_eq_walk] at hinter
    refine ⟨hunion, hinter, fun name args hreaches => ?_⟩
    rcases hreaches with hreaches | hreaches
    · obtain ⟨s, hselect⟩ := hunion.reached_select hreaches
      exact Template.existsUnique_of_select hselect
    · obtain ⟨s, hselect⟩ := hinter.reached_select hreaches
      exact Template.existsUnique_of_select hselect

theorem union_intersection_sorted_test :
    (['b'], 0) ∈ union Member.less [(['a'], 0), (['b'], 0)] [(['b'], 1), (['c'], 1)] ∧
      (['b'], 1) ∉ union Member.less [(['a'], 0), (['b'], 0)] [(['b'], 1), (['c'], 1)] ∧
      (['b'], 0) ∈ intersection Member.less [(['a'], 0), (['b'], 0)] [(['b'], 1), (['c'], 1)] := by
  have ha : Ascending Member.less [((['a'] : Key), 0), (['b'], 0)] := by unfold Ascending; decide
  have hb : Ascending Member.less [((['b'] : Key), 1), (['c'], 1)] := by unfold Ascending; decide
  obtain ⟨-, -, hunion, -, hinter, -⟩ :=
    union_intersection_sorted Member.less_strictWeakOrder ha hb
  rw [hunion, hunion, hinter]
  decide

theorem difference_sorted_iff (h : StrictWeakOrder less) {as bs : List α}
    (ha : Ascending less as) (hb : Ascending less bs) :
    (Ascending less (difference less as bs) ∧
      ∀ x, x ∈ difference less as bs ↔ x ∈ as ∧ ∀ b ∈ bs, eq less x b = false) ↔
      ∀ b ∈ bs, ∃ a ∈ as, eq less a b = true := by
  constructor
  · intro hdiff b hmem
    by_contra hnone
    have hfree : ∀ a ∈ as, eq less a b = false := fun a hmema =>
      eq_false_of_ne_true fun hab => hnone ⟨a, hmema, hab⟩
    have hkept : b ∈ difference less as bs := (mem_difference h ha hb).mpr (Or.inr ⟨hmem, hfree⟩)
    have hself := ((hdiff.2 b).mp hkept).2 b hmem
    rw [h.eq_refl] at hself
    exact Bool.noConfusion hself
  · intro hall
    have hascending : Ascending less (difference less as bs) := by
      rw [difference_eq_keeping]
      exact walk_ascending h ha hb
    refine ⟨hascending, fun x => ?_⟩
    rw [mem_difference h ha hb]
    apply or_iff_left
    intro hx
    obtain ⟨a, hmema, hax⟩ := hall x hx.1
    rw [hx.2 a hmema] at hax
    exact Bool.noConfusion hax

theorem difference_sorted_superset :
    Ascending Member.less (difference Member.less [(['a'], 0), (['b'], 0)] [(['b'], 1)]) := by
  have ha : Ascending Member.less [((['a'] : Key), 0), (['b'], 0)] := by unfold Ascending; decide
  have hb : Ascending Member.less [((['b'] : Key), 1)] := by unfold Ascending; decide
  exact ((difference_sorted_iff Member.less_strictWeakOrder ha hb).mpr (by decide)).1

theorem difference_not_subset :
    ¬∀ less : Member ℕ → Member ℕ → Bool, StrictWeakOrder less →
      ∀ as bs : List (Member ℕ), Ascending less as → Ascending less bs →
        Ascending less (difference less as bs) ∧
          ∀ x, x ∈ difference less as bs ↔ x ∈ as ∧ ∀ b ∈ bs, eq less x b = false := by
  intro h
  have hdiff := (h Member.less Member.less_strictWeakOrder [] [(['a'], 0)] List.Pairwise.nil
    (List.pairwise_singleton _ _)).2 (['a'], 0)
  simp [difference, walk, differenceWalk] at hdiff

end V60.Meta
