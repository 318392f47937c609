import V60.SortedSets

/-!
# Conversion of objects

Objects whose members differ in their value types, in the positions that the
sorted member list gives them, and the constructor that copies the members of
another object by name. A member is found by the equality of fixed strings,
which compares the arrays, while sorting compares the texts.
-/

namespace V60

/-- The array of the fixed string that a key, a string literal, makes. -/
def fixedString (key : Key) : List Char := key ++ ['\x00']

def fixedStringEq (val rhs : List Char) : Bool :=
  val.length == rhs.length && (val.zip rhs).all fun c => c.1 == c.2

def stringView (val : List Char) : List Char := val.take (val.length - 1)

theorem stringView_fixedString (key : Key) : stringView (fixedString key) = key := by
  simp [stringView, fixedString]

theorem zip_all_eq {val rhs : List Char} (hlen : val.length = rhs.length) :
    ((val.zip rhs).all fun c => c.1 == c.2) = true ↔ val = rhs := by
  induction val generalizing rhs with
  | nil => simp [List.length_eq_zero_iff.mp hlen.symm]
  | cons c val ih =>
    cases rhs with
    | nil => simp at hlen
    | cons d rhs =>
      rw [List.zip_cons_cons, List.all_cons, Bool.and_eq_true, ih (Nat.succ.inj hlen)]
      simp

theorem fixedStringEq_iff {a b : Key} :
    fixedStringEq (fixedString a) (fixedString b) = true ↔ a = b := by
  rw [fixedStringEq, Bool.and_eq_true, beq_iff_eq]
  constructor
  · intro h
    exact List.append_cancel_right ((zip_all_eq h.1).mp h.2)
  · intro h
    subst h
    exact ⟨rfl, (zip_all_eq rfl).mpr rfl⟩

/-- The sorting of the members compares what the fixed strings hold up to the terminator. -/
theorem memberLess_eq_view (a b : Key) :
    memberLess a b = decide (stringView (fixedString a) < stringView (fixedString b)) := by
  rw [stringView_fixedString, stringView_fixedString, memberLess]

/-- Value types: their values, the value of a new member, and what assignment makes of a value
of another type, where there is one. -/
structure ValueTypes (τ : Type) where
  El : τ → Type
  init : ∀ t, El t
  assign : ∀ s t, Option (El s → El t)
  assign_self : ∀ t, assign t t = some id

variable {τ : Type} {T : ValueTypes τ}

structure ObjectImpl (T : ValueTypes τ) (members : List (Member τ)) where
  values : List (Σ t, T.El t)
  typed : values.map Sigma.fst = members.map Prod.snd

namespace ObjectImpl

/-- The position of a key; none if the assertion on the index fails. -/
def index (members : List (Member τ)) (key : Key) : Option ℕ :=
  let index := Meta.indexOf (fun a b => fixedStringEq (fixedString a) (fixedString b)) key
    (members.map Prod.fst)
  if 0 ≤ index then some index.toNat else none

variable {members others : List (Member τ)}

def empty (members : List (Member τ)) : ObjectImpl T members where
  values := members.map fun m => ⟨m.2, T.init m.2⟩
  typed := by simp [Function.comp_def]

def get (o : ObjectImpl T members) (key : Key) : Option (Σ t, T.El t) :=
  (index members key).bind fun i => o.values[i]?

theorem set_typed (o : ObjectImpl T members) {i : ℕ} {old : Σ t, T.El t}
    (h : o.values[i]? = some old) (v : T.El old.1) :
    (o.values.set i ⟨old.1, v⟩).map Sigma.fst = members.map Prod.snd := by
  obtain ⟨hi, rfl⟩ := List.getElem?_eq_some_iff.mp h
  rw [List.map_set, ← o.typed]
  exact (List.getElem_map Sigma.fst (h := by simpa using hi)) ▸ List.set_getElem_self _

/-- Assignment to the member of a key; none if that is not well formed. -/
def set (o : ObjectImpl T members) (key : Key) (v : Σ t, T.El t) : Option (ObjectImpl T members) :=
  (index members key).bind fun i =>
    match h : o.values[i]? with
    | none => none
    | some old =>
      (T.assign v.1 old.1).map fun f => ⟨o.values.set i ⟨old.1, f v.2⟩, o.set_typed h (f v.2)⟩

def forEachKey {σ : Type} (members : List (Member τ)) (t : σ → Key → Option σ) (s : σ) : Option σ :=
  (members.map Prod.fst).foldlM t s

def forEachMember (o : ObjectImpl T members) : List (Key × Option (Σ t, T.El t)) :=
  (members.map Prod.fst).map fun key => (key, o.get key)

/-- Construction from another object: its copy if the types agree, otherwise a new object whose
members that the other has too are set to those. -/
def convert [DecidableEq τ] (members : List (Member τ)) (rhs : ObjectImpl T others) :
    Option (ObjectImpl T members) :=
  if h : others = members then some ⟨rhs.values, h ▸ rhs.typed⟩
  else
    let common := Meta.intersection Member.less members others
    forEachKey (objectMembers common) (fun o key => (rhs.get key).bind (o.set key)) (empty members)

theorem doIndexOf_spec {α : Type*} {equal : α → α → Bool}
    (hequal : ∀ a b, equal a b = true ↔ a = b) (needle : α) (i : ℕ) (haystack : List α) :
    (∃ j, haystack[j]? = some needle ∧ Meta.doIndexOf equal needle i haystack = i + j + 1) ∨
      (needle ∉ haystack ∧ Meta.doIndexOf equal needle i haystack = 0) := by
  induction haystack generalizing i with
  | nil => exact Or.inr ⟨List.not_mem_nil, rfl⟩
  | cons a haystack ih =>
    rw [Meta.doIndexOf]
    by_cases ha : a = needle
    · rw [if_pos ((hequal a needle).mpr ha)]
      exact Or.inl ⟨0, by rw [ha, List.getElem?_cons_zero], rfl⟩
    · rw [if_neg fun h => ha ((hequal a needle).mp h)]
      rcases ih (i + 1) with ⟨j, hj, heq⟩ | ⟨hmem, heq⟩
      · exact Or.inl ⟨j + 1, by rw [List.getElem?_cons_succ, hj], by omega⟩
      · exact Or.inr ⟨fun h => (List.mem_cons.mp h).elim (fun h => ha h.symm) hmem, heq⟩

theorem index_spec (members : List (Member τ)) (key : Key) :
    (∃ i t, index members key = some i ∧ members[i]? = some (key, t)) ∨
      (key ∉ members.map Prod.fst ∧ index members key = none) := by
  have hequal : ∀ a b : Key, fixedStringEq (fixedString a) (fixedString b) = true ↔ a = b :=
    fun a b => fixedStringEq_iff
  rcases doIndexOf_spec hequal key 0 (members.map Prod.fst) with ⟨j, hj, heq⟩ | ⟨hmem, heq⟩
  · rw [List.getElem?_map] at hj
    obtain ⟨⟨k, t⟩, hm, rfl⟩ := Option.map_eq_some_iff.mp hj
    refine Or.inl ⟨j, t, ?_, hm⟩
    simp [index, Meta.indexOf, heq]
  · refine Or.inr ⟨hmem, ?_⟩
    simp [index, Meta.indexOf, heq]

/-- Where no key is repeated, a member is found at its own position. -/
theorem index_of_mem (hkeys : (members.map Prod.fst).Nodup) {key : Key} {t : τ}
    (h : (key, t) ∈ members) : ∃ i, index members key = some i ∧ members[i]? = some (key, t) := by
  rcases index_spec members key with ⟨i, t', hi, hm⟩ | ⟨hmem, -⟩
  · have hmem' := List.mem_of_getElem? hm
    have heq := List.inj_on_of_nodup_map hkeys h hmem' rfl
    rw [← heq] at hm
    exact ⟨i, hi, hm⟩
  · exact absurd (List.mem_map_of_mem h) hmem

theorem getElem?_values (o : ObjectImpl T members) {i : ℕ} {m : Member τ}
    (h : members[i]? = some m) : ∃ v, o.values[i]? = some ⟨m.2, v⟩ := by
  have htag : (o.values.map Sigma.fst)[i]? = some m.2 := by
    rw [o.typed, List.getElem?_map, h]
    rfl
  rw [List.getElem?_map] at htag
  obtain ⟨⟨t, v⟩, hv, rfl⟩ := Option.map_eq_some_iff.mp htag
  exact ⟨v, hv⟩

theorem get_eq_values (o : ObjectImpl T members) {key : Key} {i : ℕ}
    (h : index members key = some i) : o.get key = o.values[i]? := by
  rw [get, h, Option.bind_some]

theorem get_copy (rhs : ObjectImpl T others) (h : others = members) (key : Key) :
    (⟨rhs.values, h ▸ rhs.typed⟩ : ObjectImpl T members).get key = rhs.get key := by
  subst h
  rfl

theorem exists_get (o : ObjectImpl T members) (hkeys : (members.map Prod.fst).Nodup) {key : Key}
    {t : τ} (h : (key, t) ∈ members) : ∃ v, o.get key = some ⟨t, v⟩ := by
  obtain ⟨i, hi, hm⟩ := index_of_mem hkeys h
  obtain ⟨v, hv⟩ := o.getElem?_values hm
  exact ⟨v, (o.get_eq_values hi).trans hv⟩

theorem get_empty (hkeys : (members.map Prod.fst).Nodup) {key : Key} {t : τ}
    (h : (key, t) ∈ members) : (empty members : ObjectImpl T members).get key =
      some ⟨t, T.init t⟩ := by
  obtain ⟨i, hi, hm⟩ := index_of_mem hkeys h
  rw [get_eq_values _ hi, empty, List.getElem?_map, hm]
  rfl

theorem set_eq (o : ObjectImpl T members) {key : Key} {i : ℕ} (hi : index members key = some i)
    {s : τ} {old : Σ t, T.El t} (hold : o.values[i]? = some old) {f : T.El s → T.El old.1}
    (hf : T.assign s old.1 = some f) (v : T.El s) :
    o.set key ⟨s, v⟩ = some ⟨o.values.set i ⟨old.1, f v⟩, o.set_typed hold (f v)⟩ := by
  rw [set, hi, Option.bind_some]
  split
  · rename_i hnone
    rw [hold] at hnone
    cases hnone
  · rename_i old' hold'
    obtain rfl := Option.some.inj (hold.symm.trans hold')
    simp [hf]

/-- Setting a member is well formed if its type can be assigned to, and it changes no other. -/
theorem set_spec (o : ObjectImpl T members) (hkeys : (members.map Prod.fst).Nodup) {key : Key}
    {s t : τ} (h : (key, t) ∈ members) {f : T.El s → T.El t} (hf : T.assign s t = some f)
    (v : T.El s) :
    ∃ o', o.set key ⟨s, v⟩ = some o' ∧ o'.get key = some ⟨t, f v⟩ ∧
      ∀ j, j ≠ key → o'.get j = o.get j := by
  obtain ⟨i, hi, hm⟩ := index_of_mem hkeys h
  obtain ⟨old, hold⟩ := o.getElem?_values hm
  have hlt : i < o.values.length := (List.getElem?_eq_some_iff.mp hold).1
  refine ⟨_, o.set_eq hi hold hf v, ?_, fun j hj => ?_⟩
  · rw [get_eq_values _ hi]
    exact List.getElem?_set_self hlt
  · rcases index_spec members j with ⟨k, t', hk, hmk⟩ | ⟨-, hnone⟩
    · have hik : i ≠ k := by
        intro heq
        rw [heq, hmk] at hm
        exact hj (congrArg Prod.fst (Option.some.inj hm))
      rw [get_eq_values _ hk, get_eq_values _ hk]
      exact List.getElem?_set_ne hik
    · rw [get, get, hnone]
      rfl

/-- The member of `a` is what assigning that of `rhs` to it leaves. -/
def Copied (rhs : ObjectImpl T others) (a : ObjectImpl T members) (key : Key) (s t : τ) : Prop :=
  ∃ v f, rhs.get key = some ⟨s, v⟩ ∧ T.assign s t = some f ∧ a.get key = some ⟨t, f v⟩

theorem forEach_set (hmembers : (members.map Prod.fst).Nodup)
    (hothers : (others.map Prod.fst).Nodup)
    (hassign : ∀ key s t, (key, t) ∈ members → (key, s) ∈ others → ∃ f, T.assign s t = some f)
    (rhs : ObjectImpl T others) (keys : List Key)
    (hkeys : ∀ key ∈ keys, ∃ s t, (key, t) ∈ members ∧ (key, s) ∈ others)
    (o : ObjectImpl T members) :
    ∃ a, keys.foldlM (fun o key => (rhs.get key).bind (o.set key)) o = some a ∧
      (∀ key ∈ keys, ∀ s t, (key, t) ∈ members → (key, s) ∈ others → Copied rhs a key s t) ∧
      ∀ key ∉ keys, a.get key = o.get key := by
  induction keys generalizing o with
  | nil => exact ⟨o, rfl, fun key h => absurd h List.not_mem_nil, fun key _ => rfl⟩
  | cons key keys ih =>
    obtain ⟨s, t, ht, hs⟩ := hkeys key List.mem_cons_self
    obtain ⟨f, hf⟩ := hassign key s t ht hs
    obtain ⟨v, hv⟩ := rhs.exists_get hothers hs
    obtain ⟨o', hset, hget, hframe⟩ := o.set_spec hmembers ht hf v
    obtain ⟨a, hfold, hcopied, hrest⟩ := ih (fun k hk => hkeys k (List.mem_cons_of_mem key hk)) o'
    refine ⟨a, ?_, fun k hk s' t' ht' hs' => ?_, fun k hk => ?_⟩
    · rw [List.foldlM_cons, hv, Option.bind_some, hset]
      exact hfold
    · by_cases hlater : k ∈ keys
      · exact hcopied k hlater s' t' ht' hs'
      · obtain rfl := (List.mem_cons.mp hk).resolve_right hlater
        obtain rfl : s = s' := congrArg Prod.snd (List.inj_on_of_nodup_map hothers hs hs' rfl)
        obtain rfl : t = t' := congrArg Prod.snd (List.inj_on_of_nodup_map hmembers ht ht' rfl)
        exact ⟨v, f, hv, hf, (hrest k hlater).trans hget⟩
    · rw [hrest k fun h => hk (List.mem_cons_of_mem key h)]
      exact hframe k fun h => hk (h ▸ List.mem_cons_self)

end ObjectImpl

theorem mem_objectMembers {members : List (Member τ)} {m : Member τ} :
    m ∈ objectMembers members ↔ m ∈ members :=
  Meta.mem_sortList

theorem objectMembers_keys (members : List (Member τ)) :
    ((objectMembers members).map Prod.fst).Perm (members.map Prod.fst) :=
  (Meta.sortList_perm members).map Prod.fst

theorem objectMembers_ascending {members : List (Member τ)}
    (h : (members.map Prod.fst).Nodup) :
    Meta.Ascending Member.less (objectMembers members) := by
  have hnodup := (objectMembers_keys members).nodup_iff.mpr h
  have hsorted := Meta.sortList_sorted Member.less_strictWeakOrder members
  apply (hsorted.and (pairwise_not_eq hnodup)).imp
  intro a b hab
  by_contra hless
  rw [Meta.eq, hab.1, eq_false_of_ne_true hless] at hab
  exact Bool.noConfusion hab.2

theorem Member.eq_iff {a b : Member τ} : Meta.eq Member.less a b = true ↔ a.1 = b.1 := by
  constructor
  · exact memberLess_trichotomous a.1 b.1
  · intro h
    have hself := memberLess_strictWeakOrder.eq_refl a.1
    rwa [show Meta.eq Member.less a b = Meta.eq memberLess a.1 b.1 from rfl, ← h]

theorem mem_common_keys {as bs : List (Member τ)} (ha : (as.map Prod.fst).Nodup)
    (hb : (bs.map Prod.fst).Nodup) {key : Key} :
    key ∈ (objectMembers (Meta.intersection Member.less (objectMembers as)
        (objectMembers bs))).map Prod.fst ↔
      ∃ s t, (key, t) ∈ as ∧ (key, s) ∈ bs := by
  have hinter : ∀ m, m ∈ Meta.intersection Member.less (objectMembers as) (objectMembers bs) ↔
      m ∈ as ∧ ∃ b ∈ bs, m.1 = b.1 := by
    intro m
    rw [Meta.mem_intersection_equivalent Member.less_strictWeakOrder (objectMembers_ascending ha)
      (objectMembers_ascending hb)]
    simp only [mem_objectMembers, Member.eq_iff]
  rw [List.mem_map]
  constructor
  · intro h
    obtain ⟨⟨k, t⟩, hm, rfl⟩ := h
    obtain ⟨hmem, ⟨k', s⟩, hs, heq⟩ := (hinter _).mp (mem_objectMembers.mp hm)
    simp only at heq
    subst heq
    exact ⟨s, t, hmem, hs⟩
  · intro h
    obtain ⟨s, t, ht, hs⟩ := h
    exact ⟨(key, t), mem_objectMembers.mpr ((hinter _).mpr ⟨ht, (key, s), hs, rfl⟩), rfl⟩

theorem forEachMember_ascending {as : List (Member τ)} (ha : (as.map Prod.fst).Nodup)
    (a : ObjectImpl T (objectMembers as)) :
    (a.forEachMember.map Prod.fst).Pairwise (· < ·) ∧
      (a.forEachMember.map Prod.fst).Perm (as.map Prod.fst) := by
  have hkeys : a.forEachMember.map Prod.fst = (objectMembers as).map Prod.fst := by
    rw [ObjectImpl.forEachMember, List.map_map]
    exact List.map_id _
  rw [hkeys]
  refine ⟨List.pairwise_map.mpr ((objectMembers_ascending ha).imp fun {m n} hmn => ?_),
    objectMembers_keys as⟩
  exact of_decide_eq_true hmn

theorem convert_common [DecidableEq τ] (T : ValueTypes τ) {as bs : List (Member τ)}
    (ha : (as.map Prod.fst).Nodup) (hb : (bs.map Prod.fst).Nodup)
    (hassign : ∀ key s t, (key, t) ∈ as → (key, s) ∈ bs → ∃ f, T.assign s t = some f)
    (b : ObjectImpl T (objectMembers bs)) :
    ∃ a : ObjectImpl T (objectMembers as), ObjectImpl.convert (objectMembers as) b = some a ∧
      (∀ key s t, (key, t) ∈ as → (key, s) ∈ bs → ObjectImpl.Copied b a key s t) ∧
      ∀ key t, (key, t) ∈ as → key ∉ bs.map Prod.fst → a.get key = some ⟨t, T.init t⟩ := by
  have hmembers := (objectMembers_keys as).nodup_iff.mpr ha
  have hothers := (objectMembers_keys bs).nodup_iff.mpr hb
  by_cases heq : objectMembers bs = objectMembers as
  · refine ⟨⟨b.values, heq ▸ b.typed⟩, dif_pos heq, fun key s t ht hs => ?_,
      fun key t ht hnot => ?_⟩
    · obtain ⟨v, hv⟩ := b.exists_get hothers (mem_objectMembers.mpr hs)
      have hs' : (key, s) ∈ as := mem_objectMembers.mp (heq ▸ mem_objectMembers.mpr hs)
      obtain rfl : s = t := congrArg Prod.snd (List.inj_on_of_nodup_map ha hs' ht rfl)
      refine ⟨v, id, hv, T.assign_self s, ?_⟩
      exact (b.get_copy heq key).trans hv
    · have ht' : (key, t) ∈ bs := mem_objectMembers.mp (heq ▸ mem_objectMembers.mpr ht)
      exact absurd (List.mem_map_of_mem ht') hnot
  · obtain ⟨a, hfold, hcopied, hrest⟩ := ObjectImpl.forEach_set hmembers hothers
      (fun key s t ht hs => hassign key s t (mem_objectMembers.mp ht) (mem_objectMembers.mp hs)) b
      _ (fun key hkey => by
        obtain ⟨s, t, ht, hs⟩ := (mem_common_keys ha hb).mp hkey
        exact ⟨s, t, mem_objectMembers.mpr ht, mem_objectMembers.mpr hs⟩)
      (ObjectImpl.empty (objectMembers as))
    refine ⟨a, (dif_neg heq).trans hfold, fun key s t ht hs => ?_, fun key t ht hnot => ?_⟩
    · exact hcopied key ((mem_common_keys ha hb).mpr ⟨s, t, ht, hs⟩) s t
        (mem_objectMembers.mpr ht) (mem_objectMembers.mpr hs)
    · rw [hrest key fun hkey => ?_]
      · exact ObjectImpl.get_empty hmembers (mem_objectMembers.mpr ht)
      · obtain ⟨s, -, -, hs⟩ := (mem_common_keys ha hb).mp hkey
        exact hnot (List.mem_map_of_mem hs)

/-- Conversion copies the common members and initialises the others; setting a member leaves
the others alone, and the members are visited once each, in the order of their keys. -/
theorem object_conversion [DecidableEq τ] (T : ValueTypes τ) {as bs : List (Member τ)}
    (ha : (as.map Prod.fst).Nodup) (hb : (bs.map Prod.fst).Nodup)
    (hassign : ∀ key s t, (key, t) ∈ as → (key, s) ∈ bs → ∃ f, T.assign s t = some f)
    (b : ObjectImpl T (objectMembers bs)) :
    (∃ a : ObjectImpl T (objectMembers as), ObjectImpl.convert (objectMembers as) b = some a ∧
      (∀ key s t, (key, t) ∈ as → (key, s) ∈ bs → ∃ v f, b.get key = some ⟨s, v⟩ ∧
        T.assign s t = some f ∧ a.get key = some ⟨t, f v⟩) ∧
      (∀ key t, (key, t) ∈ as → (key, t) ∈ bs → a.get key = b.get key) ∧
      ∀ key t, (key, t) ∈ as → key ∉ bs.map Prod.fst → a.get key = some ⟨t, T.init t⟩) ∧
      ∀ a : ObjectImpl T (objectMembers as),
        (∀ key s t f v, (key, t) ∈ as → T.assign s t = some f →
          ∃ a', a.set key ⟨s, v⟩ = some a' ∧ a'.get key = some ⟨t, f v⟩ ∧
            ∀ j, j ≠ key → a'.get j = a.get j) ∧
        (a.forEachMember.map Prod.fst).Pairwise (· < ·) ∧
        (a.forEachMember.map Prod.fst).Perm (as.map Prod.fst) ∧
        ∀ call ∈ a.forEachMember, call.2 = a.get call.1 ∧ call.2.isSome := by
  have hmembers := (objectMembers_keys as).nodup_iff.mpr ha
  obtain ⟨a, hconvert, hcopied, hinit⟩ := convert_common T ha hb hassign b
  refine ⟨⟨a, hconvert, hcopied, fun key t ht hs => ?_, hinit⟩, fun a =>
    ⟨fun key s t f v ht hf => ?_, (forEachMember_ascending ha a).1,
      (forEachMember_ascending ha a).2, fun call hcall => ?_⟩⟩
  · obtain ⟨v, f, hv, hf, hget⟩ := hcopied key t t ht hs
    rw [T.assign_self] at hf
    obtain rfl := Option.some.inj hf
    exact hget.trans hv.symm
  · exact a.set_spec hmembers (mem_objectMembers.mpr ht) hf v
  · obtain ⟨key, hkey, rfl⟩ := List.mem_map.mp hcall
    obtain ⟨⟨k, t⟩, hm, rfl⟩ := List.mem_map.mp hkey
    obtain ⟨v, hv⟩ := a.exists_get hmembers hm
    exact ⟨rfl, Option.isSome_iff_exists.mpr ⟨_, hv⟩⟩

inductive TestValue
  | text | number
  deriving DecidableEq

def testValues : ValueTypes TestValue where
  El
    | .text => List Char
    | .number => ℤ
  init
    | .text => []
    | .number => (0 : ℤ)
  assign
    | .text, .text => some id
    | .number, .number => some id
    | _, _ => none
  assign_self t := by cases t <;> rfl

theorem object_conversion_name :
    ∃ (b : ObjectImpl testValues (objectMembers [(['n'], .text)]))
      (a : ObjectImpl testValues (objectMembers [(['n'], .text), (['a'], .number)])),
      ObjectImpl.convert _ b = some a ∧ b.get ['n'] = some ⟨.text, (['v'] : List Char)⟩ ∧
        a.get ['n'] = some ⟨.text, (['v'] : List Char)⟩ ∧
        a.get ['a'] = some ⟨.number, (0 : ℤ)⟩ := by
  have htyped : [TestValue.text] =
      (objectMembers [((['n'] : Key), TestValue.text)]).map Prod.snd := by
    simp [objectMembers, Meta.sortList]
  let b : ObjectImpl testValues (objectMembers [(['n'], .text)]) :=
    ⟨[⟨.text, (['v'] : List Char)⟩], htyped⟩
  have hb : b.get ['n'] = some ⟨.text, (['v'] : List Char)⟩ := by
    have hindex : ObjectImpl.index (objectMembers [((['n'] : Key), TestValue.text)]) ['n'] =
        some 0 := by
      simp [ObjectImpl.index, objectMembers, Meta.sortList, Meta.indexOf, Meta.doIndexOf,
        fixedStringEq_iff]
    rw [ObjectImpl.get_eq_values b hindex]
    rfl
  have hassign : ∀ key s t, (key, t) ∈ [((['n'] : Key), TestValue.text), (['a'], .number)] →
      (key, s) ∈ [((['n'] : Key), TestValue.text)] → ∃ f, testValues.assign s t = some f := by
    intro key s t ht hs
    obtain ⟨rfl, rfl⟩ := Prod.mk.inj (List.mem_singleton.mp hs)
    rcases List.mem_cons.mp ht with h | h
    · obtain ⟨-, rfl⟩ := Prod.mk.inj h
      exact ⟨id, rfl⟩
    · exact absurd (Prod.mk.inj (List.mem_singleton.mp h)).1 (by decide)
  obtain ⟨⟨a, hconvert, -, hcopy, hinit⟩, -⟩ :=
    object_conversion testValues (by decide) (by decide) hassign b
  refine ⟨b, a, hconvert, hb, ?_, ?_⟩
  · rw [hcopy ['n'] .text (by simp) (by simp), hb]
  · exact hinit ['a'] .number (by simp) (by decide)

end V60
