import V60.Conversion

/-!
# Conversion through another object

A request's parameters are converted at every binding, each time to a larger
object. A detour through an object that has what is wanted loses nothing, and
one through an object that has not gives the initial value instead
(`object_detour_iff`).
-/

namespace V60

variable {τ : Type} {T : ValueTypes τ}

/-- Members of one key have one type. -/
def Compatible (as bs : List (Member τ)) : Prop :=
  ∀ key s t, (key, t) ∈ as → (key, s) ∈ bs → s = t

theorem compatible_iff {as bs : List (Member τ)} :
    Compatible as bs ↔ ∀ m ∈ as, ∀ m' ∈ bs, m.1 = m'.1 → m'.2 = m.2 := by
  constructor
  · intro h m hm m' hm' hkey
    exact h m.1 m'.2 m.2 hm (hkey ▸ hm')
  · intro h key s t ht hs
    exact h (key, t) ht (key, s) hs rfl

instance [DecidableEq τ] (as bs : List (Member τ)) : Decidable (Compatible as bs) :=
  decidable_of_iff _ compatible_iff.symm

namespace ObjectImpl

theorem index_getElem {members : List (Member τ)} (hkeys : (members.map Prod.fst).Nodup) {i : ℕ}
    (hi : i < members.length) : index members members[i].1 = some i := by
  have hmem : (members[i].1, members[i].2) ∈ members := List.getElem_mem hi
  obtain ⟨j, hj, hm⟩ := index_of_mem hkeys hmem
  obtain ⟨hlt, heq⟩ := List.getElem?_eq_some_iff.mp hm
  have hij : j = i := (hkeys.of_map _).getElem_inj_iff.mp heq
  rw [hj, hij]

theorem length_values {members : List (Member τ)} (o : ObjectImpl T members) :
    o.values.length = members.length := by
  have hlen := congrArg List.length o.typed
  rwa [List.length_map, List.length_map] at hlen

/-- An object is what `get` says of its members. -/
theorem ext_get {members : List (Member τ)} (hkeys : (members.map Prod.fst).Nodup)
    {o o' : ObjectImpl T members} (h : ∀ key t, (key, t) ∈ members → o.get key = o'.get key) :
    o = o' := by
  have hvalues : o.values = o'.values := by
    apply List.ext_getElem?
    intro i
    by_cases hi : i < members.length
    · have hindex := index_getElem hkeys hi
      rw [← o.get_eq_values hindex, ← o'.get_eq_values hindex]
      exact h _ _ (List.getElem_mem hi)
    · have hlen := o.length_values
      have hlen' := o'.length_values
      rw [List.getElem?_eq_none (by omega), List.getElem?_eq_none (by omega)]
  cases o
  cases o'
  subst hvalues
  rfl

end ObjectImpl

section Detour

variable [DecidableEq τ] {as bs cs : List (Member τ)}

/-- Between compatible objects the common members are copied as they are. -/
theorem convert_compatible (ha : (as.map Prod.fst).Nodup) (hb : (bs.map Prod.fst).Nodup)
    (hab : Compatible as bs) (b : ObjectImpl T (objectMembers bs)) :
    ∃ a : ObjectImpl T (objectMembers as), ObjectImpl.convert (objectMembers as) b = some a ∧
      ∀ key t, (key, t) ∈ as →
        a.get key = if key ∈ bs.map Prod.fst then b.get key else some ⟨t, T.init t⟩ := by
  have hassign : ∀ key s t, (key, t) ∈ as → (key, s) ∈ bs → ∃ f, T.assign s t = some f := by
    intro key s t ht hs
    obtain rfl := hab key s t ht hs
    exact ⟨id, T.assign_self s⟩
  obtain ⟨a, hconvert, hcopied, hinit⟩ := convert_common T ha hb hassign b
  refine ⟨a, hconvert, ?_⟩
  intro key t ht
  split_ifs with hkey
  · obtain ⟨⟨k, s⟩, hs, rfl⟩ := List.mem_map.mp hkey
    obtain ⟨v, f, hv, hf, hget⟩ := hcopied k s t ht hs
    obtain rfl := hab k s t ht hs
    rw [T.assign_self] at hf
    obtain rfl := Option.some.inj hf
    exact hget.trans hv.symm
  · exact hinit key t ht hkey

/-- What is converted to an object with all of its members and back is what it was. -/
theorem convert_widened (ha : (as.map Prod.fst).Nodup) (hb : (bs.map Prod.fst).Nodup)
    (hab : Compatible as bs) (hba : Compatible bs as) (hwide : as.map Prod.fst ⊆ bs.map Prod.fst)
    (a : ObjectImpl T (objectMembers as)) :
    ∃ b, ObjectImpl.convert (objectMembers bs) a = some b ∧
      ObjectImpl.convert (objectMembers as) b = some a := by
  obtain ⟨b, hbconvert, hbget⟩ := convert_compatible hb ha hba a
  obtain ⟨a', haconvert, haget⟩ := convert_compatible ha hb hab b
  refine ⟨b, hbconvert, haconvert.trans (congrArg some ?_)⟩
  apply ObjectImpl.ext_get ((objectMembers_keys as).nodup_iff.mpr ha)
  intro key t ht
  rw [mem_objectMembers] at ht
  have hkey : key ∈ as.map Prod.fst := List.mem_map_of_mem ht
  obtain ⟨⟨k, s⟩, hs, rfl⟩ := List.mem_map.mp (hwide hkey)
  rw [haget k t ht, if_pos (hwide hkey), hbget k s hs, if_pos hkey]

/-- The detour gives what the direct conversion gives exactly when every member it drops on the
way had its initial value. -/
theorem object_detour_iff (T : ValueTypes τ) (ha : (as.map Prod.fst).Nodup)
    (hb : (bs.map Prod.fst).Nodup) (hc : (cs.map Prod.fst).Nodup) (hab : Compatible as bs)
    (hbc : Compatible bs cs) (hac : Compatible as cs) (c : ObjectImpl T (objectMembers cs)) :
    ∃ b a a', ObjectImpl.convert (objectMembers bs) c = some b ∧
      ObjectImpl.convert (objectMembers as) b = some a ∧
      ObjectImpl.convert (objectMembers as) c = some a' ∧
      (a = a' ↔ ∀ key t, (key, t) ∈ as → (key, t) ∈ cs → key ∉ bs.map Prod.fst →
        c.get key = some ⟨t, T.init t⟩) := by
  obtain ⟨b, hbconvert, hbget⟩ := convert_compatible hb hc hbc c
  obtain ⟨a, haconvert, haget⟩ := convert_compatible ha hb hab b
  obtain ⟨a', ha'convert, ha'get⟩ := convert_compatible ha hc hac c
  refine ⟨b, a, a', hbconvert, haconvert, ha'convert, ?_⟩
  constructor
  · intro heq key t ht hs hkey
    have hget := haget key t ht
    have hget' := ha'get key t ht
    rw [if_neg hkey] at hget
    rw [if_pos (List.mem_map_of_mem hs)] at hget'
    rw [← hget', ← heq, hget]
  · intro hdropped
    apply ObjectImpl.ext_get ((objectMembers_keys as).nodup_iff.mpr ha)
    intro key t ht
    rw [mem_objectMembers] at ht
    rw [haget key t ht, ha'get key t ht]
    by_cases hkey : key ∈ bs.map Prod.fst
    · obtain ⟨⟨k, s⟩, hs, rfl⟩ := List.mem_map.mp hkey
      obtain rfl := hab k s t ht hs
      rw [if_pos hkey, hbget k s hs]
    · rw [if_neg hkey]
      split_ifs with hmem
      · obtain ⟨⟨k, s⟩, hs, rfl⟩ := List.mem_map.mp hmem
        obtain rfl := hac k s t ht hs
        exact (hdropped k s ht hs hkey).symm
      · rfl

end Detour

/-- Two texts are dropped on the way through a number: once they have their initial values, once
one of them has another. -/
theorem object_detour_iff_text :
    let all : List (Member TestValue) := [(['a'], .text), (['b'], .text), (['n'], .number)]
    let number : List (Member TestValue) := [(['n'], .number)]
    let texts : List (Member TestValue) := [(['a'], .text), (['b'], .text)]
    ∃ c c' : ObjectImpl testValues (objectMembers all),
      (∃ b a, ObjectImpl.convert (objectMembers number) c = some b ∧
        ObjectImpl.convert (objectMembers texts) b = some a ∧
        ObjectImpl.convert (objectMembers texts) c = some a) ∧
      ∃ b a a', ObjectImpl.convert (objectMembers number) c' = some b ∧
        ObjectImpl.convert (objectMembers texts) b = some a ∧
        ObjectImpl.convert (objectMembers texts) c' = some a' ∧ a ≠ a' := by
  intro all number texts
  have hall : (all.map Prod.fst).Nodup := by decide
  have hmembers := (objectMembers_keys all).nodup_iff.mpr hall
  have hdetour := @object_detour_iff _ _ texts number all testValues (by decide) (by decide) hall
    (by decide) (by decide) (by decide)
  have hnumber : testValues.assign .number .number = some id := rfl
  have htext : testValues.assign .text .text = some id := rfl
  obtain ⟨c, -, -, hc⟩ := (ObjectImpl.empty (objectMembers all)).set_spec hmembers
    (mem_objectMembers.mpr (by decide : (['n'], .number) ∈ all)) hnumber (7 : ℤ)
  obtain ⟨c', -, hc', -⟩ := c.set_spec hmembers
    (mem_objectMembers.mpr (by decide : (['a'], .text) ∈ all)) htext (['v'] : List Char)
  refine ⟨c, c', ?_, ?_⟩
  · obtain ⟨b, a, a', hb, ha, ha', hiff⟩ := hdetour c
    have hsame : a = a' := hiff.mpr fun key t _ ht hkey => by
      rw [hc key fun h => hkey (h ▸ by decide)]
      exact ObjectImpl.get_empty hmembers (mem_objectMembers.mpr ht)
    exact ⟨b, a, hb, ha, hsame ▸ ha'⟩
  · obtain ⟨b, a, a', hb, ha, ha', hiff⟩ := hdetour c'
    refine ⟨b, a, a', hb, ha, ha', fun hsame => ?_⟩
    have hinit := hiff.mp hsame ['a'] .text (by decide) (by decide) (by decide)
    rw [hc'] at hinit
    cases hinit

end V60
