import V60.Conversion
import V60.Middleware

/-!
# Objects of one value type

The members of parameters and cookies are all texts. An `Object` of them stands
for the tuple that the member types make (`Object.Represents`): reading, setting
and construction from another object come to the same, repeated keys included,
and with them the parameters and the cookies that a request is given.
-/

namespace V60

namespace Meta

variable {α β : Type*} (f : α → β) (less : β → β → Bool)

theorem map_merge (as bs : List α) :
    (merge (fun a b => less (f a) (f b)) as bs).map f = merge less (as.map f) (bs.map f) := by
  fun_induction merge (fun a b => less (f a) (f b)) as bs with
  | case1 bs => rw [List.map_nil, merge]
  | case2 a as => rw [List.map_cons, List.map_nil, merge]
  | case3 a as b bs hless ih =>
    rw [List.map_cons, ih, List.map_cons, List.map_cons, merge, if_pos hless]
  | case4 a as b bs hless ih =>
    rw [List.map_cons, ih, List.map_cons, List.map_cons, merge, if_neg hless]

theorem map_sortList (l : List α) :
    (sortList (fun a b => less (f a) (f b)) l).map f = sortList less (l.map f) := by
  fun_induction sortList (fun a b => less (f a) (f b)) l with
  | case1 => rw [List.map_nil, sortList]
  | case2 a => rw [List.map_singleton, sortList]
  | case3 a b hless => simp [sortList, hless]
  | case4 a b hless => simp [sortList, hless]
  | case5 a b c l types split ih₁ ih₂ =>
    rw [map_merge, ih₁, ih₂]
    simp [sortList, split, types, take, List.splitAt_eq, List.map_take, List.map_drop]

theorem map_intersection (as bs : List α) :
    (intersection (fun a b => less (f a) (f b)) as bs).map f =
      intersection less (as.map f) (bs.map f) := by
  fun_induction intersection (fun a b => less (f a) (f b)) as bs with
  | case1 bs => rw [List.map_nil, intersection]
  | case2 a as => rw [List.map_cons, List.map_nil, intersection]
  | case3 a as b bs heq ih =>
    have heq' : eq less (f a) (f b) = true := heq
    rw [List.map_cons, ih, List.map_cons, List.map_cons, intersection, if_pos heq']
  | case4 a as b bs hne hless ih =>
    have hne' : ¬eq less (f a) (f b) = true := hne
    rw [ih, List.map_cons, List.map_cons, intersection, if_neg hne', if_pos hless]
  | case5 a as b bs hne hless ih =>
    have hne' : ¬eq less (f a) (f b) = true := hne
    rw [ih, List.map_cons, List.map_cons, intersection, if_neg hne', if_neg hless]

end Meta

/-! ## Tuples of one type -/

def uniform (V : Type) [Inhabited V] : ValueTypes Unit where
  El _ := V
  init _ := default
  assign _ _ := some id
  assign_self _ := rfl

/-- The member list of an object type with these keys. -/
def uniformMembers (keys : List Key) : List (Member Unit) := objectMembers (keys.map (·, ()))

theorem uniformMembers_keys (keys : List Key) :
    (uniformMembers keys).map Prod.fst = Meta.sortList memberLess keys := by
  have hkeys : (keys.map (·, ())).map Prod.fst = keys := by simp [Function.comp_def]
  have hsort := Meta.map_sortList Prod.fst memberLess (keys.map (·, ()))
  rw [hkeys] at hsort
  exact hsort

theorem eq_of_keys {members others : List (Member Unit)}
    (h : members.map Prod.fst = others.map Prod.fst) : members = others := by
  apply List.map_injective_iff.mpr _ h
  intro m m' hkey
  exact Prod.ext hkey rfl

variable {V : Type} [Inhabited V]

def uniformValue (m : Key × V) : Σ t, (uniform V).El t := ⟨(), m.2⟩

namespace ObjectImpl

/-- The index of a key is that of its first occurrence. -/
theorem index_eq_idxOf? {τ : Type} (members : List (Member τ)) (key : Key) :
    index members key = (members.map Prod.fst).idxOf? key := by
  have hindex : ∀ (i : ℕ) (keys : List Key),
      Meta.doIndexOf (fun a b => fixedStringEq (fixedString a) (fixedString b)) key i keys =
        ((keys.idxOf? key).map (i + · + 1)).getD 0 := by
    intro i keys
    induction keys generalizing i with
    | nil => rfl
    | cons k keys ih =>
      rw [Meta.doIndexOf, List.idxOf?_cons]
      by_cases hk : k = key
      · rw [if_pos (fixedStringEq_iff.mpr hk), if_pos (beq_iff_eq.mpr hk)]
        rfl
      · rw [if_neg fun h => hk (fixedStringEq_iff.mp h), if_neg fun h => hk (beq_iff_eq.mp h), ih,
          Option.map_map]
        congr 2
        funext j
        simp only [Function.comp_apply]
        omega
  simp only [index, Meta.indexOf, hindex]
  cases (members.map Prod.fst).idxOf? key with
  | none => rfl
  | some j => simp

end ObjectImpl

theorem bind_idxOf? (ms : List (Key × V)) (key : Key) :
    ((ms.map Prod.fst).idxOf? key).bind (fun i => (ms.map uniformValue)[i]?) =
      (ms.lookup key).map fun v => ⟨(), v⟩ := by
  induction ms with
  | nil => rfl
  | cons m ms ih =>
    obtain ⟨k, v⟩ := m
    rw [List.map_cons, List.idxOf?_cons, List.lookup_cons]
    by_cases hk : k = key
    · rw [if_pos (beq_iff_eq.mpr hk), beq_iff_eq.mpr hk.symm]
      rfl
    · rw [if_neg fun h => hk (beq_iff_eq.mp h), beq_eq_false_iff_ne.mpr (Ne.symm hk), ← ih,
        Option.bind_map]
      rfl

theorem set_idxOf? {ms : List (Key × V)} {key : Key} {i : ℕ}
    (h : (ms.map Prod.fst).idxOf? key = some i) (v : V) :
    (ms.map uniformValue).set i ⟨(), v⟩ = (Object.setFirst key v ms).map uniformValue := by
  induction ms generalizing i with
  | nil => cases h
  | cons m ms ih =>
    rw [List.map_cons, List.idxOf?_cons] at h
    rw [Object.setFirst]
    by_cases hk : m.1 = key
    · rw [if_pos (beq_iff_eq.mpr hk)] at h
      obtain rfl := Option.some.inj h
      rw [if_pos hk]
      rfl
    · rw [if_neg fun h => hk (beq_iff_eq.mp h)] at h
      obtain ⟨j, hj, rfl⟩ := Option.map_eq_some_iff.mp h
      rw [if_neg hk, List.map_cons, List.set_cons_succ, ih hj, List.map_cons]

namespace Object

variable {o rhs : Object V} {members others : List (Member Unit)}
  {impl : ObjectImpl (uniform V) members} {rhsImpl : ObjectImpl (uniform V) others}

/-- The object has the keys and the values of the tuple. -/
structure Represents (o : Object V) {members : List (Member Unit)}
    (impl : ObjectImpl (uniform V) members) : Prop where
  keys : o.keys = members.map Prod.fst
  values : impl.values = o.members.map uniformValue

theorem represents_ofKeys (keys : List Key) :
    (ofKeys keys : Object V).Represents (ObjectImpl.empty (uniformMembers keys)) := by
  have hkeys : (ofKeys keys : Object V).keys = (uniformMembers keys).map Prod.fst := by
    rw [keys_ofKeys, uniformMembers_keys]
  have hvalues : ((Meta.sortList memberLess keys).map (·, default)).map uniformValue =
      (uniformMembers keys).map fun m => ⟨m.2, (uniform V).init m.2⟩ := by
    rw [← uniformMembers_keys, List.map_map, List.map_map]
    rfl
  exact ⟨hkeys, hvalues.symm⟩

theorem Represents.get (h : o.Represents impl) (key : Key) :
    impl.get key = (o.get key).map fun v => ⟨(), v⟩ := by
  rw [ObjectImpl.get, ObjectImpl.index_eq_idxOf?, ← h.keys, h.values]
  exact bind_idxOf? o.members key

theorem Represents.set (h : o.Represents impl) {key : Key} (hkey : key ∈ o.keys) (v : V) :
    ∃ impl', impl.set key ⟨(), v⟩ = some impl' ∧ (o.set key v).Represents impl' := by
  obtain ⟨i, hi⟩ := Option.isSome_iff_exists.mp (List.isSome_idxOf?.mpr hkey)
  have hindex : ObjectImpl.index members key = some i := by
    rw [ObjectImpl.index_eq_idxOf?, ← h.keys, hi]
  obtain ⟨hlt, -, -⟩ := List.idxOf?_eq_some_iff.mp hi
  rw [Object.keys, List.length_map] at hlt
  have hold : impl.values[i]? = some (uniformValue o.members[i]) := by
    rw [h.values, List.getElem?_map, List.getElem?_eq_getElem hlt]
    rfl
  have hvalues : impl.values.set i ⟨(), v⟩ = (setFirst key v o.members).map uniformValue := by
    rw [h.values, set_idxOf? hi]
  exact ⟨_, impl.set_eq hindex hold rfl v, (keys_set o key v).trans h.keys, hvalues⟩

/-- Members that are set one after the other. -/
theorem Represents.assign (ho : o.Represents impl) {keys : List Key} {f : Key → V}
    {g : Key → Option (Σ t, (uniform V).El t)}
    (hkeys : ∀ key ∈ keys, key ∈ o.keys ∧ g key = some ⟨(), f key⟩) :
    ∃ impl', keys.foldlM (fun a key => (g key).bind (a.set key)) impl = some impl' ∧
      (o.assign keys f).Represents impl' := by
  induction keys generalizing o impl with
  | nil => exact ⟨impl, rfl, ho⟩
  | cons key keys ih =>
    obtain ⟨hkey, hvalue⟩ := hkeys key List.mem_cons_self
    obtain ⟨next, hset, hnext⟩ := ho.set hkey (f key)
    obtain ⟨impl', hfold, hlast⟩ := ih hnext fun k hk => by
      rw [keys_set]
      exact hkeys k (List.mem_cons_of_mem _ hk)
    refine ⟨impl', ?_, hlast⟩
    rw [List.foldlM_cons, hvalue, Option.bind_some, hset]
    exact hfold

theorem Represents.forEachKey (ho : o.Represents impl) {keys : List Key}
    (hkeys : ∀ key ∈ keys, key ∈ o.keys) (f : Key → V) :
    ∃ impl', ObjectImpl.forEachKey (uniformMembers keys) (fun a key => a.set key ⟨(), f key⟩) impl =
        some impl' ∧ (o.assign (ofKeys keys : Object V).keys f).Represents impl' := by
  rw [ObjectImpl.forEachKey, uniformMembers_keys, keys_ofKeys]
  exact ho.assign (g := fun key => some ⟨(), f key⟩) fun key hkey =>
    ⟨hkeys key (Meta.mem_sortList.mp hkey), rfl⟩

theorem Represents.convert (h : rhs.Represents rhsImpl) (keys : List Key) :
    ∃ impl', ObjectImpl.convert (uniformMembers keys) rhsImpl = some impl' ∧
      (Object.convert keys rhs).Represents impl' := by
  have hempty : (ofKeys keys : Object V).Represents _ := represents_ofKeys keys
  rw [ObjectImpl.convert, Object.convert]
  by_cases hsame : others = uniformMembers keys
  · have hkeys : (ofKeys keys : Object V).keys = rhs.keys := by
      rw [hempty.keys, h.keys, hsame]
    rw [dif_pos hsame, if_pos hkeys]
    exact ⟨_, rfl, h.keys.trans (congrArg _ hsame), h.values⟩
  · have hkeys : (ofKeys keys : Object V).keys ≠ rhs.keys := by
      rw [hempty.keys, h.keys]
      exact fun heq => hsame (eq_of_keys heq).symm
    rw [dif_neg hsame, if_neg hkeys]
    have hcommon : (objectMembers (Meta.intersection Member.less (uniformMembers keys)
        others)).map Prod.fst = Meta.sortList memberLess
          (Meta.intersection memberLess (ofKeys keys : Object V).keys rhs.keys) := by
      rw [hempty.keys, h.keys, ← Meta.map_intersection, ← Meta.map_sortList]
      rfl
    simp only [ObjectImpl.forEachKey, hcommon]
    apply hempty.assign
    intro key hkey
    obtain ⟨hleft, hright⟩ := (Meta.mem_intersection memberLess_strictWeakOrder
      memberLess_trichotomous (ofKeys (V := V) keys).sorted rhs.sorted).mp
        (Meta.mem_sortList.mp hkey)
    refine ⟨hleft, ?_⟩
    rw [h.get]
    cases hget : rhs.get key with
    | none => exact absurd hright (get_eq_none.mp hget)
    | some v => rfl

end Object

/-! ## What a request carries -/

section Requests

variable {params : Object (List Char)} {members : List (Member Unit)}
  {impl : ObjectImpl (uniform (List Char)) members}

/-- The parameters of a binding, as the constructor and the assignments of the tuples make them. -/
theorem bindParams_represents (h : params.Represents impl) (names : List Key)
    (captured : Key → List Char) :
    ∃ combined impl',
      ObjectImpl.convert (uniformMembers (Object.objectAnd params.keys names)) impl =
        some combined ∧
      ObjectImpl.forEachKey (uniformMembers names) (fun a key => a.set key ⟨(), captured key⟩)
        combined = some impl' ∧ (bindParams names captured params).Represents impl' := by
  obtain ⟨combined, hconvert, hcombined⟩ := h.convert (Object.objectAnd params.keys names)
  obtain ⟨impl', hassign, himpl'⟩ := hcombined.forEachKey (fun key hkey =>
    Object.mem_keys_convert.mpr (List.mem_append_right _ hkey)) captured
  exact ⟨combined, impl', hconvert, hassign, himpl'⟩

/-- The cookies, as they are set for each key of their type. -/
theorem cookieObject_represents (keys : List Key) (kv : Kv) :
    ∃ impl' : ObjectImpl (uniform (List Char)) (uniformMembers keys),
      ObjectImpl.forEachKey (uniformMembers keys)
        (fun a key => a.set key ⟨(), (kv.lookup key).getD []⟩)
        (ObjectImpl.empty (uniformMembers keys)) = some impl' ∧
      (cookieObject keys kv).Represents impl' :=
  (Object.represents_ofKeys keys).forEachKey (fun _ => Object.mem_keys_ofKeys.mpr) fun key =>
    (kv.lookup key).getD []

end Requests

end V60
