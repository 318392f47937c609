import V60.Meta
import Mathlib.Data.List.Lex
import Mathlib.Data.Char

/-!
# Objects

An object is a list of members in ascending key order, which the type keeps by
sorting its member list. Keys may repeat: `objectAnd` does not remove
duplicates, and `get` and `set` look at the first member of a name.
-/

namespace V60

abbrev Key := List Char

def memberLess (a b : Key) : Bool := decide (a < b)

theorem memberLess_strictWeakOrder : Meta.StrictWeakOrder memberLess where
  asymm h := by
    simp only [memberLess, decide_eq_true_eq, decide_eq_false_iff_not, not_lt] at h ⊢
    exact h.le
  cotrans {a c} b h := by
    simp only [memberLess, decide_eq_true_eq] at h ⊢
    rcases lt_or_ge a b with hab | hba
    · exact Or.inl hab
    · exact Or.inr (lt_of_le_of_lt hba h)

theorem memberLess_trichotomous : Meta.Trichotomous memberLess := by
  intro a b h
  simp only [Meta.eq, memberLess, Bool.and_eq_true, Bool.not_eq_true', decide_eq_false_iff_not,
    not_lt] at h
  exact le_antisymm h.2 h.1

structure Object (V : Type) where
  members : List (Key × V)
  sorted : Meta.Sorted memberLess (members.map Prod.fst)

namespace Object

variable {V : Type}

def keys (o : Object V) : List Key := o.members.map Prod.fst

def get (o : Object V) (key : Key) : Option V := o.members.lookup key

def setFirst (key : Key) (t : V) : List (Key × V) → List (Key × V)
  | [] => []
  | m :: ms => if m.1 = key then (m.1, t) :: ms else m :: setFirst key t ms

theorem setFirst_keys (key : Key) (t : V) (ms : List (Key × V)) :
    (setFirst key t ms).map Prod.fst = ms.map Prod.fst := by
  induction ms with
  | nil => rfl
  | cons m ms ih =>
    simp only [setFirst]
    split_ifs
    · rfl
    · simp [ih]

def set (o : Object V) (key : Key) (t : V) : Object V :=
  ⟨setFirst key t o.members, by rw [setFirst_keys]; exact o.sorted⟩

/-- `for_each_key` of an object type with these keys, setting each member of `o` by name. -/
def assign (o : Object V) (keys : List Key) (f : Key → V) : Object V :=
  keys.foldl (fun a key => a.set key (f key)) o

theorem map_fst_pair (keys : List Key) (t : V) : (keys.map (·, t)).map Prod.fst = keys := by
  simp [Function.comp_def]

section Conversion

variable [Inhabited V]

def ofKeys (keys : List Key) : Object V :=
  ⟨(Meta.sortList memberLess keys).map (·, default), by
    rw [map_fst_pair]
    exact Meta.sortList_sorted memberLess_strictWeakOrder keys⟩

/-- Constructing an `object` of these keys from another object: the identity when the types
agree, a copy of the common members otherwise. -/
def convert (keys : List Key) (rhs : Object V) : Object V :=
  let o : Object V := ofKeys keys
  if o.keys = rhs.keys then rhs
  else
    let common := Meta.sortList memberLess (Meta.intersection memberLess o.keys rhs.keys)
    o.assign common fun key => (rhs.get key).getD default

end Conversion

def objectAnd (left right : List Key) : List Key := left ++ right

@[simp]
theorem keys_set (o : Object V) (key : Key) (t : V) : (o.set key t).keys = o.keys :=
  setFirst_keys key t o.members

@[simp]
theorem keys_assign (o : Object V) (keys : List Key) (f : Key → V) :
    (o.assign keys f).keys = o.keys := by
  induction keys generalizing o with
  | nil => rfl
  | cons key keys ih => exact (ih _).trans (keys_set o key _)

theorem lookup_setFirst (key : Key) (t : V) (ms : List (Key × V)) (j : Key) :
    (setFirst key t ms).lookup j =
      if j = key ∧ key ∈ ms.map Prod.fst then some t else ms.lookup j := by
  induction ms with
  | nil => simp [setFirst]
  | cons m ms ih =>
    obtain ⟨k, v⟩ := m
    by_cases hk : k = key
    · subst hk
      by_cases hj : j = k
      · simp [setFirst, hj]
      · simp [setFirst, List.lookup_cons, beq_eq_false_iff_ne.mpr hj, hj]
    · by_cases hj : j = k
      · subst hj
        simp [setFirst, hk]
      · have hmem : key ∈ List.map Prod.fst ((k, v) :: ms) ↔ key ∈ List.map Prod.fst ms := by
          simp [Ne.symm hk]
        simp only [setFirst, hk, if_false, List.lookup_cons, beq_eq_false_iff_ne.mpr hj, ih, hmem]

theorem get_set (o : Object V) (key : Key) (t : V) (j : Key) :
    (o.set key t).get j = if j = key ∧ key ∈ o.keys then some t else o.get j :=
  lookup_setFirst key t o.members j

theorem get_eq_none {o : Object V} {key : Key} : o.get key = none ↔ key ∉ o.keys := by
  simp only [get, keys]
  induction o.members with
  | nil => simp
  | cons m ms ih =>
    rw [List.lookup_cons]
    by_cases h : key = m.1
    · simp [h]
    · simp [beq_eq_false_iff_ne.mpr h, h, ih]

theorem get_assign (o : Object V) (keys : List Key) (f : Key → V) (j : Key) :
    (o.assign keys f).get j = if j ∈ keys ∧ j ∈ o.keys then some (f j) else o.get j := by
  induction keys generalizing o with
  | nil => simp [assign]
  | cons key keys ih =>
    have hcons : o.assign (key :: keys) f = (o.set key (f key)).assign keys f := rfl
    rw [hcons, ih, keys_set, get_set]
    by_cases hj : j = key
    · subst hj
      by_cases hmem : j ∈ o.keys <;> simp [hmem]
    · simp [hj]

variable [Inhabited V]

theorem keys_ofKeys (keys : List Key) :
    (ofKeys keys : Object V).keys = Meta.sortList memberLess keys := by
  rw [Object.keys, ofKeys, map_fst_pair]

theorem mem_keys_ofKeys {keys : List Key} {key : Key} :
    key ∈ (ofKeys keys : Object V).keys ↔ key ∈ keys := by
  rw [keys_ofKeys, Meta.mem_sortList]

theorem get_ofKeys (keys : List Key) (key : Key) :
    (ofKeys keys : Object V).get key = if key ∈ keys then some default else none := by
  split_ifs with h
  · have hmem : key ∈ Meta.sortList memberLess keys := Meta.mem_sortList.mpr h
    simp only [ofKeys, get]
    generalize Meta.sortList memberLess keys = l at hmem
    induction l with
    | nil => simp at hmem
    | cons a l ih =>
      rw [List.map_cons, List.lookup_cons]
      by_cases ha : key = a
      · simp [ha]
      · simpa [beq_eq_false_iff_ne.mpr ha] using ih ((List.mem_cons.mp hmem).resolve_left ha)
  · rwa [get_eq_none, mem_keys_ofKeys]

theorem mem_keys_convert {keys : List Key} {rhs : Object V} {key : Key} :
    key ∈ (convert keys rhs).keys ↔ key ∈ keys := by
  simp only [convert]
  split_ifs with h
  · rw [← h, mem_keys_ofKeys]
  · rw [keys_assign, mem_keys_ofKeys]

theorem get_convert (keys : List Key) (rhs : Object V) (key : Key) :
    (convert keys rhs).get key =
      if key ∈ keys then some ((rhs.get key).getD default) else none := by
  simp only [convert]
  split_ifs with h hkey hkey
  · have hmem : key ∈ rhs.keys := by rw [← h]; exact mem_keys_ofKeys.mpr hkey
    cases hget : rhs.get key with
    | none => exact absurd hmem (get_eq_none.mp hget)
    | some v => rfl
  · rw [get_eq_none, ← h, mem_keys_ofKeys]
    exact hkey
  · have hmem : key ∈ (ofKeys keys : Object V).keys := mem_keys_ofKeys.mpr hkey
    have hcommon := Meta.mem_intersection memberLess_strictWeakOrder memberLess_trichotomous
      (ofKeys (V := V) keys).sorted rhs.sorted (x := key)
    rw [get_assign, get_ofKeys, if_pos hkey]
    simp only [Meta.mem_sortList]
    by_cases hr : key ∈ rhs.keys
    · rw [if_pos ⟨hcommon.mpr ⟨hmem, hr⟩, hmem⟩]
    · rw [if_neg fun h => hr (hcommon.mp h.1).2, get_eq_none.mpr hr]
      rfl
  · rw [get_eq_none, keys_assign, mem_keys_ofKeys]
    exact hkey

end Object

end V60
