import Mathlib.Data.List.Basic
import Mathlib.Data.Nat.Basic

/-!
# Messages

The parts of `beast::http::request` and `beast::http::response` the library
touches. Header fields are looked up without regard to case. What a
`Connection` value asks for is the business of `Beast`, which carries the
documented laws of `keep_alive`.
-/

namespace V60

inductive Verb where
  | unknown | delete | get | head | post | put | connect | options | trace | copy | lock | mkcol
  | move | propfind | proppatch | search | unlock | bind | rebind | unbind | acl | report
  | mkactivity | checkout | merge | msearch | notify | subscribe | unsubscribe | patch | purge
  | mkcalendar | link | unlink
  deriving DecidableEq

inductive Version where
  | http10
  | http11
  deriving DecidableEq

def iequals (a b : List Char) : Bool := a.map Char.toLower == b.map Char.toLower

abbrev Fields := List (List Char × List Char)

def Fields.find (fields : Fields) (name : List Char) : Option (List Char) :=
  (List.find? (fun f => iequals f.1 name) fields).map Prod.snd

def Fields.erase (fields : Fields) (name : List Char) : Fields :=
  List.filter (fun f => !iequals f.1 name) fields

def Fields.set (fields : Fields) (name value : List Char) : Fields :=
  fields.erase name ++ [(name, value)]

theorem Fields.find_nil (name : List Char) : Fields.find [] name = none := rfl

theorem iequals_trans {a b c : List Char} (hab : iequals a b = true) :
    iequals a c = iequals b c := by
  simp only [iequals, beq_iff_eq] at hab ⊢
  rw [hab]

theorem Fields.find_erase_self (fields : Fields) (name : List Char) :
    (fields.erase name).find name = none := by
  simp only [Fields.find, Fields.erase, Option.map_eq_none_iff, List.find?_eq_none]
  intro f hf
  simpa using (List.mem_filter.mp hf).2

theorem Fields.find_erase_of_ne (fields : Fields) {name other : List Char}
    (h : iequals name other = false) : (fields.erase name).find other = fields.find other := by
  have hpred : (fun f : List Char × List Char => !iequals f.1 name && iequals f.1 other) =
      fun f => iequals f.1 other := by
    funext f
    cases hf : iequals f.1 name with
    | false => rfl
    | true => rw [iequals_trans hf, h]; rfl
  rw [Fields.find, Fields.erase, List.find?_filter]
  simp only [Bool.decide_and, Bool.decide_eq_true] at hpred ⊢
  rw [hpred, Fields.find]

theorem Fields.find_set_self (fields : Fields) (name value : List Char) :
    (fields.set name value).find name = some value := by
  have herase := fields.find_erase_self name
  have hself : iequals name name = true := by simp [iequals]
  simp only [Fields.find, Option.map_eq_none_iff] at herase
  simp [Fields.set, Fields.find, List.find?_append, herase, hself]

theorem Fields.find_set_of_ne {fields : Fields} {name other : List Char} (value : List Char)
    (h : iequals name other = false) : (fields.set name value).find other = fields.find other := by
  have herase := Fields.find_erase_of_ne fields h
  simp only [Fields.find] at herase
  simp [Fields.set, Fields.find, List.find?_append, h, herase]

/-- A request as `async_read` delivers it: the parser's header limit of 8 KB keeps the target
below the range of `int`. -/
structure StrRequest where
  method : Verb
  target : List Char
  version : Version
  fields : Fields
  body : List Char
  target_lt : target.length < 0x80000000

structure StrResponse where
  version : Version
  result : ℕ
  fields : Fields
  body : List Char
  deriving DecidableEq

/-- The source of a move: an empty target, no fields, the scalars unchanged. -/
def StrRequest.movedFrom (r : StrRequest) : StrRequest :=
  { r with target := [], fields := [], body := [], target_lt := by decide }

def StrResponse.movedFrom (r : StrResponse) : StrResponse := { r with fields := [], body := [] }

def StrResponse.contentLength (r : StrResponse) (n : ℕ) : StrResponse :=
  { r with fields := r.fields.set "Content-Length".toList n.repr.toList }

def persists (hasToken : List Char → List Char → Bool) (version : Version)
    (connection : Option (List Char)) : Bool :=
  match version with
  | .http11 => !connection.any (hasToken · "close".toList)
  | .http10 => connection.any (hasToken · "keep-alive".toList)

/-- `hasToken value token` is the search of a token list, `keepAliveValue` the value
`keep_alive` leaves in the `Connection` field. -/
structure Beast where
  versionString : List Char
  hasToken : List Char → List Char → Bool
  keepAliveValue : Version → Bool → Option (List Char) → Option (List Char)
  keepAliveValue_spec : ∀ version value connection,
    persists hasToken version (keepAliveValue version value connection) = value

namespace Beast

variable (beast : Beast)

def keepAlive (version : Version) (fields : Fields) : Bool :=
  persists beast.hasToken version (fields.find "Connection".toList)

def setKeepAlive (version : Version) (value : Bool) (fields : Fields) : Fields :=
  match beast.keepAliveValue version value (fields.find "Connection".toList) with
  | some connection => fields.set "Connection".toList connection
  | none => fields.erase "Connection".toList

def needEof (r : StrResponse) : Bool :=
  if (r.fields.find "Content-Length".toList).isSome then !beast.keepAlive r.version r.fields
  else true

theorem find_setKeepAlive (version : Version) (value : Bool) (fields : Fields) :
    (beast.setKeepAlive version value fields).find "Connection".toList =
      beast.keepAliveValue version value (fields.find "Connection".toList) := by
  rw [setKeepAlive]
  cases h : beast.keepAliveValue version value (fields.find "Connection".toList) with
  | none => exact fields.find_erase_self _
  | some connection => exact fields.find_set_self _ _

theorem keepAlive_setKeepAlive (version : Version) (value : Bool) (fields : Fields) :
    beast.keepAlive version (beast.setKeepAlive version value fields) = value := by
  rw [keepAlive, find_setKeepAlive]
  exact beast.keepAliveValue_spec version value _

theorem keepAlive_nil (version : Version) :
    beast.keepAlive version [] = decide (version = .http11) := by
  cases version <;> rfl

def reference : Beast where
  versionString := "Boost.Beast".toList
  hasToken value token :=
    ((value.splitOnP (· == ',')).map fun t => (t.filter (· != ' '))).any (iequals · token)
  keepAliveValue version value _ :=
    match version, value with
    | .http11, true => none
    | .http11, false => some "close".toList
    | .http10, true => some "keep-alive".toList
    | .http10, false => none
  keepAliveValue_spec version value connection := by
    cases version <;> cases value <;> decide

end Beast

end V60
