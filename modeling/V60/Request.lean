import V60.Http
import V60.Object

/-!
# Routed requests

A `base_request` owns the raw message and a view of the part of the path that
is not matched yet. The view, the parameters and the cookies point into the raw
message, so a request that was moved from keeps views of memory it no longer
owns; `Build.stale` is what such a view reads.
-/

namespace V60

/-- What the language leaves to the build: whether `assert` is compiled in, the distance from a
view to an iterator of an empty match, and the text a dangling view reads. -/
structure Build where
  asserts : Bool
  wild : List Char → ℤ
  stale : List Char → List Char
  stale_length : ∀ text, (stale text).length = text.length

def Build.debug : Build := ⟨true, fun _ => 0, id, fun _ => rfl⟩

def Build.release : Build := ⟨false, fun _ => 0, id, fun _ => rfl⟩

inductive Body where
  | text (body : List Char)
  | object (body : Object (List Char))

structure Request where
  raw : StrRequest
  remaining : List Char
  params : Object (List Char)
  body : Body
  cookies : List (Object (List Char))
  remaining_lt : remaining.length < 0x80000000

def Object.map {V : Type} (f : V → V) (o : Object V) : Object V :=
  ⟨o.members.map fun m => (m.1, f m.2), by
    rw [List.map_map]
    exact o.sorted⟩

namespace Request

def path (r : Request) : List Char := r.raw.target

def method (r : Request) : Verb := r.raw.method

def version (r : Request) : Version := r.raw.version

def header (r : Request) (key : List Char) : Option (List Char) := r.raw.fields.find key

def ofRaw (raw : StrRequest) : Request where
  raw := raw
  remaining := raw.target
  params := Object.ofKeys []
  body := .text raw.body
  cookies := []
  remaining_lt := raw.target_lt

def castInt (n : ℤ) : ℤ := (n + 0x80000000) % 0x100000000 - 0x80000000

theorem castInt_of_lt {n : ℕ} (h : n < 0x80000000) : castInt n = n := by
  simp only [castInt]
  omega

/-- `substr` throws on a position past the end, which a negative `int` always is. -/
def consume (r : Request) (n : ℤ) : Option Request :=
  if 0 ≤ n ∧ n ≤ r.remaining.length then
    some { r with
      remaining := r.remaining.drop n.toNat
      remaining_lt := by
        rw [List.length_drop]
        exact lt_of_le_of_lt (Nat.sub_le _ _) r.remaining_lt }
  else none

def withParams (r : Request) (params : Object (List Char)) : Request := { r with params := params }

def withBody (r : Request) (body : Body) : Request := { r with body := body }

def withMixin (r : Request) (cookies : Object (List Char)) : Request :=
  { r with cookies := r.cookies ++ [cookies] }

def movedFrom (b : Build) (r : Request) : Request where
  raw := r.raw.movedFrom
  remaining := b.stale r.remaining
  params := r.params.map b.stale
  body := r.body
  cookies := r.cookies.map (Object.map b.stale)
  remaining_lt := by
    rw [b.stale_length]
    exact r.remaining_lt

def advance (r : Request) (n : ℕ) : Request :=
  { r with
    remaining := r.remaining.drop n
    remaining_lt := by
      rw [List.length_drop]
      exact lt_of_le_of_lt (Nat.sub_le _ _) r.remaining_lt }

theorem consume_of_le (r : Request) {n : ℕ} (h : n ≤ r.remaining.length) :
    r.consume (castInt n) = some (r.advance n) := by
  rw [castInt_of_lt (lt_of_le_of_lt h r.remaining_lt), consume, if_pos]
  · rfl
  · omega

end Request

end V60
