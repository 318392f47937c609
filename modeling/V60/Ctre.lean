import V60.Routing
import V60.Object

/-!
# The engine behind a binding

What a binding asks of the compile-time regular expressions: the group names of
an expression, and the longest-first prefix match with the texts of its groups.
`Ctre.pcre` is the vendored engine on the embedded part of the pattern
language; results about dispatch hold for any engine.
-/

namespace V60

open Regex Pcre

structure Match where
  len : ℕ
  captured : Key → List Char

structure Ctre where
  names : List Char → List Key
  startsWith : List Char → List Char → Option Match
  len_le : ∀ {regex input m}, startsWith regex input = some m → m.len ≤ input.length

/-- `to_object_t` has no case for a group without a name, so such an expression is refused. -/
def compile (regex : List Char) : Option Re :=
  (parse regex).filter fun r => (captures r).all fun g => g.2.isSome

/-- `get_by_name`: the first group of that name, the empty view when it took no part. -/
def groupText (r : Re) (caps : List (ℕ × List Char)) (key : Key) : List Char :=
  match (captures r).find? fun g => g.2 = some key with
  | some g => (caps.lookup g.1).getD []
  | none => []

def toMatch (r : Re) (input : List Char) (t : State Char) : Match :=
  ⟨input.length - t.rest.length, groupText r t.caps⟩

def Ctre.pcre : Ctre where
  names regex := (compile regex).elim [] fun r => (captures r).filterMap Prod.snd
  startsWith regex input :=
    (compile regex).bind fun r => (Regex.startsWith r input).map (toMatch r input)
  len_le h := by
    obtain ⟨r, -, hr⟩ := Option.bind_eq_some_iff.mp h
    obtain ⟨t, -, rfl⟩ := Option.map_eq_some_iff.mp hr
    exact Nat.sub_le _ _

end V60
