import V60.Pcre
import V60.RegexLanguage

/-!
# Rows of the pattern language

The reader merges a repetition into the next one if both repeat the same. For
trees without alternatives, greedy repetitions read the same when they are
merged (`IsRow.sequenceAll`); possessive ones do not, so that no two of one
content may stand next to each other here.
-/

namespace Pcre

open Regex

/-- The tree is matched as a row of these pieces, and its groups have names. -/
inductive IsRow : Ast → List (Piece Char) → Prop
  | empty : IsRow .empty []
  | atom (a : Atom) : IsRow (.atom a) [.greedy 1 1 a.matches]
  | string (cs : List Char) : IsRow (.string cs) (cs.map fun c => .greedy 1 1 (· == c))
  | sequence {a b : Ast} {ps qs : List (Piece Char)} :
    IsRow a ps → IsRow b qs → IsRow (.sequence a b) (ps ++ qs)
  | repeat {lo hi : ℕ} (a : Atom) (hbound : hi = 0 ∨ lo ≤ hi) :
    IsRow (.repeat lo hi (.atom a)) [.greedy lo hi a.matches]
  | possessiveRepeat (lo hi : ℕ) (a : Atom) :
    IsRow (.possessiveRepeat lo hi (.atom a)) [.possessive lo hi a.matches]
  | capture {a : Ast} {piece : Piece Char} (id : ℕ) (name : Name) :
    IsRow a [piece] → IsRow (.capture id (some name) a) [piece]
  | assertEnd : IsRow .assertEnd [.atEnd]

/-- The content that the tree starts to repeat without giving back. -/
def Ast.keeps : Ast → Option Ast
  | .possessiveRepeat _ _ r => some r
  | .sequence a _ => a.keeps
  | _ => none

namespace IsRow

variable {a b c : Ast} {ps qs : List (Piece Char)}

theorem spells (h : IsRow a ps) : List.Forall₂ Spells a.parts ps := by
  induction h with
  | empty => exact .nil
  | atom a => exact .cons (spells_char _) .nil
  | string cs =>
    induction cs with
    | nil => exact .nil
    | cons c cs ih => exact .cons (spells_char _) ih
  | sequence _ _ iha ihb => exact List.rel_append iha ihb
  | «repeat» a _ => exact .cons (spells_greedy _ _ _) .nil
  | possessiveRepeat lo hi a => exact .cons (spells_possessive _ _ _) .nil
  | @capture a piece id name _ ih =>
    obtain ⟨r, hspells, hparts⟩ : ∃ r, Spells r piece ∧ a.parts = [r] := by
      cases hlist : a.parts with
      | nil => rw [hlist] at ih; cases ih
      | cons r rs =>
        rw [hlist] at ih
        obtain _ | ⟨hspells, hnil⟩ := ih
        cases hnil
        exact ⟨r, hspells, rfl⟩
    rw [Ast.parts, hparts]
    exact .cons (hspells.capture id (some name)) .nil
  | assertEnd => exact .cons spells_atEnd .nil

theorem named (h : IsRow a ps) : ∀ g ∈ captures a.expr, g.2.isSome = true := by
  induction h with
  | sequence _ _ iha ihb =>
    intro g hg
    rw [Ast.expr, captures_seqAll, Ast.parts, List.flatMap_append, ← captures_seqAll,
      ← captures_seqAll] at hg
    exact (List.mem_append.mp hg).elim (iha g) (ihb g)
  | string cs =>
    intro g hg
    rw [Ast.expr, captures_seqAll, Ast.parts, List.flatMap_map] at hg
    obtain ⟨c, -, hc⟩ := List.mem_flatMap.mp hg
    exact absurd hc List.not_mem_nil
  | capture id name _ ih => exact List.forall_mem_cons.mpr ⟨rfl, ih⟩
  | _ => exact fun g hg => absurd hg List.not_mem_nil

/-- One repetition for two of a class reads what they read, in either order. -/
theorem combineRepeat (ha : IsRow a ps) (hb : IsRow b qs) (hkeeps : ∀ r ∈ a.keeps, r ∉ b.keeps)
    (hc : combineRepeat a b = some c) :
    (∀ r, r ∉ c.keeps) ∧ ∃ rs, IsRow c rs ∧ (∀ w r, Reads rs w r ↔ Reads (ps ++ qs) w r) ∧
      ∀ w r, Reads rs w r ↔ Reads (qs ++ ps) w r := by
  unfold Pcre.combineRepeat at hc
  split at hc
  · split_ifs at hc with heq
    subst heq
    obtain rfl := Option.some.inj hc
    cases ha with
    | «repeat» x hbound =>
      cases hb with
      | «repeat» x hbound' =>
        refine ⟨nofun, _, .repeat x ?_, fun w r => reads_greedy_add hbound hbound', fun w r => ?_⟩
        · rw [combineMax]
          split_ifs <;> omega
        · have hswap := reads_greedy_add (w := w) (r := r) (p := x.matches) hbound' hbound
          rwa [Nat.add_comm, sumBound_comm] at hswap
  · cases ha
  · split_ifs at hc with heq
    all_goals exact absurd (congrArg some heq.symm) (hkeeps _ rfl)
  · cases hc

theorem combineString (ha : IsRow a ps) (hb : IsRow b qs) (hc : combineString a b = some c) :
    (∀ r, r ∉ c.keeps) ∧ IsRow c (ps ++ qs) := by
  unfold Pcre.combineString at hc
  split at hc
  · obtain rfl := Option.some.inj hc
    cases ha
    cases hb
    exact ⟨nofun, .string _⟩
  · obtain rfl := Option.some.inj hc
    cases ha
    cases hb
    exact ⟨nofun, .string _⟩
  · cases hc

/-- What comes first is read first, merged or not. -/
theorem makeSequence (ha : IsRow a ps) (hb : IsRow b qs) (hkeeps : ∀ r ∈ a.keeps, r ∉ b.keeps) :
    (∀ r ∈ (makeSequence a b).keeps, r ∈ a.keeps) ∧
      ∃ rs, IsRow (makeSequence a b) rs ∧ ∀ w r, Reads rs w r ↔ Reads (ps ++ qs) w r := by
  unfold Pcre.makeSequence
  split
  · rename_i b bs
    obtain _ | _ | _ | @⟨_, _, qs, qs', hb, hbs⟩ := hb
    have hswap : ∀ r ∈ b.keeps, r ∉ a.keeps := fun r hr hra => hkeeps r hra hr
    cases hc : (Pcre.combineRepeat b a).or (Pcre.combineString a b) with
    | none => exact ⟨fun r hr => hr, _, .sequence ha (.sequence hb hbs), fun w r => Iff.rfl⟩
    | some c =>
      obtain ⟨hnone, rs, hrow, hreads⟩ : (∀ r, r ∉ c.keeps) ∧
          ∃ rs, IsRow c rs ∧ ∀ w r, Reads rs w r ↔ Reads (ps ++ qs) w r := by
        rcases Option.or_eq_some_iff.mp hc with hrepeat | ⟨-, hstring⟩
        · obtain ⟨hnone, rs, hrow, -, hreads⟩ := hb.combineRepeat ha hswap hrepeat
          exact ⟨hnone, rs, hrow, hreads⟩
        · obtain ⟨hnone, hrow⟩ := ha.combineString hb hstring
          exact ⟨hnone, _, hrow, fun w r => Iff.rfl⟩
      refine ⟨fun r hr => absurd hr (hnone r), _, .sequence hrow hbs, fun w r => ?_⟩
      rw [← List.append_assoc, reads_append, reads_append]
      exact exists_congr fun u => and_congr_left fun _ => hreads w u
  · cases hc : (Pcre.combineRepeat a b).or (Pcre.combineString a b) with
    | none => exact ⟨fun r hr => hr, _, .sequence ha hb, fun w r => Iff.rfl⟩
    | some c =>
      rcases Option.or_eq_some_iff.mp hc with hrepeat | ⟨-, hstring⟩
      · obtain ⟨hnone, rs, hrow, hreads, -⟩ := ha.combineRepeat hb hkeeps hrepeat
        exact ⟨fun r hr => absurd hr (hnone r), rs, hrow, hreads⟩
      · obtain ⟨hnone, hrow⟩ := ha.combineString hb hstring
        exact ⟨fun r hr => absurd hr (hnone r), _, hrow, fun w r => Iff.rfl⟩

/-- The items of a row, no two neighbours of which repeat the same without giving back, read as a
sequence what they read one after the other. -/
theorem sequenceAll {as : List Ast} {pieces : List (Piece Char)}
    (h : List.Forall₂ (fun a piece => IsRow a [piece]) as pieces)
    (hkeeps : List.IsChain (fun a b => ∀ r ∈ a.keeps, r ∉ b.keeps) as) :
    (∀ a ∈ as.head?, ∀ r ∈ (sequenceAll as).keeps, r ∈ a.keeps) ∧
      ∃ rs, IsRow (sequenceAll as) rs ∧ ∀ w r, Reads rs w r ↔ Reads pieces w r := by
  induction h with
  | nil => exact ⟨nofun, [], .empty, fun w r => Iff.rfl⟩
  | @cons a piece as pieces ha has ih =>
    obtain ⟨hhead, rs, hrow, hreads⟩ := ih hkeeps.of_cons
    cases has with
    | nil =>
      refine ⟨fun b hb => ?_, _, ha, fun w r => Iff.rfl⟩
      obtain rfl := Option.some.inj hb
      exact fun r hr => hr
    | @cons b piece' as pieces hb has =>
      have hfirst : ∀ r ∈ a.keeps, r ∉ (Pcre.sequenceAll (b :: as)).keeps := fun r hr hrest =>
        (List.isChain_cons_cons.mp hkeeps).1 r hr (hhead b rfl r hrest)
      obtain ⟨hkept, rs', hrow', hreads'⟩ := ha.makeSequence hrow hfirst
      refine ⟨fun c hc => ?_, rs', hrow', fun w r => ?_⟩
      · obtain rfl := Option.some.inj hc
        exact hkept
      · rw [hreads' w r, List.singleton_append]
        exact exists_congr fun u => and_congr_right fun _ => hreads u r

end IsRow

end Pcre
