import Mathlib.Algebra.BigOperators.Fin
import Mathlib.Algebra.Order.BigOperators.Group.Finset
import V60.Survival

/-!
# Progress

No session waits for another: each has a step until it is over, and takes as
many steps as it would take alone, so that the runs with the same clients are
bounded (`Process.run_bounded`). From any reachable state of a server that survives
the sessions can be run to their ends, where every client was shown all it would
be shown alone (`Process.drains`).
-/

namespace V60

theorem Session.exists_step (env : Env) (beast : Beast) (t : Tree) {s : Session}
    (h : s ≠ .ended) : ∃ a s', s.step env beast t = some (a, s') := by
  cases s with
  | reading close client =>
    obtain ⟨requests, n⟩ := client
    cases requests with
    | nil => exact ⟨_, _, rfl⟩
    | cons raw rest => exact ⟨_, _, rfl⟩
  | handling close run client =>
    obtain ⟨events, outcome⟩ := run
    cases events with
    | cons event events => exact ⟨_, _, rfl⟩
    | nil =>
      cases outcome with
      | returned res =>
        cases close with
        | true => exact ⟨_, _, rfl⟩
        | false => exact ⟨_, _, rfl⟩
      | threw => exact ⟨_, _, rfl⟩
      | aborted => exact ⟨_, _, rfl⟩
  | ended => exact absurd rfl h

namespace Process

/-- The steps the listener can still take, accepting apart. -/
def listenerSteps (p : Process) : ℕ :=
  match p.listener with
  | .opening calls => calls.length + 1
  | .closed => 0

variable {env : Env} {beast : Beast} {t : Tree} {p p' : Process} {labels : List Label}

theorem step_listenerSteps {label : Label} (h : Step env beast t p label p') :
    [label].countP (fun l => l.move?.isNone) + p'.listenerSteps ≤ p.listenerSteps := by
  cases h with
  | setUp hup hl =>
    simp only [listenerSteps, hl]
    simp [Label.move?]
    omega
  | refused message hup hl =>
    simp only [listenerSteps, hl, failListener]
    simp [Label.move?]
  | accepted client hup hl => simp [Label.move?, listenerSteps, accept]
  | acceptFailed hup hl =>
    simp only [listenerSteps, hl, failListener]
    simp [Label.move?]
  | acted hup hs hstep => simp [Label.move?, listenerSteps, act]

theorem run_listenerSteps (h : Run env beast t start labels p) :
    labels.countP (fun l => l.move?.isNone) + p.listenerSteps ≤ 5 := by
  refine h.history (l := []) (p := fun labels p =>
    labels.countP (fun l => l.move?.isNone) + p.listenerSteps ≤ 5) ?_ (Nat.le_refl 5)
  intro labels p label p' hle hstep
  have hstep := step_listenerSteps hstep
  rw [List.countP_append]
  omega

/-- The runs in which the same clients are accepted take no more steps than these. -/
theorem run_bounded (env : Env) (beast : Beast) (t : Tree) :
    ∃ steps : Client → ℕ, ∀ labels p, Run env beast t start labels p →
      labels.length ≤ 5 + ((clients labels).map fun client => 1 + steps client).sum := by
  choose acts hover hio using fun client => Session.run_over env beast t false client
  refine ⟨fun client => (acts client).length, ?_⟩
  intro labels p h
  have hlabels : labels.length = (moves labels).length +
      labels.countP (fun l => l.move?.isNone) := by
    rw [moves, List.length_filterMap_eq_countP,
      List.length_eq_countP_add_countP (fun l => l.move?.isSome)]
    apply congrArg
    apply List.countP_congr
    intro label _
    cases label <;> simp [Label.move?]
  have hrest := run_listenerSteps h
  have hsessions : p.sessions.length = (clients labels).length := by
    rw [(run_pool h).length_eq, joined_moves, List.length_map]
    exact Nat.zero_add _
  have hacts : ∑ i ∈ Finset.range p.sessions.length, (Machines.acts i (moves labels)).length ≤
      ((clients labels).map fun client => (acts client).length).sum := by
    rw [hsessions, Finset.sum_range, ← Fin.sum_univ_fun_getElem]
    apply Finset.sum_le_sum
    intro i _
    obtain ⟨s, -, hrun⟩ := run_session h (List.getElem?_eq_getElem i.isLt)
    obtain ⟨rest, heq, -⟩ := (hover _).completes rfl hrun
    rw [heq, List.length_append]
    exact Nat.le_add_right _ _
  rw [hlabels, (run_pool h).length_moves, joined_moves, List.length_map, List.sum_map_add,
    List.map_const', List.sum_replicate, smul_eq_mul, Nat.mul_one]
  omega

theorem step_session (hup : p.up = true) {s : Session} (hs : s ∈ p.sessions)
    (hover : s ≠ .ended) : ∃ i a p', Step env beast t p (.acted i a) p' := by
  obtain ⟨i, hi⟩ := List.mem_iff_getElem?.mp hs
  obtain ⟨a, s', hstep⟩ := Session.exists_step env beast t hover
  exact ⟨i, a, _, .acted hup hi hstep⟩

/-- From every state of a server that survives the sessions alone can go on until each client was
shown what it would be shown alone. -/
theorem drains (hsurvives : Survives env beast t) (h : Run env beast t start labels p) :
    ∃ more p', Run env beast t p more p' ∧ (∀ label ∈ more, ∃ i a, label = .acted i a) ∧
      ∀ (i : ℕ) (client : Client), (clients labels)[i]? = some client →
        shown i (labels ++ more) =
          cutIo client.takes (doSession beast (t.routable env) client.requests) := by
  obtain ⟨steps, hbound⟩ := run_bounded env beast t
  -- by the number of steps the clients still leave
  generalize hn : 5 + ((clients labels).map fun client => 1 + steps client).sum -
    labels.length = n
  induction n using Nat.strong_induction_on generalizing labels p with
  | _ n ih =>
    by_cases hover : ∀ s ∈ p.sessions, s = .ended
    · refine ⟨[], p, .nil p, by simp, ?_⟩
      intro i client hi
      obtain ⟨s, hs, -, hshown⟩ := shows h hi
      rw [List.append_nil]
      exact hshown (hover s (List.mem_of_getElem? hs))
    · obtain ⟨s, hs, hne⟩ : ∃ s ∈ p.sessions, s ≠ .ended := by
        simpa using hover
      obtain ⟨i, a, p₁, hstep⟩ := step_session (hsurvives _ _ h) hs hne
      have hnext := h.append (.one hstep)
      have hclients : clients (labels ++ [.acted i a]) = clients labels := by
        rw [clients, List.filterMap_append]
        exact List.append_nil _
      have hle := hbound _ _ hnext
      rw [hclients, List.length_append, List.length_singleton] at hle
      obtain ⟨more, p', hmore, hacted, hshown⟩ := ih (n - 1) (by omega) hnext
        (by rw [hclients, List.length_append, List.length_singleton]; omega)
      refine ⟨.acted i a :: more, p', .cons hstep hmore, ?_, ?_⟩
      · exact List.forall_mem_cons.mpr ⟨⟨i, a, rfl⟩, hacted⟩
      · intro j client hj
        rw [List.append_cons]
        exact hshown j client (hclients ▸ hj)

theorem drains_hello :
    ∃ more p', Run (pcreEnv .debug) .reference (guarded parameterRoute) (serving [helloClient])
        more p' ∧ (∀ label ∈ more, ∃ i a, label = .acted i a) ∧
      ∀ (i : ℕ) (client : Client),
        (clients (setupCalls.map .setUp ++ [.accepted helloClient]))[i]? = some client →
        shown i ((setupCalls.map .setUp ++ [.accepted helloClient]) ++ more) =
          cutIo client.takes (doSession .reference
            ((guarded parameterRoute).routable (pcreEnv .debug)) client.requests) :=
  drains (survives_of_root (pcreEnv .debug) .reference rfl)
    (run_serving (pcreEnv .debug) .reference (guarded parameterRoute) [helloClient])

end Process

end V60
