import V60.Middleware

/-!
# Splitting at delimiters

The loop of `split` with its two cursors, as offsets into the string. It comes
to its end, and what it has put out then are the maximal runs without a
delimiter, in order; `split` reads the same tokens off the rest of the string.
-/

namespace V60

/-- The cursors of the loop and the tokens put out, each from its first to past its last
character. -/
structure Cursors where
  first : ℕ
  second : ℕ
  output : List (ℕ × ℕ)

def findFirstOf (str delims : List Char) (first : ℕ) : ℕ :=
  first + ((str.drop first).takeWhile fun c => !delims.contains c).length

def splitStep (str delims : List Char) (s : Cursors) : Cursors :=
  let second := findFirstOf str delims s.first
  ⟨second + 1, second, if s.first ≠ second then s.output ++ [(s.first, second)] else s.output⟩

/-- The loop from these cursors; `none` if it needs more than this number of rounds. -/
def splitFor (str delims : List Char) : ℕ → Cursors → Option Cursors
  | 0, _ => none
  | fuel + 1, s =>
    if s.second ≠ str.length ∧ s.first ≠ str.length then
      splitFor str delims fuel (splitStep str delims s)
    else some s

def Delim (str delims : List Char) (k : ℕ) : Prop := ∃ c ∈ str[k]?, c ∈ delims

structure MaximalRun (str delims : List Char) (i j : ℕ) : Prop where
  lt : i < j
  le : j ≤ str.length
  free : ∀ k, i ≤ k → k < j → ¬Delim str delims k
  left : i = 0 ∨ Delim str delims (i - 1)
  right : j = str.length ∨ Delim str delims j

def slice (str : List Char) (run : ℕ × ℕ) : List Char := (str.take run.2).drop run.1

/-- From the start `p` of a token or of an empty stretch up to the delimiter at `q`, the next run
is that token, and every other one starts behind the delimiter. -/
theorem maximalRun_from {str delims : List Char} {p q : ℕ} (hpq : p ≤ q) (hq : q ≤ str.length)
    (hfree : ∀ k, p ≤ k → k < q → ¬Delim str delims k)
    (hleft : p = 0 ∨ Delim str delims (p - 1)) (hright : q = str.length ∨ Delim str delims q)
    (i j : ℕ) :
    MaximalRun str delims i j ∧ p ≤ i ↔
      (p < q ∧ i = p ∧ j = q) ∨ (MaximalRun str delims i j ∧ q + 1 ≤ i) := by
  constructor
  · intro h
    obtain ⟨hrun, hpi⟩ := h
    have hlt := hrun.lt
    have hle := hrun.le
    rcases Nat.lt_trichotomy i q with hiq | rfl | hiq
    · have hip : i = p := by
        by_contra hne
        rcases hrun.left with hzero | hdelim
        · omega
        · exact hfree (i - 1) (by omega) (by omega) hdelim
      have hjq : j = q := by
        rcases Nat.lt_trichotomy j q with hj | hj | hj
        · rcases hrun.right with hend | hdelim
          · omega
          · exact absurd hdelim (hfree j (by omega) hj)
        · exact hj
        · rcases hright with hend | hdelim
          · omega
          · exact absurd hdelim (hrun.free q (by omega) hj)
      exact Or.inl ⟨by omega, hip, hjq⟩
    · rcases hright with hend | hdelim
      · omega
      · exact absurd hdelim (hrun.free i le_rfl hlt)
    · exact Or.inr ⟨hrun, hiq⟩
  · intro h
    rcases h with ⟨hlt, rfl, rfl⟩ | ⟨hrun, hi⟩
    · exact ⟨⟨hlt, hq, hfree, hleft, hright⟩, le_rfl⟩
    · exact ⟨hrun, by omega⟩

theorem delim_append {delims pre rest : List Char} {k : ℕ} (hk : pre.length ≤ k) :
    Delim (pre ++ rest) delims k ↔ ∃ c ∈ rest[k - pre.length]?, c ∈ delims := by
  rw [Delim, List.getElem?_append_right hk]

theorem not_delim_token {delims pre token rest : List Char} (htoken : ∀ c ∈ token, c ∉ delims)
    {k : ℕ} (hk : pre.length ≤ k) (hk' : k < pre.length + token.length) :
    ¬Delim (pre ++ (token ++ rest)) delims k := by
  rw [delim_append hk, List.getElem?_append_left (by omega)]
  intro h
  obtain ⟨c, hc, hdelim⟩ := h
  exact htoken c (List.mem_of_getElem? hc) hdelim

theorem findFirstOf_token {delims pre token rest : List Char} (htoken : ∀ c ∈ token, c ∉ delims)
    (hrest : ∀ c ∈ rest.head?, c ∈ delims) :
    findFirstOf (pre ++ (token ++ rest)) delims pre.length = pre.length + token.length := by
  have hpos : ∀ c ∈ token, (!delims.contains c) = true := fun c hc => by simpa using htoken c hc
  have hnil : rest.takeWhile (fun c => !delims.contains c) = [] := by
    cases rest with
    | nil => rfl
    | cons d rest =>
      have hd : d ∈ delims := hrest d rfl
      simp [hd]
  rw [findFirstOf, List.drop_left, List.takeWhile_append_of_pos hpos, hnil, List.append_nil]

theorem slice_token (pre token rest : List Char) :
    slice (pre ++ (token ++ rest)) (pre.length, pre.length + token.length) = token := by
  simp [slice, List.take_append]

theorem splitLoop_token {delims token rest : List Char} (htoken : ∀ c ∈ token, c ∉ delims)
    (hrest : ∀ c ∈ rest.head?, c ∈ delims) :
    splitLoop delims (token ++ rest) =
      (if token = [] then [] else [token]) ++ splitLoop delims rest.tail := by
  have hpos : ∀ c ∈ token, (!delims.contains c) = true := fun c hc => by simpa using htoken c hc
  have hnil : rest.takeWhile (fun c => !delims.contains c) = [] ∧
      rest.dropWhile (fun c => !delims.contains c) = rest := by
    cases rest with
    | nil => exact ⟨rfl, rfl⟩
    | cons d rest =>
      have hd : d ∈ delims := hrest d rfl
      simp [hd]
  rw [splitLoop]
  by_cases htext : token ++ rest = []
  · obtain ⟨rfl, rfl⟩ := List.append_eq_nil_iff.mp htext
    simp [splitLoop]
  · rw [if_neg htext]
    simp only [List.takeWhile_append_of_pos hpos, List.dropWhile_append_of_pos hpos, hnil,
      List.append_nil]
    cases rest with
    | nil => simp [splitLoop]
    | cons d rest => simp

theorem splitLoop_delim {delims : List Char} {d : Char} (hd : d ∈ delims) (rest : List Char) :
    splitLoop delims (d :: rest) = splitLoop delims rest := by
  have htoken : ∀ c ∈ ([] : List Char), c ∉ delims := List.forall_mem_nil _
  have hrest : ∀ c ∈ (d :: rest).head?, c ∈ delims := fun c hc => Option.some.inj hc ▸ hd
  rw [← List.nil_append (d :: rest), splitLoop_token htoken hrest, if_pos rfl, List.nil_append,
    List.tail_cons]

/-- The token at the cursor and what follows it. -/
theorem exists_token (delims text : List Char) :
    ∃ token rest, text = token ++ rest ∧ (∀ c ∈ token, c ∉ delims) ∧
      ∀ c ∈ rest.head?, c ∈ delims := by
  refine ⟨text.takeWhile fun c => !delims.contains c, text.dropWhile fun c => !delims.contains c,
    List.takeWhile_append_dropWhile.symm, fun c hc => ?_, fun c hc => ?_⟩
  · simpa using List.mem_takeWhile_imp hc
  · have hhead := List.head?_dropWhile_not (fun c => !delims.contains c) text
    rw [Option.mem_def.mp hc] at hhead
    simpa using hhead

/-- Induction on a text, a token and the delimiter behind it at a time. -/
@[elab_as_elim]
theorem tokens_induct {motive : List Char → Prop} (delims : List Char) (nil : motive [])
    (token : ∀ token rest, (∀ c ∈ token, c ∉ delims) → (∀ c ∈ rest.head?, c ∈ delims) →
      token ++ rest ≠ [] → motive rest.tail → motive (token ++ rest)) (text : List Char) :
    motive text := by
  induction hlen : text.length using Nat.strong_induction_on generalizing text with
  | _ n ih =>
    obtain rfl | hne := eq_or_ne text []
    · exact nil
    · obtain ⟨t, rest, rfl, ht, hrest⟩ := exists_token delims text
      have hpos := List.length_pos_iff.mpr hne
      refine token t rest ht hrest hne (ih rest.tail.length ?_ rest.tail rfl)
      simp only [List.length_append, List.length_tail] at hlen hpos ⊢
      omega

theorem splitLoop_free (delims text : List Char) :
    ∀ token ∈ splitLoop delims text, token ≠ [] ∧ ∀ c ∈ token, c ∉ delims := by
  induction text using tokens_induct delims with
  | nil => simp [splitLoop]
  | token token rest htoken hrest hne ih =>
    rw [splitLoop_token htoken hrest]
    intro t ht
    rcases List.mem_append.mp ht with hfirst | hlater
    · split_ifs at hfirst with hnil
      · exact absurd hfirst List.not_mem_nil
      · rw [List.mem_singleton.mp hfirst]
        exact ⟨hnil, htoken⟩
    · exact ih t hlater

theorem splitLoop_flatten (delims text : List Char) :
    (splitLoop delims text).flatten = text.filter fun c => !delims.contains c := by
  induction text using tokens_induct delims with
  | nil => simp [splitLoop]
  | token token rest htoken hrest hne ih =>
    have hkept : token.filter (fun c => !delims.contains c) = token :=
      List.filter_eq_self.mpr fun c hc => by simpa using htoken c hc
    have htail : rest.filter (fun c => !delims.contains c) =
        rest.tail.filter fun c => !delims.contains c := by
      cases rest with
      | nil => rfl
      | cons d rest =>
        have hd : d ∈ delims := hrest d rfl
        simp [hd]
    rw [splitLoop_token htoken hrest, List.flatten_append, List.filter_append, hkept, htail, ih]
    split_ifs with hnil
    · rw [hnil, List.flatten_nil]
    · rw [List.flatten_singleton]

def tokenSpans (pre token : List Char) : List (ℕ × ℕ) :=
  if token = [] then [] else [(pre.length, pre.length + token.length)]

/-- What a state of the loop at `text`, the rest of the string after `pre`, still puts out. -/
structure PutsOut (str delims pre text : List Char) (spans : List (ℕ × ℕ)) : Prop where
  tokens : splitLoop delims text = spans.map (slice str)
  runs : ∀ i j, (i, j) ∈ spans ↔ MaximalRun str delims i j ∧ pre.length ≤ i
  ordered : spans.Pairwise fun a b => a.2 < b.1

theorem putsOut_end (str delims : List Char) : PutsOut str delims str [] [] where
  tokens := by simp [splitLoop]
  runs i j := by
    refine ⟨fun h => absurd h List.not_mem_nil, fun h => ?_⟩
    have hlt := h.1.lt
    have hle := h.1.le
    omega
  ordered := List.Pairwise.nil

theorem PutsOut.cons {str delims pre token rest : List Char} {spans : List (ℕ × ℕ)}
    (hstr : str = pre ++ (token ++ rest)) (htoken : ∀ c ∈ token, c ∉ delims)
    (hrest : ∀ c ∈ rest.head?, c ∈ delims)
    (hpre : pre.length = 0 ∨ Delim str delims (pre.length - 1))
    (hruns : ∀ i j, (i, j) ∈ spans ↔
      MaximalRun str delims i j ∧ pre.length + token.length + 1 ≤ i)
    (htokens : splitLoop delims rest.tail = spans.map (slice str))
    (hordered : spans.Pairwise fun a b => a.2 < b.1) :
    PutsOut str delims pre (token ++ rest) (tokenSpans pre token ++ spans) where
  tokens := by
    rw [splitLoop_token htoken hrest, htokens, List.map_append, tokenSpans]
    split_ifs
    · rfl
    · rw [List.map_singleton, hstr, slice_token]
  runs i j := by
    have hlen : str.length = pre.length + token.length + rest.length := by
      rw [hstr]
      simp only [List.length_append]
      omega
    have hright : pre.length + token.length = str.length ∨
        Delim str delims (pre.length + token.length) := by
      cases rest with
      | nil => exact Or.inl hlen.symm
      | cons d rest =>
        refine Or.inr ⟨d, ?_, hrest d rfl⟩
        rw [hstr, ← List.append_assoc]
        simp
    have hstep := maximalRun_from (by omega) (by omega)
      (fun k hk hk' => hstr ▸ not_delim_token htoken hk hk') hpre hright i j
    rw [hstep, List.mem_append, hruns, tokenSpans]
    by_cases hnil : token = []
    · simp [hnil]
    · have hpos := List.length_pos_iff.mpr hnil
      simp [hnil, hpos]
  ordered := by
    rw [tokenSpans]
    refine List.pairwise_append.mpr ⟨?_, hordered, fun a ha b hb => ?_⟩
    · split_ifs
      · exact List.Pairwise.nil
      · exact List.pairwise_singleton _ _
    · split_ifs at ha with hnil
      · exact absurd ha List.not_mem_nil
      · rw [List.mem_singleton.mp ha]
        exact ((hruns b.1 b.2).mp hb).2

theorem splitStep_token {delims pre token rest : List Char} {s : Cursors}
    (hfirst : s.first = pre.length) (htoken : ∀ c ∈ token, c ∉ delims)
    (hrest : ∀ c ∈ rest.head?, c ∈ delims) :
    splitStep (pre ++ (token ++ rest)) delims s =
      ⟨pre.length + token.length + 1, pre.length + token.length,
        s.output ++ tokenSpans pre token⟩ := by
  rw [splitStep, hfirst, findFirstOf_token htoken hrest, tokenSpans]
  by_cases hnil : token = []
  · simp [hnil]
  · simp [hnil]

theorem splitFor_exit {str delims : List Char} {s : Cursors}
    (h : s.second = str.length ∨ s.first = str.length) {fuel : ℕ} (hfuel : 0 < fuel) :
    splitFor str delims fuel s = some s := by
  obtain ⟨n, rfl⟩ : ∃ n, fuel = n + 1 := ⟨fuel - 1, by omega⟩
  rw [splitFor, if_neg]
  intro hne
  exact h.elim hne.1 hne.2

-- by induction on the rounds; at each of them the first cursor is at the rest of the string, and
-- the second one is at the end only if that is where the last token or delimiter ended
theorem splitFor_putsOut {str delims : List Char} (fuel : ℕ) (pre text : List Char) (s : Cursors)
    (hstr : str = pre ++ text) (hpre : pre.length = 0 ∨ Delim str delims (pre.length - 1))
    (hfirst : s.first = pre.length) (hsecond : text = [] ∨ s.second ≠ str.length)
    (hfuel : text.length < fuel) :
    ∃ c spans, splitFor str delims fuel s = some c ∧ c.output = s.output ++ spans ∧
      PutsOut str delims pre text spans := by
  induction fuel generalizing pre text s with
  | zero => omega
  | succ fuel ih =>
    obtain rfl | hne := eq_or_ne text []
    · rw [List.append_nil] at hstr
      subst hstr
      exact ⟨s, [], splitFor_exit (Or.inr hfirst) hfuel, (List.append_nil _).symm,
        putsOut_end str delims⟩
    · obtain ⟨token, rest, rfl, htoken, hrest⟩ := exists_token delims text
      have hpos : 0 < (token ++ rest).length := List.length_pos_iff.mpr hne
      have hlen : str.length = pre.length + (token ++ rest).length := by
        rw [hstr, List.length_append]
      have hloop : splitFor str delims (fuel + 1) s =
          splitFor str delims fuel (splitStep str delims s) := by
        rw [splitFor, if_pos ⟨hsecond.resolve_left hne, by omega⟩]
      have hstep := splitStep_token hfirst htoken hrest
      rw [← hstr] at hstep
      rw [hloop, hstep]
      rw [List.length_append] at hlen hpos hfuel
      cases rest with
      | nil =>
        rw [List.length_nil, Nat.add_zero] at hlen hpos
        refine ⟨_, tokenSpans pre token ++ [], splitFor_exit (Or.inl hlen.symm) (by omega),
          by rw [List.append_nil], PutsOut.cons hstr htoken hrest hpre (fun i j => ?_)
            (by simp [splitLoop]) List.Pairwise.nil⟩
        refine ⟨fun h => absurd h List.not_mem_nil, fun h => ?_⟩
        have hlt := h.1.lt
        have hle := h.1.le
        omega
      | cons d rest =>
        rw [List.length_cons] at hlen hfuel
        have hnext : pre.length + token.length + 1 = (pre ++ token ++ [d]).length := by
          simp only [List.length_append, List.length_singleton]
        have hdelim : Delim str delims ((pre ++ token ++ [d]).length - 1) := by
          refine ⟨d, ?_, hrest d rfl⟩
          rw [← hnext, hstr, ← List.append_assoc]
          simp
        have hsecond' : pre.length + token.length ≠ str.length := by omega
        obtain ⟨c, spans, hrun, hspans, hputs⟩ := ih (pre ++ token ++ [d]) rest
          ⟨_, _, s.output ++ tokenSpans pre token⟩ (by rw [hstr]; simp) (Or.inr hdelim)
          hnext (Or.inr hsecond') (by omega)
        refine ⟨c, tokenSpans pre token ++ spans, hrun, by rw [hspans, List.append_assoc],
          PutsOut.cons hstr htoken hrest hpre (fun i j => ?_) hputs.tokens hputs.ordered⟩
        rw [hputs.runs, hnext]

/-- The loop ends, and it puts out the maximal runs without delimiters, in order. -/
theorem split_maximalRuns (str delims : List Char) :
    ∃ s, splitFor str delims (str.length + 1) ⟨0, 0, []⟩ = some s ∧
      split str delims = s.output.map (slice str) ∧
      (∀ i j, (i, j) ∈ s.output ↔ MaximalRun str delims i j) ∧
      s.output.Pairwise (fun a b => a.2 < b.1) ∧
      (∀ token ∈ split str delims, token ≠ [] ∧ ∀ c ∈ token, c ∉ delims) ∧
      (split str delims).flatten = str.filter fun c => !delims.contains c := by
  have hsecond : str = [] ∨ (⟨0, 0, []⟩ : Cursors).second ≠ str.length := by
    cases str with
    | nil => exact Or.inl rfl
    | cons c str => exact Or.inr (by simp)
  obtain ⟨s, spans, hrun, hspans, hputs⟩ := splitFor_putsOut (str.length + 1) [] str ⟨0, 0, []⟩
    rfl (Or.inl (List.length_nil)) rfl hsecond (Nat.lt_succ_self _)
  rw [List.nil_append] at hspans
  subst hspans
  refine ⟨s, hrun, hputs.tokens, fun i j => ?_, hputs.ordered, ?_, ?_⟩
  · rw [hputs.runs]
    simp
  · exact splitLoop_free delims str
  · exact splitLoop_flatten delims str

end V60
