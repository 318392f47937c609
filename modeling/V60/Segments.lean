import V60.Ctre

/-!
# Segment patterns

Route patterns made of `/`-led segments, each a plain literal or a parameter.
`Instance` says what texts such a pattern stands for; `splits` lists the ways
the engine reads a prefix of a text as an instance, in the order it tries them.
The engine's answer is the first of them (`startsWith_text`), and that one
leaves the shortest rest (`splits_head_le`).
-/

namespace V60

open Regex Pcre

inductive Segment where
  | literal (word : List Char)
  | parameter (name : Key)

namespace Segment

def Valid : Segment → Prop
  | .literal word => word ≠ [] ∧ ∀ c ∈ word, isWord c = true
  | .parameter name => ValidName name

def text : Segment → List Char
  | .literal word => '/' :: word
  | .parameter name => '/' :: ':' :: name

def regex : Segment → List Char
  | .literal word => '/' :: word
  | .parameter name => '/' :: paramText name

def names : List Segment → List Key
  | [] => []
  | .literal _ :: segs => names segs
  | .parameter name :: segs => name :: names segs

/-- The items the pattern language reads in the segments, after `k` groups. -/
def asts : ℕ → List Segment → List Ast
  | _, [] => []
  | k, .literal word :: segs => ('/' :: word).map character ++ asts k segs
  | k, .parameter name :: segs =>
    [character '/'] ++ ([namedGroup (k + 1) name] ++ asts (k + 1) segs)

/-- What is matched for the items. -/
def items : ℕ → List Segment → List Re
  | _, [] => []
  | k, .literal word :: segs => ('/' :: word).map Pcre.literal ++ items k segs
  | k, .parameter name :: segs =>
    [Pcre.literal '/'] ++ ([.capture (k + 1) (some name) (plus nonSpace)] ++ items (k + 1) segs)

theorem asts_not_repeats (k : ℕ) (segs : List Segment) : ∀ a ∈ asts k segs, a.repeats = false := by
  induction segs generalizing k with
  | nil => exact fun a ha => absurd ha List.not_mem_nil
  | cons s segs ih =>
    intro a ha
    cases s with
    | literal word =>
      rcases List.mem_append.mp ha with hword | hrest
      · exact character_not_repeats _ a hword
      · exact ih k a hrest
    | parameter name =>
      rcases List.mem_cons.mp ha with rfl | ha
      · rfl
      · rcases List.mem_cons.mp ha with rfl | hrest
        · rfl
        · exact ih (k + 1) a hrest

theorem parts_asts (k : ℕ) (segs : List Segment) :
    (asts k segs).flatMap Ast.parts = items k segs := by
  induction segs generalizing k with
  | nil => rfl
  | cons s segs ih =>
    cases s with
    | literal word =>
      rw [asts, items, List.flatMap_append, parts_characters, ih]
    | parameter name =>
      rw [asts, items, List.flatMap_append, List.flatMap_append, ih]
      rfl

theorem names_append (ps qs : List Segment) : names (ps ++ qs) = names ps ++ names qs := by
  induction ps with
  | nil => rfl
  | cons s ps ih => cases s <;> simp [names, ih]

end Segment

abbrev Values := List (Key × List Char)

/-- `t` is the pattern with these texts in place of its parameters. -/
inductive Instance : List Segment → Values → List Char → Prop
  | nil : Instance [] [] []
  | literal {segs : List Segment} {vs : Values} {t : List Char} (word : List Char) :
    Instance segs vs t → Instance (.literal word :: segs) vs ('/' :: word ++ t)
  | parameter {segs : List Segment} {vs : Values} {t v : List Char} (name : Key) :
    v ≠ [] → (∀ c ∈ v, nonSpace c = true) → Instance segs vs t →
      Instance (.parameter name :: segs) ((name, v) :: vs) ('/' :: v ++ t)

/-- The readings of a prefix of a text, with what each leaves. -/
def splits : List Segment → List Char → List (Values × List Char)
  | [], input => [([], input)]
  | .literal word :: segs, input =>
    if '/' :: word <+: input then splits segs (input.drop (word.length + 1)) else []
  | .parameter name :: segs, input =>
    match input with
    | [] => []
    | c :: cs =>
      if c = '/' then
        (plusSuffixes nonSpace cs).flatMap fun rest =>
          (splits segs rest).map fun m => ((name, cs.take (cs.length - rest.length)) :: m.1, m.2)
      else []

namespace Instance

variable {segs : List Segment} {vs : Values} {t : List Char}

theorem names_eq (h : Instance segs vs t) : vs.map Prod.fst = Segment.names segs := by
  induction h with
  | nil => rfl
  | literal word h ih => exact ih
  | parameter name hv hspace h ih => rw [List.map_cons, ih, Segment.names]

theorem append {qs : List Segment} {ws : Values} {u : List Char} (h : Instance segs vs t)
    (hq : Instance qs ws u) : Instance (segs ++ qs) (vs ++ ws) (t ++ u) := by
  induction h with
  | nil => exact hq
  | literal word h ih =>
    rw [List.append_assoc]
    exact .literal word ih
  | parameter name hv hspace h ih =>
    rw [List.append_assoc]
    exact .parameter name hv hspace ih

end Instance

theorem mem_splits {segs : List Segment} {input rest : List Char} {vs : Values} :
    (vs, rest) ∈ splits segs input ↔ ∃ t, Instance segs vs t ∧ input = t ++ rest := by
  constructor
  · intro h
    induction segs generalizing input vs with
    | nil =>
      obtain ⟨rfl, rfl⟩ : vs = [] ∧ rest = input := by simpa [splits] using h
      exact ⟨[], .nil, rfl⟩
    | cons s segs ih =>
      cases s with
      | literal word =>
        rw [splits] at h
        split_ifs at h with hprefix
        · obtain ⟨u, rfl⟩ := hprefix
          obtain ⟨t, ht, hrest⟩ := ih h
          refine ⟨_, .literal word ht, ?_⟩
          rw [List.append_assoc, ← hrest]
          simp
        · exact absurd h List.not_mem_nil
      | parameter name =>
        cases input with
        | nil => exact absurd h List.not_mem_nil
        | cons c cs =>
          rw [splits] at h
          split_ifs at h with hc
          · obtain ⟨u, hu, hmem⟩ := List.mem_flatMap.mp h
            obtain ⟨v, hv, hspace, rfl⟩ := mem_plusSuffixes.mp hu
            obtain ⟨⟨ws, r⟩, hm, heq⟩ := List.mem_map.mp hmem
            obtain ⟨rfl, rfl⟩ : (name, v) :: ws = vs ∧ r = rest := by simpa using heq
            obtain ⟨t, ht, rfl⟩ := ih hm
            exact ⟨_, .parameter name hv hspace ht, by simp [hc]⟩
          · exact absurd h List.not_mem_nil
  · intro h
    obtain ⟨t, ht, rfl⟩ := h
    induction ht with
    | nil => exact List.mem_singleton.mpr rfl
    | @literal segs vs t word ht ih =>
      rw [List.append_assoc, splits, if_pos ⟨t ++ rest, rfl⟩]
      simpa using ih
    | @parameter segs vs t v name hv hspace ht ih =>
      rw [List.append_assoc]
      simp only [List.cons_append, splits, if_true]
      refine List.mem_flatMap.mpr ⟨t ++ rest, mem_plusSuffixes.mpr ⟨v, hv, hspace, rfl⟩, ?_⟩
      exact List.mem_map.mpr ⟨(vs, rest), ih, by simp⟩

theorem splits_append (ps qs : List Segment) (input : List Char) :
    splits (ps ++ qs) input = (splits ps input).flatMap fun m =>
      (splits qs m.2).map fun m' => (m.1 ++ m'.1, m'.2) := by
  induction ps generalizing input with
  | nil => simp [splits]
  | cons s ps ih =>
    cases s with
    | literal word =>
      rw [List.cons_append, splits, splits]
      split_ifs
      · exact ih _
      · rfl
    | parameter name =>
      cases input with
      | nil => rfl
      | cons c cs =>
        rw [List.cons_append, splits, splits]
        split_ifs
        · rw [List.flatMap_assoc]
          apply List.flatMap_congr
          intro rest _
          rw [ih, List.map_flatMap, List.flatMap_map]
          apply List.flatMap_congr
          intro m _
          rw [List.map_map]
          rfl
        · rfl

/-! ## The first reading leaves the shortest rest -/

theorem suffix_of_append_suffix_append {x y : List Char} (a : List Char)
    (h : a ++ x <:+ a ++ y) : x <:+ y := by
  have hx : x <:+ a ++ y := (List.suffix_append a x).trans h
  apply List.suffix_of_suffix_length_le hx (List.suffix_append a y)
  have hlen := h.length_le
  simp only [List.length_append] at hlen
  omega

/-- A pattern that fits a longer text up to some rest fits a suffix of it up to that rest, or one
as short, if it fits the suffix at all. -/
theorem Instance.shorten {segs : List Segment} {vs : Values} {t r u : List Char}
    (h : Instance segs vs t) (hu : u <:+ t ++ r) (hfits : splits segs u ≠ []) :
    ∃ m ∈ splits segs u, m.2.length ≤ r.length := by
  induction h generalizing u with
  | nil => exact ⟨([], u), List.mem_singleton.mpr rfl, hu.length_le⟩
  | @literal segs vs t word h ih =>
    rw [splits] at hfits ⊢
    split_ifs at hfits ⊢ with hprefix
    · obtain ⟨u, rfl⟩ := hprefix
      rw [List.append_assoc] at hu
      have hdrop : ('/' :: word ++ u).drop (word.length + 1) = u := by simp
      rw [hdrop] at hfits ⊢
      exact ih (suffix_of_append_suffix_append _ hu) hfits
    · exact absurd rfl hfits
  | @parameter segs vs t v name hv hspace h ih =>
    obtain ⟨⟨ws, r₀⟩, hm⟩ := List.exists_mem_of_ne_nil _ hfits
    obtain ⟨_, hinst, rfl⟩ := mem_splits.mp hm
    obtain _ | _ | @⟨segs, ws, t₀, v₀, name, hv₀, hspace₀, h₀⟩ := hinst
    rw [List.append_assoc] at hu ⊢
    rw [List.append_assoc] at hu
    have hfull : '/' :: v ++ (t ++ r) = '/' :: (v ++ (t ++ r)) := rfl
    rcases le_total (t₀ ++ r₀).length (t ++ r).length with hle | hle
    · have hsuffix : t₀ ++ r₀ <:+ t ++ r :=
        List.suffix_of_suffix_length_le ((List.suffix_append _ _).trans hu)
          (List.suffix_append _ _) hle
      obtain ⟨⟨ws', r'⟩, hm', hr'⟩ := ih hsuffix
        (List.ne_nil_of_mem (mem_splits.mpr ⟨t₀, h₀, rfl⟩))
      obtain ⟨t', ht', hrest⟩ := mem_splits.mp hm'
      refine ⟨((name, v₀) :: ws', r'), mem_splits.mpr
        ⟨_, .parameter name hv₀ hspace₀ ht', ?_⟩, hr'⟩
      rw [hrest, List.append_assoc]
    · obtain ⟨extra, hextra⟩ : t ++ r <:+ t₀ ++ r₀ :=
        List.suffix_of_suffix_length_le (List.suffix_append _ _)
          ((List.suffix_append _ _).trans hu) hle
      rw [← hextra] at hu ⊢
      have hvalue : v₀ ++ extra <:+ v := by
        have hslash : '/' :: (v₀ ++ extra) <:+ '/' :: v :=
          List.suffix_append_self_iff.mp (by simpa using hu)
        exact suffix_of_append_suffix_append ['/'] hslash
      refine ⟨((name, v₀ ++ extra) :: vs, r), mem_splits.mpr
        ⟨_, .parameter name (by simp [hv₀]) (fun c hc => hspace c (hvalue.subset hc)) h, ?_⟩,
        le_rfl⟩
      simp

theorem splits_head_le {segs : List Segment} {input : List Char} {m m' : Values × List Char}
    (hm : (splits segs input).head? = some m) (hm' : m' ∈ splits segs input) :
    m.2.length ≤ m'.2.length := by
  induction segs generalizing input m m' with
  | nil =>
    obtain rfl : ([], input) = m := by simpa [splits] using hm
    rw [splits, List.mem_singleton] at hm'
    rw [hm']
  | cons s segs ih =>
    cases s with
    | literal word =>
      rw [splits] at hm hm'
      split_ifs at hm hm'
      · exact ih hm hm'
      · exact absurd hm' List.not_mem_nil
    | parameter name =>
      cases input with
      | nil => exact absurd hm' List.not_mem_nil
      | cons c cs =>
        rw [splits] at hm hm'
        split_ifs at hm hm'
        · obtain ⟨u, hu, u', hu', hhead, hmem, hle⟩ :=
            head_flatMap_of_pairwise (plusSuffixes_sorted nonSpace cs) hm hm'
          rw [List.head?_map, Option.map_eq_some_iff] at hhead
          obtain ⟨first, hfirst, rfl⟩ := hhead
          obtain ⟨⟨ws, r⟩, hother, rfl⟩ := List.mem_map.mp hmem
          obtain ⟨t, ht, hrest⟩ := mem_splits.mp hother
          have hsuffix : u <:+ t ++ r := by
            rw [← hrest]
            obtain ⟨v, -, -, hv⟩ := mem_plusSuffixes.mp hu
            obtain ⟨v', -, -, hv'⟩ := mem_plusSuffixes.mp hu'
            refine List.suffix_of_suffix_length_le ⟨v, hv.symm⟩ ⟨v', hv'.symm⟩ ?_
            exact hle.elim (fun h => h ▸ le_rfl) le_of_lt
          obtain ⟨other, hmem', hlen⟩ := ht.shorten hsuffix
            (List.ne_nil_of_mem (List.mem_of_head? hfirst))
          exact (ih hfirst hmem').trans hlen
        · exact absurd hm' List.not_mem_nil

theorem splits_head_whole {segs : List Segment} {vs : Values} {input : List Char}
    (h : Instance segs vs input) : ∃ ws, (splits segs input).head? = some (ws, []) := by
  have hmem : (vs, []) ∈ splits segs input :=
    mem_splits.mpr ⟨input, h, (List.append_nil _).symm⟩
  cases hhead : (splits segs input).head? with
  | none =>
    rw [List.head?_eq_none_iff.mp hhead] at hmem
    exact absurd hmem List.not_mem_nil
  | some m =>
    have hle := splits_head_le hhead hmem
    rw [List.length_nil, Nat.le_zero, List.length_eq_zero_iff] at hle
    exact ⟨m.1, by rw [← hle]⟩

/-! ## The engine on a segment pattern -/

namespace Segment

theorem rewriteParams_append {cs : List Char} (h : ∀ c ∈ cs, c ≠ ':') (rest : List Char) :
    rewriteParams (cs ++ rest) = cs ++ rewriteParams rest := by
  induction cs with
  | nil => rfl
  | cons c cs ih =>
    have hc : c ≠ ':' := h c List.mem_cons_self
    rw [List.cons_append, rewriteParams, if_neg (fun hparam => hc hparam.1),
      ih fun d hd => h d (List.mem_cons_of_mem c hd)]
    rfl

theorem rewriteParams_name {name rest : List Char} (hname : ValidName name)
    (hrest : rest.takeWhile isWord = []) :
    rewriteParams (':' :: (name ++ rest)) = paramText name ++ rewriteParams rest := by
  have htake : (name ++ rest).takeWhile isWord = name := by
    rw [List.takeWhile_append_of_pos hname.word, hrest, List.append_nil]
  have hdrop : (name ++ rest).dropWhile isWord = rest := by
    rw [List.dropWhile_append_of_pos hname.word]
    have happend := List.takeWhile_append_dropWhile (p := isWord) (l := rest)
    rwa [hrest, List.nil_append] at happend
  have hne : name ≠ [] := by
    obtain ⟨c, hc, -⟩ := hname.head
    intro heq
    subst heq
    simp at hc
  rw [rewriteParams, htake, hdrop, if_pos ⟨rfl, hne⟩]

theorem Valid.literal_plain {word : List Char} (h : (Segment.literal word).Valid) :
    ∀ c ∈ '/' :: word, Plain c := by
  intro c hc
  rcases List.mem_cons.mp hc with rfl | hword
  · exact Or.inr rfl
  · exact Or.inl (h.2 c hword)

theorem rewriteParams_text {segs : List Segment} (h : ∀ s ∈ segs, s.Valid) :
    rewriteParams (segs.flatMap text) = segs.flatMap regex := by
  induction segs with
  | nil => simp [rewriteParams]
  | cons s segs ih =>
    have hs : s.Valid := h s List.mem_cons_self
    have htail := ih fun s' hs' => h s' (List.mem_cons_of_mem s hs')
    rw [List.flatMap_cons, List.flatMap_cons]
    cases s with
    | literal word =>
      have hcolon : ∀ c ∈ '/' :: word, c ≠ ':' := fun c hc =>
        (hs.literal_plain c hc).ne (by decide) (by decide)
      rw [text, regex, rewriteParams_append hcolon, htail]
    | parameter name =>
      have hslash : (segs.flatMap text).takeWhile isWord = [] := by
        cases segs with
        | nil => rfl
        | cons s' segs => cases s' <;> rfl
      have hname := rewriteParams_name hs hslash
      rw [text, regex, List.cons_append, List.cons_append, rewriteParams,
        if_neg (by simp), hname, htail]
      rfl

theorem foldlM_regex {segs : List Segment} (h : ∀ s ∈ segs, s.Valid) {p : Parser}
    (hp : p.Ready) :
    (segs.flatMap regex).foldlM step p =
      some (p.append (asts p.count segs) (names segs).length) := by
  induction segs generalizing p with
  | nil => rfl
  | cons s segs ih =>
    have hs : s.Valid := h s List.mem_cons_self
    have htail := fun {p} (hp : Parser.Ready p) =>
      ih (fun s' hs' => h s' (List.mem_cons_of_mem s hs')) (p := p) hp
    rw [List.flatMap_cons, List.foldlM_append]
    cases s with
    | literal word =>
      rw [regex, foldlM_ordinary hp fun c hc => (hs.literal_plain c hc).ordinary]
      simp only [Option.bind_eq_bind, Option.bind_some]
      rw [htail (hp.append _ 0), Parser.append_append, Nat.zero_add]
      rfl
    | parameter name =>
      have hslash := step_ordinary hp (c := '/') ⟨by decide, by decide⟩
      have hname : ValidName name := hs
      have hgroup := foldlM_namedGroup (hp.append [character '/'] 0) hname
      rw [regex, List.foldlM_cons, hslash]
      simp only [Option.bind_eq_bind, Option.bind_some]
      rw [paramText, hgroup]
      simp only [Option.bind_some]
      rw [htail ((hp.append _ 0).append _ 1), Parser.append_append, Parser.append_append]
      rw [Nat.zero_add, Nat.add_comm 1]
      rfl

def number : ℕ → List Key → List (ℕ × Option Key)
  | _, [] => []
  | k, name :: names => (k + 1, some name) :: number (k + 1) names

theorem captures_items (k : ℕ) (segs : List Segment) :
    captures (seqAll (items k segs)) = number k (names segs) := by
  rw [captures_seqAll]
  induction segs generalizing k with
  | nil => rfl
  | cons s segs ih =>
    cases s with
    | literal word =>
      have hplain : (('/' :: word).map Pcre.literal).flatMap captures = [] := by
        rw [List.flatMap_map]
        exact List.flatMap_eq_nil_iff.mpr fun c _ => rfl
      rw [items, List.flatMap_append, hplain, List.nil_append, ih, names]
    | parameter name =>
      rw [items, List.flatMap_append, List.flatMap_append, ih, names, number]
      rfl

theorem number_map_snd (k : ℕ) (names : List Key) :
    (number k names).filterMap Prod.snd = names := by
  induction names generalizing k with
  | nil => rfl
  | cons name names ih => simp [number, ih]

theorem number_named (k : ℕ) (names : List Key) :
    ((number k names).all fun g => g.2.isSome) = true := by
  induction names generalizing k with
  | nil => rfl
  | cons name names ih => simp [number, ih]

theorem Valid.regex_ne_nul {s : Segment} (h : s.Valid) : ∀ c ∈ s.regex, c ≠ nul := by
  have hplain : ∀ {c : Char}, Plain c → c ≠ nul := fun hc => hc.ne (by decide) (by decide)
  intro c hc
  cases s with
  | literal word => exact hplain (h.literal_plain c hc)
  | parameter name =>
    simp only [regex, paramText, List.mem_cons, List.mem_append] at hc
    rcases hc with rfl | (hopen | hname) | hclose
    · decide
    · intro heq
      subst heq
      exact absurd hopen (by decide)
    · exact hplain (Or.inl (h.word c hname))
    · intro heq
      subst heq
      exact absurd hclose (by decide)

theorem parse_regex {segs : List Segment} (h : ∀ s ∈ segs, s.Valid) :
    parse (segs.flatMap regex) = some (seqAll (items 0 segs)) := by
  rw [parse_append (foldlM_regex h (p := Pcre.init) (Or.inl rfl)) (asts_not_repeats 0 segs),
    parts_asts]
  rfl

theorem compile_text {segs : List Segment} (h : ∀ s ∈ segs, s.Valid) :
    compile (re (segs.flatMap text)) = some (seqAll (items 0 segs)) := by
  have hlast : (rewriteParams (segs.flatMap text)).getLast? ≠ some nul := by
    rw [rewriteParams_text h]
    intro hnul
    obtain ⟨s, hs, hc⟩ := List.mem_flatMap.mp (List.mem_of_getLast? hnul)
    exact (h s hs).regex_ne_nul nul hc rfl
  rw [compile, re_eq hlast, rewriteParams_text h, parse_regex h, Option.filter_some_pos]
  rw [captures_items]
  exact number_named 0 _

def record : ℕ → Values → List (ℕ × List Char) → List (ℕ × List Char)
  | _, [], caps => caps
  | k, v :: vs, caps => record (k + 1) vs ((k + 1, v.2) :: caps)

theorem results_word (n : ℕ) (word input : List Char) (caps : List (ℕ × List Char)) :
    results n (seqAll (word.map Pcre.literal)) ⟨input, caps⟩ =
      if word <+: input then [⟨input.drop word.length, caps⟩] else [] := by
  induction word generalizing input with
  | nil => simp [seqAll, results]
  | cons c word ih =>
    rw [List.map_cons, results_seqAll_cons, Pcre.literal, results]
    cases input with
    | nil => simp
    | cons d input =>
      by_cases hd : d = c
      · simp [hd, ih]
      · simp [hd, Ne.symm hd]

theorem results_parameter (n id : ℕ) (name : Key) (input : List Char)
    (caps : List (ℕ × List Char)) :
    results n (.capture id (some name) (plus nonSpace)) ⟨input, caps⟩ =
      (plusSuffixes nonSpace input).map fun rest =>
        ⟨rest, (id, input.take (input.length - rest.length)) :: caps⟩ := by
  rw [results, results_plus, List.map_map]
  rfl

theorem results_items (n k : ℕ) (segs : List Segment) (input : List Char)
    (caps : List (ℕ × List Char)) :
    results n (seqAll (items k segs)) ⟨input, caps⟩ =
      (splits segs input).map fun m => ⟨m.2, record k m.1 caps⟩ := by
  induction segs generalizing k input caps with
  | nil => rfl
  | cons s segs ih =>
    cases s with
    | literal word =>
      rw [items, results_seqAll_append, results_word, splits]
      split_ifs
      · rw [List.flatMap_singleton, ih]
        rfl
      · rfl
    | parameter name =>
      rw [items, List.singleton_append, List.singleton_append, results_seqAll_cons, Pcre.literal,
        results]
      cases input with
      | nil => rfl
      | cons c cs =>
        rw [splits]
        by_cases hc : c = '/'
        · simp only [hc, beq_self_eq_true, if_true, List.flatMap_singleton]
          rw [results_seqAll_cons, results_parameter, List.flatMap_map, List.map_flatMap]
          apply List.flatMap_congr
          intro rest _
          rw [ih, List.map_map]
          rfl
        · simp [hc]

theorem lookup_record (k i : ℕ) (vs : Values) (caps : List (ℕ × List Char)) (h : i ≤ k) :
    (record k vs caps).lookup i = caps.lookup i := by
  induction vs generalizing k caps with
  | nil => rfl
  | cons v vs ih =>
    have hne : (i == k + 1) = false := by
      rw [beq_eq_false_iff_ne]
      omega
    rw [record, ih (k + 1) _ (by omega), List.lookup_cons, hne]

theorem lookup_number (k : ℕ) (vs : Values) (caps : List (ℕ × List Char)) (name : Key) :
    (match (number k (vs.map Prod.fst)).find? fun g => g.2 = some name with
      | some g => ((record k vs caps).lookup g.1).getD []
      | none => []) = (vs.lookup name).getD [] := by
  induction vs generalizing k caps with
  | nil => rfl
  | cons v vs ih =>
    obtain ⟨x, text⟩ := v
    rw [List.map_cons, number, record]
    by_cases hx : x = name
    · rw [List.find?_cons_of_pos (by simp [hx])]
      simp only [lookup_record (k + 1) (k + 1) vs _ le_rfl, hx, List.lookup_cons_self]
    · have hne : (name == x) = false := beq_eq_false_iff_ne.mpr (Ne.symm hx)
      rw [List.find?_cons_of_neg (by simp [hx]), List.lookup_cons, hne]
      exact ih (k + 1) _

end Segment

/-! ## Bindings of segment patterns -/

def captured (vs : Values) (name : Key) : List Char := (vs.lookup name).getD []

theorem startsWith_text {segs : List Segment} (h : ∀ s ∈ segs, s.Valid) (input : List Char) :
    Ctre.pcre.startsWith (re (segs.flatMap Segment.text)) input =
      (splits segs input).head?.map fun m => ⟨input.length - m.2.length, captured m.1⟩ := by
  have hengine : Ctre.pcre.startsWith (re (segs.flatMap Segment.text)) input =
      (compile (re (segs.flatMap Segment.text))).bind fun r =>
        (Regex.startsWith r input).map (toMatch r input) := rfl
  rw [hengine, Segment.compile_text h, Option.bind_some, startsWith_eq, start,
    Segment.results_items, List.head?_map, Option.map_map]
  cases hhead : (splits segs input).head? with
  | none => rfl
  | some m =>
    obtain ⟨t, ht, -⟩ := mem_splits.mp (List.mem_of_head? hhead)
    simp only [Option.map_some, Function.comp_apply, toMatch, Option.some.injEq, Match.mk.injEq,
      true_and]
    funext name
    rw [groupText, Segment.captures_items, ← ht.names_eq]
    exact Segment.lookup_number 0 m.1 [] name

theorem names_text {segs : List Segment} (h : ∀ s ∈ segs, s.Valid) :
    Ctre.pcre.names (re (segs.flatMap Segment.text)) = Segment.names segs := by
  have hengine : Ctre.pcre.names (re (segs.flatMap Segment.text)) =
      (compile (re (segs.flatMap Segment.text))).elim [] fun r =>
        (captures r).filterMap Prod.snd := rfl
  rw [hengine, Segment.compile_text h, Option.elim_some, Segment.captures_items,
    Segment.number_map_snd]

end V60
