import V60.Parameters

/-!
# Parameters and path segments

What a parameter captures is a segment of the path as long as the path has no
more segments than the pattern; the character class of a parameter admits the
slash, so that one of a longer path captures several segments and the slashes
between them.
-/

namespace V60

open Regex Pcre

/-- The texts behind the slashes of a path. -/
def pathSegments (path : List Char) : List (List Char) := (path.splitOn '/').tail

def Segment.Fits (captures : Key → List Char → Prop) : Segment → List Char → Prop
  | .literal word, text => text = word
  | .parameter name, text => captures name text ∧ text ≠ [] ∧ '/' ∉ text

/-- The path is made of one segment for each of the pattern: its literals, and the texts that the
parameters have. -/
def SegmentWise (segs : List Segment) (path : List Char) (value : Key → Option (List Char)) :
    Prop :=
  path.splitOn '/' = [] :: pathSegments path ∧
    List.Forall₂ (Segment.Fits fun name text => value name = some text) segs (pathSegments path)

/-- A parameter that the pattern repeats stands for one text. -/
def RepeatsAgree (segs : List Segment) (path : List Char) : Prop :=
  ∀ (i j : ℕ) (name : Key), segs[i]? = some (.parameter name) →
    segs[j]? = some (.parameter name) → (pathSegments path)[i]? = (pathSegments path)[j]?

theorem forall₂_getElem? {α β : Type*} {R : α → β → Prop} {l : List α} {l' : List β}
    (h : List.Forall₂ R l l') {i : ℕ} {a : α} (ha : l[i]? = some a) :
    ∃ b, l'[i]? = some b ∧ R a b := by
  obtain ⟨hi, rfl⟩ := List.getElem?_eq_some_iff.mp ha
  have hi' : i < l'.length := h.length_eq ▸ hi
  exact ⟨l'[i], List.getElem?_eq_getElem hi', h.get hi hi'⟩

theorem splitOn_length (path : List Char) :
    (path.splitOn '/').length = path.count '/' + 1 := by
  induction path with
  | nil => simp
  | cons c path ih =>
    rw [List.splitOn_cons_eq_if_modifyHead, List.count_cons]
    split_ifs
    · rw [List.length_cons, ih]
    · rw [List.length_modifyHead, ih, Nat.add_zero]

theorem splitOn_slash (path : List Char) :
    ('/' :: path).splitOn '/' = [] :: path.splitOn '/' := by
  rw [List.splitOn_cons_eq_if_modifyHead, if_pos (by decide)]

theorem pathSegments_cons {v rest : List Char} (hv : '/' ∉ v)
    (hrest : rest = [] ∨ rest.head? = some '/') :
    pathSegments ('/' :: v ++ rest) = v :: pathSegments rest := by
  rw [pathSegments, List.cons_append, splitOn_slash, List.tail_cons]
  rcases hrest with rfl | hrest
  · rw [List.append_nil, List.splitOn_eq_singleton hv]
    rfl
  · obtain ⟨tail, rfl⟩ := List.head?_eq_some_iff.mp hrest
    rw [List.splitOn_append_cons_self_of_not_mem hv, pathSegments, splitOn_slash, List.tail_cons]

theorem Segment.Valid.noSlash {word : List Char} (h : (Segment.literal word).Valid) :
    '/' ∉ word := by
  intro hmem
  exact absurd (h.2 '/' hmem) (by decide)

theorem mem_names_of_getElem? {segs : List Segment} {i : ℕ} {name : Key}
    (h : segs[i]? = some (.parameter name)) : name ∈ Segment.names segs := by
  induction segs generalizing i with
  | nil => cases h
  | cons s segs ih =>
    cases i with
    | zero =>
      obtain rfl := Option.some.inj h
      exact List.mem_cons_self
    | succ i =>
      cases s with
      | literal word => exact ih h
      | parameter x => exact List.mem_cons_of_mem x (ih h)

theorem position_unique {segs : List Segment} (hnodup : (Segment.names segs).Nodup) {i j : ℕ}
    {name : Key} (hi : segs[i]? = some (.parameter name))
    (hj : segs[j]? = some (.parameter name)) : i = j := by
  induction segs generalizing i j with
  | nil => cases hi
  | cons s segs ih =>
    have htail : (Segment.names segs).Nodup := by
      cases s with
      | literal word => exact hnodup
      | parameter x => exact (List.nodup_cons.mp hnodup).2
    have hhead : ∀ k : ℕ, (s :: segs)[0]? = some (.parameter name) →
        (s :: segs)[k + 1]? ≠ some (.parameter name) := by
      intro k hzero hsucc
      obtain rfl := Option.some.inj hzero
      exact (List.nodup_cons.mp hnodup).1 (mem_names_of_getElem? hsucc)
    cases i with
    | zero =>
      cases j with
      | zero => rfl
      | succ j => exact absurd hj (hhead j hi)
    | succ i =>
      cases j with
      | zero => exact absurd hi (hhead i hj)
      | succ j => rw [ih htail hi hj]

theorem repeatsAgree_of_nodup {segs : List Segment} (hnodup : (Segment.names segs).Nodup)
    (path : List Char) : RepeatsAgree segs path := by
  intro i j name hi hj
  rw [position_unique hnodup hi hj]

theorem forall₂_fits_congr {f g : Key → List Char → Prop} {segs : List Segment}
    {texts : List (List Char)}
    (hfg : ∀ name ∈ Segment.names segs, ∀ text, f name text → g name text)
    (h : List.Forall₂ (Segment.Fits f) segs texts) : List.Forall₂ (Segment.Fits g) segs texts := by
  induction h with
  | nil => exact .nil
  | @cons seg text segs texts hfits h ih =>
    cases seg with
    | literal word => exact .cons hfits (ih hfg)
    | parameter name =>
      exact .cons ⟨hfg name List.mem_cons_self text hfits.1, hfits.2⟩
        (ih fun x hx => hfg x (List.mem_cons_of_mem name hx))

namespace Instance

variable {segs : List Segment} {vs : Values} {t : List Char}

theorem forall₂_segments (h : Instance segs vs t) (hvalid : ∀ s ∈ segs, s.Valid)
    (hslash : ∀ v ∈ vs, '/' ∉ v.2) :
    List.Forall₂ (Segment.Fits fun name text => (name, text) ∈ vs) segs (pathSegments t) := by
  induction h with
  | nil => exact .nil
  | @literal segs vs t word h ih =>
    rw [pathSegments_cons (hvalid _ List.mem_cons_self).noSlash h.head]
    exact .cons rfl (ih (fun s hs => hvalid s (List.mem_cons_of_mem _ hs)) hslash)
  | @parameter segs vs t v name hv hspace h ih =>
    rw [pathSegments_cons (hslash _ List.mem_cons_self) h.head]
    have htail := ih (fun s hs => hvalid s (List.mem_cons_of_mem _ hs))
      fun w hw => hslash w (List.mem_cons_of_mem _ hw)
    refine .cons ⟨List.mem_cons_self, hv, hslash _ List.mem_cons_self⟩ (htail.imp ?_)
    intro seg text hfits
    cases seg with
    | literal word => exact hfits
    | parameter name' => exact ⟨List.mem_cons_of_mem _ hfits.1, hfits.2⟩

/-- A captured text stands at a position of its parameter. -/
theorem position (h : Instance segs vs t) (hvalid : ∀ s ∈ segs, s.Valid)
    (hslash : ∀ v ∈ vs, '/' ∉ v.2) {name : Key} {v : List Char} (hmem : (name, v) ∈ vs) :
    ∃ i : ℕ, segs[i]? = some (.parameter name) ∧ (pathSegments t)[i]? = some v := by
  induction h with
  | nil => exact absurd hmem List.not_mem_nil
  | @literal segs vs t word h ih =>
    rw [pathSegments_cons (hvalid _ List.mem_cons_self).noSlash h.head]
    obtain ⟨i, hi, htext⟩ := ih (fun s hs => hvalid s (List.mem_cons_of_mem _ hs)) hslash hmem
    exact ⟨i + 1, hi, htext⟩
  | @parameter segs vs t w x hw hspace h ih =>
    rw [pathSegments_cons (hslash _ List.mem_cons_self) h.head]
    rcases List.mem_cons.mp hmem with heq | hmem
    · obtain ⟨rfl, rfl⟩ := Prod.mk.inj heq
      exact ⟨0, rfl, rfl⟩
    · obtain ⟨i, hi, htext⟩ := ih (fun s hs => hvalid s (List.mem_cons_of_mem _ hs))
        (fun u hu => hslash u (List.mem_cons_of_mem _ hu)) hmem
      exact ⟨i + 1, hi, htext⟩

theorem splitOn_eq (h : Instance segs vs t) : t.splitOn '/' = [] :: pathSegments t := by
  cases h with
  | nil => rfl
  | literal word h => rw [pathSegments, List.cons_append, splitOn_slash, List.tail_cons]
  | parameter name hv hspace h => rw [pathSegments, List.cons_append, splitOn_slash, List.tail_cons]

theorem exists_value (h : Instance segs vs t) {name : Key} (hname : name ∈ Segment.names segs) :
    (name, captured vs name) ∈ vs := by
  rw [← h.names_eq] at hname
  clear h
  induction vs with
  | nil => exact absurd hname List.not_mem_nil
  | cons v vs ih =>
    obtain ⟨x, text⟩ := v
    by_cases hx : name = x
    · rw [hx, captured_cons_self]
      exact List.mem_cons_self
    · rw [captured_cons_of_ne _ _ hx]
      exact List.mem_cons_of_mem _ (ih ((List.mem_cons.mp hname).resolve_left hx))

/-- An instance is segment-wise exactly if it has no slashes but those of the pattern, and one text
for each parameter. -/
theorem segmentWise_iff (h : Instance segs vs t) (hvalid : ∀ s ∈ segs, s.Valid) :
    SegmentWise segs t (fun name => some (captured vs name)) ↔
      t.count '/' ≤ segs.length ∧ RepeatsAgree segs t := by
  constructor
  · intro hwise
    have hlen := hwise.2.length_eq
    have hcount := splitOn_length t
    rw [hwise.1, List.length_cons] at hcount
    refine ⟨by omega, fun i j name hi hj => ?_⟩
    obtain ⟨text, htext, hfits⟩ := forall₂_getElem? hwise.2 hi
    obtain ⟨text', htext', hfits'⟩ := forall₂_getElem? hwise.2 hj
    rw [htext, htext', ← hfits.1, ← hfits'.1]
  · intro hcond
    obtain ⟨hle, hrepeat⟩ := hcond
    have hcount := h.count_slash hvalid
    have hslash : ∀ v ∈ vs, '/' ∉ v.2 := by
      intro v hv hmem
      have hzero : (vs.flatMap Prod.snd).count '/' = 0 := by omega
      exact List.count_eq_zero.mp hzero (List.mem_flatMap.mpr ⟨v, hv, hmem⟩)
    have hfits := h.forall₂_segments hvalid hslash
    refine ⟨h.splitOn_eq, List.forall₂_iff_get.mpr ⟨hfits.length_eq, fun i hi hi' => ?_⟩⟩
    have hat := hfits.get hi hi'
    cases hseg : segs.get ⟨i, hi⟩ with
    | literal word =>
      rw [hseg] at hat
      exact hat
    | parameter name =>
      rw [hseg] at hat
      refine ⟨congrArg some ?_, hat.2⟩
      -- the engine gives the first text of this name, and all of them are the same
      have hname : name ∈ Segment.names segs := by
        rw [← h.names_eq]
        exact List.mem_map_of_mem hat.1
      obtain ⟨j, hj, htext⟩ := h.position hvalid hslash (h.exists_value hname)
      have hagree := hrepeat i j name (hseg ▸ List.getElem?_eq_getElem hi) hj
      rw [htext, List.getElem?_eq_getElem hi'] at hagree
      exact (Option.some.inj hagree).symm

end Instance

/-- On a path that the route matches, what the handler finds under the parameters is the path's
segments exactly if the path has no more slashes than the pattern has segments, and repeats a text
where the pattern repeats a parameter. -/
theorem getAt_segmentWise_iff {env : Env} (henv : env.ctre = Ctre.pcre) {segs : List Segment}
    (hsegs : ∀ s ∈ segs, s.Valid) {req : Request} {h : Handler} (hget : req.method = .get)
    (hmatch : ((Tree.getAt (segs.flatMap Segment.text) h).routable env).isMatch .get
      req.remaining = true) :
    ∃ req', (∀ fn resp, ((Tree.getAt (segs.flatMap Segment.text) fn).routable env).call req resp =
        fn.run .get req' resp) ∧
      (SegmentWise segs req.remaining req'.params.get ↔
        req.remaining.count '/' ≤ segs.length ∧ RepeatsAgree segs req.remaining) := by
  obtain ⟨-, vs, hhead⟩ := (getAt_isMatch_iff henv hsegs h).mp hmatch
  obtain ⟨t, ht, htext⟩ := mem_splits.mp (List.mem_of_head? hhead)
  rw [List.append_nil] at htext
  subst htext
  obtain ⟨req', hcall, -, hparams⟩ := getAt_call henv hsegs hget hhead
  refine ⟨req', hcall, ?_⟩
  rw [← ht.segmentWise_iff hsegs]
  exact and_congr_right fun _ =>
    ⟨forall₂_fits_congr fun name hname text h => (hparams name hname).symm.trans h,
      forall₂_fits_congr fun name hname text h => (hparams name hname).trans h⟩

theorem getAt_segmentWise_hello :
    ∃ req' : Request, SegmentWise helloPattern.segments "/hello/v60".toList req'.params.get := by
  obtain ⟨req', -, hwise⟩ := @getAt_segmentWise_iff (pcreEnv .debug) rfl helloPattern.segments
    helloPattern.valid (Request.ofRaw (getRequest "/hello/v60".toList (by decide))) helloHandler rfl
    (by decide +kernel)
  exact ⟨req', hwise.mpr ⟨by decide +kernel, repeatsAgree_of_nodup helloPattern.nodup _⟩⟩

/-- A path with one more segment is matched as well, and the parameter has a slash in it. -/
theorem hello_captures_slash :
    let req := Request.ofRaw (getRequest "/hello/a/b".toList (by decide))
    ((Tree.getAt helloPattern.text helloHandler).routable (pcreEnv .debug)).isMatch .get
        req.remaining = true ∧
      ∃ req', (∀ fn resp, ((Tree.getAt helloPattern.text fn).routable (pcreEnv .debug)).call req
          resp = fn.run .get req' resp) ∧
        req'.params.get "name".toList = some "a/b".toList ∧
        ¬SegmentWise helloPattern.segments req.remaining req'.params.get := by
  intro req
  have hhead : (splits helloPattern.segments req.remaining).head? =
      some ([("name".toList, "a/b".toList)], []) := by decide +kernel
  obtain ⟨req', hcall, -, hparams⟩ := @getAt_call (pcreEnv .debug) rfl helloPattern.segments
    helloPattern.valid req rfl _ hhead
  have hname : "name".toList ∈ Segment.names helloPattern.segments := by decide
  have hvalue : req'.params.get "name".toList = some "a/b".toList := by
    rw [hparams _ hname, captured_cons_self]
  rw [← Pattern.text] at hcall
  refine ⟨by decide +kernel, req', hcall, hvalue, fun hwise => ?_⟩
  have hlen := hwise.2.length_eq
  have hcount := splitOn_length req.remaining
  rw [hwise.1, List.length_cons, ← hlen] at hcount
  exact absurd hcount (by decide +kernel)

end V60
