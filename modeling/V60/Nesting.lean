import V60.Parameters

/-!
# Nested bindings and flat patterns

A binding takes the longest prefix of the path that its pattern fits and does
not give any of it back. The flat pattern may give back what the first part
took, so it matches more: the two agree on a path of the flat pattern exactly
when the second part fits what the longest prefix leaves.
-/

namespace V60

open Regex Pcre

/-- What is left of a text after its longest prefix that is an instance of the pattern. -/
structure LongestLeaves (segs : List Segment) (input rest : List Char) : Prop where
  fits : ∃ vs t, Instance segs vs t ∧ input = t ++ rest
  longest : ∀ vs t rest', Instance segs vs t → input = t ++ rest' → rest.length ≤ rest'.length

theorem longestLeaves_of_head {segs : List Segment} {input rest : List Char} {vs : Values}
    (h : (splits segs input).head? = some (vs, rest)) : LongestLeaves segs input rest := by
  obtain ⟨t, ht, hinput⟩ := mem_splits.mp (List.mem_of_head? h)
  refine ⟨⟨vs, t, ht, hinput⟩, fun ws u rest' hu hrest => ?_⟩
  exact splits_head_le h (mem_splits.mpr ⟨u, hu, hrest⟩)

theorem LongestLeaves.head {segs : List Segment} {input rest : List Char}
    (h : LongestLeaves segs input rest) :
    ∃ vs, (splits segs input).head? = some (vs, rest) := by
  obtain ⟨vs, t, ht, hinput⟩ := h.fits
  have hmem : (vs, rest) ∈ splits segs input := mem_splits.mpr ⟨t, ht, hinput⟩
  cases hhead : (splits segs input).head? with
  | none =>
    rw [List.head?_eq_none_iff.mp hhead] at hmem
    exact absurd hmem List.not_mem_nil
  | some m =>
    obtain ⟨ws, r⟩ := m
    obtain ⟨u, hu, hinput'⟩ := mem_splits.mp (List.mem_of_head? hhead)
    have hle : r.length ≤ rest.length := splits_head_le hhead hmem
    have hge : rest.length ≤ r.length := h.longest ws u r hu hinput'
    have hsuffix : r <:+ rest := List.suffix_of_suffix_length_le ⟨u, hinput'.symm⟩
      ⟨t, hinput.symm⟩ hle
    exact ⟨ws, by rw [hsuffix.eq_of_length (le_antisymm hle hge)]⟩

theorem head_whole_iff {segs : List Segment} {input : List Char} :
    (∃ vs, (splits segs input).head? = some (vs, [])) ↔ ∃ vs, Instance segs vs input := by
  constructor
  · intro h
    obtain ⟨vs, hhead⟩ := h
    obtain ⟨t, ht, rfl⟩ := mem_splits.mp (List.mem_of_head? hhead)
    rw [List.append_nil]
    exact ⟨vs, ht⟩
  · intro h
    obtain ⟨vs, h⟩ := h
    exact splits_head_whole h

theorem splits_append_head {ps qs : List Segment} {input rest : List Char} {vs ws : Values}
    (hp : (splits ps input).head? = some (vs, rest))
    (hq : (splits qs rest).head? = some (ws, [])) :
    (splits (ps ++ qs) input).head? = some (vs ++ ws, []) := by
  obtain ⟨tail, htail⟩ := List.head?_eq_some_iff.mp hp
  rw [splits_append, htail, List.flatMap_cons, List.head?_append, List.head?_map, hq]
  rfl

theorem captured_append {vs ws : Values} (name : Key) :
    captured (vs ++ ws) name =
      if name ∈ vs.map Prod.fst then captured vs name else captured ws name := by
  induction vs with
  | nil => rfl
  | cons v vs ih =>
    obtain ⟨x, text⟩ := v
    rw [List.cons_append]
    by_cases hx : name = x
    · subst hx
      rw [captured_cons_self, captured_cons_self, List.map_cons, if_pos List.mem_cons_self]
    · rw [captured_cons_of_ne _ _ hx, captured_cons_of_ne _ _ hx, ih]
      simp only [List.map_cons, List.mem_cons, hx, false_or]

def Pattern.append (P Q : Pattern) (h : P.names.Disjoint Q.names) : Pattern where
  segments := P.segments ++ Q.segments
  valid s hs := (List.mem_append.mp hs).elim (P.valid s) (Q.valid s)
  nodup := by
    rw [Segment.names_append]
    refine List.nodup_append.mpr ⟨P.nodup, Q.nodup, ?_⟩
    intro name hP _ hQ heq
    subst heq
    exact h hP hQ

theorem Pattern.text_append (P Q : Pattern) (h : P.names.Disjoint Q.names) :
    (P.append Q h).text = P.text ++ Q.text :=
  List.flatMap_append

section Nesting

variable {env : Env} (henv : env.ctre = Ctre.pcre) (P Q : Pattern) (h : Handler)
include henv

theorem nested_isMatch_iff (v : Verb) (path : List Char) :
    ((Tree.binding P.text (.getAt Q.text h)).routable env).isMatch v path = true ↔
      v = .get ∧ ∃ rest ws, LongestLeaves P.segments path rest ∧ Instance Q.segments ws rest := by
  have hmatch : ((Tree.binding P.text (.getAt Q.text h)).routable env).isMatch v path =
      (splits P.segments path).head?.any fun m =>
        ((Tree.getAt Q.text h).routable env).isMatch v m.2 :=
    binding_isMatch_segments henv P.valid v path
  rw [hmatch, Option.any_eq_true]
  constructor
  · intro h
    obtain ⟨⟨vs, rest⟩, hhead, hnext⟩ := h
    obtain ⟨hv, hwhole⟩ := (getAt_isMatch_iff henv Q.valid h).mp hnext
    obtain ⟨ws, hws⟩ := head_whole_iff.mp hwhole
    exact ⟨hv, rest, ws, longestLeaves_of_head hhead, hws⟩
  · intro h
    obtain ⟨hv, rest, ws, hlongest, hws⟩ := h
    obtain ⟨vs, hhead⟩ := hlongest.head
    exact ⟨(vs, rest), hhead,
      (getAt_isMatch_iff henv Q.valid h).mpr ⟨hv, head_whole_iff.mpr ⟨ws, hws⟩⟩⟩

variable (hnames : P.names.Disjoint Q.names)
include hnames

theorem flat_isMatch_iff (v : Verb) (path : List Char) :
    ((Tree.getAt (P.text ++ Q.text) h).routable env).isMatch v path = true ↔
      v = .get ∧ ∃ vs, Instance (P.segments ++ Q.segments) vs path := by
  have hmatch : ((Tree.getAt (P.append Q hnames).text h).routable env).isMatch v path = true ↔
      v = .get ∧ ∃ vs, (splits (P.append Q hnames).segments path).head? = some (vs, []) :=
    getAt_isMatch_iff henv (P.append Q hnames).valid h
  rw [← P.text_append Q hnames, hmatch, head_whole_iff]
  rfl

theorem nested_call_eq {req : Request} (hget : req.method = .get) (resp : Response)
    {rest : List Char} {ws : Values} (hlongest : LongestLeaves P.segments req.remaining rest)
    (hws : Instance Q.segments ws rest) :
    ∃ req₁ req₂,
      ((Tree.binding P.text (.getAt Q.text h)).routable env).call req resp =
        h.run .get req₁ resp ∧
      ((Tree.getAt (P.text ++ Q.text) h).routable env).call req resp = h.run .get req₂ resp ∧
      ∀ name ∈ P.names ++ Q.names, ∃ value,
        req₁.params.get name = some value ∧ req₂.params.get name = some value := by
  obtain ⟨vs, hp⟩ := hlongest.head
  obtain ⟨us, hq⟩ := splits_head_whole hws
  obtain ⟨t, ht, -⟩ := mem_splits.mp (List.mem_of_head? hp)
  have hnext : ((Tree.getAt Q.text h).routable env).isMatch req.method rest = true :=
    (getAt_isMatch_iff henv Q.valid h).mpr ⟨hget, us, hq⟩
  obtain ⟨req₀, hcall₀, hmethod₀, hrem₀, hparams₀⟩ := binding_call_segments henv P.valid hp
  obtain ⟨req₁, hcall₁, -, -, hparams₁⟩ := binding_call_segments henv Q.valid
    (hrem₀.symm ▸ hq : (splits Q.segments req₀.remaining).head? = some (us, []))
  obtain ⟨req₂, hcall₂, -, hparams₂⟩ := getAt_call henv (P.append Q hnames).valid hget
    (splits_append_head hp hq)
  refine ⟨req₁, req₂, ?_, ?_, fun name hname => ?_⟩
  · have hend := hcall₁ (endPoint .get h) resp
      ((endPoint_isMatch .get _ h []).mpr ⟨hmethod₀.trans hget, rfl⟩)
    rw [endPoint_call] at hend
    exact (hcall₀ _ resp hnext).trans hend
  · rw [← P.text_append Q hnames]
    exact hcall₂ h resp
  · have hname₂ : name ∈ (P.append Q hnames).names := by
      rw [Pattern.names, Pattern.append, Segment.names_append]
      exact hname
    refine ⟨_, ?_, hparams₂ name hname₂⟩
    rw [hparams₁ name, captured_append, ht.names_eq]
    by_cases hmem : name ∈ Segment.names P.segments
    · have hdisjoint : name ∉ Segment.names Q.segments := fun hQ => hnames hmem hQ
      rw [if_neg hdisjoint, if_pos hmem, hparams₀ name, if_pos hmem]
    · have hQ : name ∈ Segment.names Q.segments := (List.mem_append.mp hname).resolve_left hmem
      rw [if_pos hQ, if_neg hmem]

def Agree (env : Env) (P Q : Pattern) (h : Handler) (v : Verb) (path : List Char) : Prop :=
  let nested := (Tree.binding P.text (.getAt Q.text h)).routable env
  let flat := (Tree.getAt (P.text ++ Q.text) h).routable env
  nested.isMatch v path = flat.isMatch v path ∧
    (nested.isMatch v path = true → ∀ req resp, req.method = v → req.remaining = path →
      ∃ req₁ req₂, nested.call req resp = h.run .get req₁ resp ∧
        flat.call req resp = h.run .get req₂ resp ∧
        ∀ name ∈ P.names ++ Q.names, ∃ value,
          req₁.params.get name = some value ∧ req₂.params.get name = some value)

/-- They agree exactly on other verbs, on paths that are no instance of the flat pattern, and where
the inner pattern fits what the longest instance of the outer one leaves. -/
theorem nested_agrees_iff (v : Verb) (path : List Char) :
    Agree env P Q h v path ↔
      v ≠ .get ∨ (¬∃ vs, Instance (P.segments ++ Q.segments) vs path) ∨
        ∃ rest ws, LongestLeaves P.segments path rest ∧ Instance Q.segments ws rest := by
  have hnested := nested_isMatch_iff henv P Q h v path
  have hflat := flat_isMatch_iff henv P Q h hnames v path
  constructor
  · intro h
    obtain ⟨heq, -⟩ := h
    by_cases hv : v = .get
    · by_cases hinst : ∃ vs, Instance (P.segments ++ Q.segments) vs path
      · exact Or.inr (Or.inr (hnested.mp (heq.trans (hflat.mpr ⟨hv, hinst⟩))).2)
      · exact Or.inr (Or.inl hinst)
    · exact Or.inl hv
  · intro hcond
    have himp : ((Tree.binding P.text (.getAt Q.text h)).routable env).isMatch v path = true →
        ((Tree.getAt (P.text ++ Q.text) h).routable env).isMatch v path = true := by
      intro hmatch
      obtain ⟨hv, rest, ws, hlongest, hws⟩ := hnested.mp hmatch
      obtain ⟨vs, t, ht, rfl⟩ := hlongest.fits
      exact hflat.mpr ⟨hv, vs ++ ws, ht.append hws⟩
    refine ⟨Bool.eq_iff_iff.mpr ⟨himp, fun hmatch => ?_⟩, ?_⟩
    · obtain ⟨hv, hinst⟩ := hflat.mp hmatch
      rcases hcond with hne | hnone | hsome
      · exact absurd hv hne
      · exact absurd hinst hnone
      · exact hnested.mpr ⟨hv, hsome⟩
    · intro hmatch req resp hmethod hremaining
      subst hremaining
      obtain ⟨hv, rest, ws, hlongest, hws⟩ := hnested.mp hmatch
      exact nested_call_eq henv P Q h hnames (hmethod.trans hv) resp hlongest hws

end Nesting

/-! ## A parameter at the end of the outer pattern -/

theorem nonSpace_of_isWord {c : Char} (h : isWord c = true) : nonSpace c = true := by
  have hne : ∀ d, isWord d = false → (c == d) = false := by
    intro d hd
    rw [beq_eq_false_iff_ne]
    intro heq
    subst heq
    exact absurd h (by simp [hd])
  simp only [nonSpace, isSpace, hne ' ' (by decide), hne '\t' (by decide), hne '\n' (by decide),
    hne '\x0b' (by decide), hne '\x0c' (by decide), hne '\r' (by decide)]
  rfl

theorem Instance.nonSpace {segs : List Segment} {vs : Values} {t : List Char}
    (h : Instance segs vs t) (hvalid : ∀ s ∈ segs, s.Valid) : ∀ c ∈ t, Pcre.nonSpace c = true := by
  induction h with
  | nil => simp
  | @literal segs vs t word h ih =>
    have hs : (Segment.literal word).Valid := hvalid _ List.mem_cons_self
    intro c hc
    rcases List.mem_append.mp hc with hword | htail
    · rcases List.mem_cons.mp hword with rfl | hword
      · decide
      · exact nonSpace_of_isWord (hs.2 c hword)
    · exact ih (fun s hs => hvalid s (List.mem_cons_of_mem _ hs)) c htail
  | @parameter segs vs t v name hv hspace h ih =>
    intro c hc
    rcases List.mem_append.mp hc with hvalue | htail
    · rcases List.mem_cons.mp hvalue with rfl | hvalue
      · decide
      · exact hspace c hvalue
    · exact ih (fun s hs => hvalid s (List.mem_cons_of_mem _ hs)) c htail

theorem Instance.of_append {ps qs : List Segment} {vs : Values} {t : List Char}
    (h : Instance (ps ++ qs) vs t) :
    ∃ us ws u w, Instance ps us u ∧ Instance qs ws w ∧ t = u ++ w := by
  induction ps generalizing vs t with
  | nil => exact ⟨[], vs, [], t, .nil, h, rfl⟩
  | cons s ps ih =>
    cases h with
    | literal word h =>
      obtain ⟨us, ws, u, w, hu, hw, rfl⟩ := ih h
      exact ⟨us, ws, _, w, .literal word hu, hw, (List.append_assoc _ _ _).symm⟩
    | parameter name hv hspace h =>
      obtain ⟨us, ws, u, w, hu, hw, rfl⟩ := ih h
      exact ⟨_, ws, _, w, .parameter name hv hspace hu, hw, (List.append_assoc _ _ _).symm⟩

/-- A parameter at the end of the outer pattern takes the rest of the path, so that nothing is
left for an inner pattern: the nested bindings of the manual match none of their paths. -/
theorem binding_swallows {env : Env} (henv : env.ctre = Ctre.pcre) {P Q : Pattern} {h : Handler}
    {ps : List Segment} {x : Key} (hP : P.segments = ps ++ [.parameter x])
    (hQ : Q.segments ≠ []) {v : Verb} {path : List Char} {vs : Values}
    (hpath : Instance (P.segments ++ Q.segments) vs path) :
    ((Tree.binding P.text (.getAt Q.text h)).routable env).isMatch v path = false := by
  rw [← Bool.not_eq_true, nested_isMatch_iff henv P Q h]
  intro h
  obtain ⟨-, rest, ws, hlongest, hws⟩ := h
  obtain ⟨us, ws', u, w, hu, hw, rfl⟩ := hpath.of_append
  rw [hP] at hu
  obtain ⟨us', _, u', _, hu', hlast, rfl⟩ := hu.of_append
  obtain _ | _ | @⟨_, _, _, value, _, hne, hspace, hnil⟩ := hlast
  cases hnil
  have hwhole : Instance P.segments (us' ++ [(x, value ++ w)])
      (u' ++ ('/' :: (value ++ w) ++ [])) := by
    rw [hP]
    refine hu'.append (.parameter x (by simp [hne]) (fun c hc => ?_) .nil)
    exact (List.mem_append.mp hc).elim (hspace c) (hw.nonSpace Q.valid c)
  have hrest : rest = [] := by
    have hle := hlongest.longest _ _ [] hwhole (by simp)
    exact List.length_eq_zero_iff.mp (Nat.le_zero.mp hle)
  subst hrest
  cases hsegs : Q.segments with
  | nil => exact hQ hsegs
  | cons s segs =>
    rw [hsegs] at hws
    cases hws

def userPattern : Pattern where
  segments := [.literal "user".toList]
  valid s hs := List.mem_singleton.mp hs ▸ ⟨by decide, List.all_eq_true.mp (by decide)⟩
  nodup := List.nodup_nil

def userIdPattern : Pattern where
  segments := [.parameter "userId".toList]
  valid s hs := List.mem_singleton.mp hs ▸ ⟨⟨'u', rfl, by decide⟩, List.all_eq_true.mp (by decide)⟩
  nodup := by decide

def userWithIdPattern : Pattern := userPattern.append userIdPattern (List.disjoint_nil_left _)

def namePattern : Pattern where
  segments := [.literal "name".toList]
  valid s hs := List.mem_singleton.mp hs ▸ ⟨by decide, List.all_eq_true.mp (by decide)⟩
  nodup := List.nodup_nil

theorem nested_agrees_user :
    Agree (pcreEnv .debug) userPattern userIdPattern helloHandler .get "/user/42".toList := by
  refine (nested_agrees_iff rfl userPattern userIdPattern helloHandler
    (List.disjoint_nil_left _) .get _).mpr
    (Or.inr (Or.inr ⟨"/42".toList, [("userId".toList, "42".toList)], ?_, ?_⟩))
  · have hhead : (splits userPattern.segments "/user/42".toList).head? =
        some ([], "/42".toList) := by decide +kernel
    exact longestLeaves_of_head hhead
  · exact .parameter "userId".toList (v := "42".toList) (by decide)
      (List.all_eq_true.mp (by decide)) .nil

/-- The binding of the manual, with `get<"/name">` inside, does not match the path it is shown
with; the flat pattern does. -/
theorem nested_disagrees_name :
    userWithIdPattern.names.Disjoint namePattern.names ∧
      ¬Agree (pcreEnv .debug) userWithIdPattern namePattern helloHandler .get
        "/user/42/name".toList := by
  refine ⟨List.disjoint_nil_right _, fun hagree => ?_⟩
  exact absurd hagree.1 (by decide +kernel)

end V60
