import V60.Segments
import V60.GuardedDispatch

/-!
# Parameters of a path

A path made by putting texts for the parameters of a segment pattern is matched
by the pattern's route, and the handler gets these texts back, as long as they
have no slash: the slashes of the path are then all taken by the segments
(`Instance.eq_of_noSlash`). Whatever path the route matches, what it captured
makes up that path.
-/

namespace V60

open Regex Pcre

structure Pattern where
  segments : List Segment
  valid : ∀ s ∈ segments, s.Valid
  nodup : (Segment.names segments).Nodup

namespace Pattern

def text (P : Pattern) : List Char := P.segments.flatMap Segment.text

def names (P : Pattern) : List Key := Segment.names P.segments

end Pattern

def subst (f : Key → List Char) : List Segment → List Char
  | [] => []
  | .literal word :: segs => '/' :: word ++ subst f segs
  | .parameter name :: segs => '/' :: f name ++ subst f segs

def Pattern.subst (P : Pattern) (f : Key → List Char) : List Char := V60.subst f P.segments

/-! ## Instances and substitutions -/

theorem instance_subst {f : Key → List Char} {segs : List Segment}
    (hf : ∀ name ∈ Segment.names segs, f name ≠ [] ∧ ∀ c ∈ f name, nonSpace c = true) :
    Instance segs ((Segment.names segs).map fun name => (name, f name)) (subst f segs) := by
  induction segs with
  | nil => exact .nil
  | cons s segs ih =>
    cases s with
    | literal word => exact .literal word (ih hf)
    | parameter name =>
      obtain ⟨hne, hspace⟩ := hf name List.mem_cons_self
      exact .parameter name hne hspace
        (ih fun name' hname' => hf name' (List.mem_cons_of_mem name hname'))

theorem subst_congr {f g : Key → List Char} {segs : List Segment}
    (h : ∀ name ∈ Segment.names segs, f name = g name) : subst f segs = subst g segs := by
  induction segs with
  | nil => rfl
  | cons s segs ih =>
    cases s with
    | literal word => rw [subst, subst, ih h]
    | parameter name =>
      rw [subst, subst, h name List.mem_cons_self,
        ih fun name' hname' => h name' (List.mem_cons_of_mem name hname')]

theorem captured_cons_self (name : Key) (v : List Char) (vs : Values) :
    captured ((name, v) :: vs) name = v := by
  rw [captured, List.lookup_cons_self, Option.getD_some]

theorem captured_cons_of_ne {name x : Key} (v : List Char) (vs : Values) (h : name ≠ x) :
    captured ((x, v) :: vs) name = captured vs name := by
  rw [captured, captured, List.lookup_cons, beq_eq_false_iff_ne.mpr h]

theorem captured_map {names : List Key} (f : Key → List Char) {name : Key} (h : name ∈ names) :
    captured (names.map fun name => (name, f name)) name = f name := by
  induction names with
  | nil => exact absurd h List.not_mem_nil
  | cons x names ih =>
    rw [List.map_cons]
    by_cases hx : name = x
    · rw [hx, captured_cons_self]
    · rw [captured_cons_of_ne _ _ hx]
      exact ih ((List.mem_cons.mp h).resolve_left hx)

theorem Instance.subst_captured {segs : List Segment} {vs : Values} {t : List Char}
    (h : Instance segs vs t) (hnodup : (Segment.names segs).Nodup) :
    subst (captured vs) segs = t := by
  induction h with
  | nil => rfl
  | literal word h ih => rw [subst, ih hnodup]
  | @parameter segs vs t v name hv hspace h ih =>
    rw [Segment.names, List.nodup_cons] at hnodup
    have htail : subst (captured ((name, v) :: vs)) segs = subst (captured vs) segs :=
      subst_congr fun x hx =>
        captured_cons_of_ne v vs fun heq => hnodup.1 (heq ▸ hx)
    rw [subst, captured_cons_self, htail, ih hnodup.2]

/-! ## Slashes -/

theorem Instance.head {segs : List Segment} {vs : Values} {t : List Char}
    (h : Instance segs vs t) : t = [] ∨ t.head? = some '/' := by
  cases h with
  | nil => exact Or.inl rfl
  | literal word h => exact Or.inr rfl
  | parameter name hv hspace h => exact Or.inr rfl

theorem Instance.count_slash {segs : List Segment} {vs : Values} {t : List Char}
    (h : Instance segs vs t) (hvalid : ∀ s ∈ segs, s.Valid) :
    t.count '/' = segs.length + (vs.flatMap Prod.snd).count '/' := by
  induction h with
  | nil => rfl
  | @literal segs vs t word h ih =>
    have hs : (Segment.literal word).Valid := hvalid _ List.mem_cons_self
    have hword : word.count '/' = 0 :=
      List.count_eq_zero.mpr fun hmem => absurd (hs.2 '/' hmem) (by decide)
    have htail := ih fun s hs => hvalid s (List.mem_cons_of_mem _ hs)
    rw [List.count_append, List.count_cons_self, hword, htail, List.length_cons]
    omega
  | @parameter segs vs t v name hv hspace h ih =>
    have htail := ih fun s hs => hvalid s (List.mem_cons_of_mem _ hs)
    have hvalues : ((name, v) :: vs).flatMap Prod.snd = v ++ vs.flatMap Prod.snd := rfl
    rw [List.count_append, List.count_cons_self, htail, List.length_cons, hvalues,
      List.count_append]
    omega

theorem append_inj_of_slash {v w t u : List Char} (h : v ++ t = w ++ u) (hv : '/' ∉ v)
    (hw : '/' ∉ w) (ht : t = [] ∨ t.head? = some '/') (hu : u = [] ∨ u.head? = some '/') :
    v = w ∧ t = u := by
  have htake : ∀ {x y : List Char}, '/' ∉ x → (y = [] ∨ y.head? = some '/') →
      (x ++ y).takeWhile (· != '/') = x := by
    intro x y hx hy
    have hpos : ∀ c ∈ x, (c != '/') = true := fun c hc =>
      bne_iff_ne.mpr fun heq => hx (heq ▸ hc)
    rw [List.takeWhile_append_of_pos hpos]
    rcases hy with rfl | hy
    · simp
    · obtain ⟨cs, rfl⟩ := List.head?_eq_some_iff.mp hy
      simp
  have hvw : v = w := by rw [← htake hv ht, h, htake hw hu]
  subst hvw
  exact ⟨rfl, List.append_cancel_left h⟩

/-- Texts without slashes can be read in one way only. -/
theorem Instance.eq_of_noSlash {segs : List Segment} {vs ws : Values} {t : List Char}
    (h : Instance segs vs t) (hws : Instance segs ws t) (hvalid : ∀ s ∈ segs, s.Valid)
    (hslash : ∀ w ∈ ws, '/' ∉ w.2) : vs = ws := by
  have hws' : '/' ∉ ws.flatMap Prod.snd := by
    intro hmem
    obtain ⟨w, hw, hslash'⟩ := List.mem_flatMap.mp hmem
    exact hslash w hw hslash'
  have hcount : (vs.flatMap Prod.snd).count '/' = 0 := by
    have hv := h.count_slash hvalid
    rw [hws.count_slash hvalid, List.count_eq_zero.mpr hws'] at hv
    omega
  have hvs : ∀ v ∈ vs, '/' ∉ v.2 := fun v hv hslash' =>
    List.count_eq_zero.mp hcount (List.mem_flatMap.mpr ⟨v, hv, hslash'⟩)
  clear hcount hvalid hws'
  induction h generalizing ws with
  | nil =>
    cases hws
    rfl
  | @literal segs vs t word h ih =>
    generalize ht : '/' :: word ++ t = whole at hws
    obtain _ | ⟨word, hws⟩ | _ := hws
    exact ih (List.append_cancel_left ht ▸ hws) hslash hvs
  | @parameter segs vs t v name hv hspace h ih =>
    generalize ht : '/' :: v ++ t = whole at hws
    obtain _ | _ | @⟨_, ws, u, w, _, hw, hspace', hws⟩ := hws
    obtain ⟨rfl, rfl⟩ := append_inj_of_slash (List.cons.inj ht).2
      (hvs _ List.mem_cons_self) (hslash _ List.mem_cons_self) h.head hws.head
    rw [ih hws (fun w hw => hslash w (List.mem_cons_of_mem _ hw))
      fun v hv => hvs v (List.mem_cons_of_mem _ hv)]

/-! ## Bindings -/

theorem endPoint_isMatch (method v : Verb) (fn : Handler) (input : List Char) :
    (endPoint method fn).isMatch v input = true ↔ v = method ∧ input = [] := by
  simp [endPoint]

section Binding

variable {env : Env} (henv : env.ctre = Ctre.pcre) {segs : List Segment}
  (hsegs : ∀ s ∈ segs, s.Valid) {next : Routable}
include henv hsegs

theorem binding_isMatch_segments (v : Verb) (input : List Char) :
    (binding env (segs.flatMap Segment.text) next).isMatch v input =
      (splits segs input).head?.any fun m => next.isMatch v m.2 := by
  have hengine := startsWith_text hsegs input
  rw [← henv] at hengine
  cases hhead : (splits segs input).head? with
  | none =>
    rw [hhead] at hengine
    exact binding_isMatch_none hengine
  | some m =>
    rw [hhead, Option.map_some] at hengine
    obtain ⟨t, -, rfl⟩ := mem_splits.mp (List.mem_of_head? hhead)
    rw [binding_isMatch_some hengine]
    simp

theorem binding_call_segments {req : Request} {vs : Values} {rest : List Char}
    (hhead : (splits segs req.remaining).head? = some (vs, rest)) :
    ∃ req', (∀ (next : Routable) (resp : Response), next.isMatch req.method rest = true →
        (binding env (segs.flatMap Segment.text) next).call req resp = next.call req' resp) ∧
      req'.method = req.method ∧ req'.remaining = rest ∧
      ∀ name, req'.params.get name =
        if name ∈ Segment.names segs then some (captured vs name) else req.params.get name := by
  have hengine := startsWith_text hsegs req.remaining
  rw [hhead, Option.map_some, ← henv] at hengine
  have hdrop : req.remaining.drop (req.remaining.length - rest.length) = rest := by
    obtain ⟨t, -, ht⟩ := mem_splits.mp (List.mem_of_head? hhead)
    rw [ht]
    simp
  refine ⟨bindRequest env (segs.flatMap Segment.text) _ req, fun next resp hnext =>
    binding_call resp hengine (by rw [hdrop]; exact hnext), rfl, hdrop, fun name => ?_⟩
  have hparams := get_bindParams (env.ctre.names (re (segs.flatMap Segment.text))) (captured vs)
    req.params name
  rw [henv, names_text hsegs] at hparams
  rw [← hparams, ← names_text hsegs, ← henv]
  rfl

theorem getAt_isMatch_iff (h : Handler) {v : Verb} {input : List Char} :
    ((Tree.getAt (segs.flatMap Segment.text) h).routable env).isMatch v input = true ↔
      v = .get ∧ ∃ vs, (splits segs input).head? = some (vs, []) := by
  have hmatch : ((Tree.getAt (segs.flatMap Segment.text) h).routable env).isMatch v input =
      (splits segs input).head?.any fun m => (endPoint .get h).isMatch v m.2 :=
    binding_isMatch_segments henv hsegs v input
  rw [hmatch, Option.any_eq_true]
  constructor
  · intro h
    obtain ⟨⟨vs, rest⟩, hhead, hrest⟩ := h
    obtain ⟨hv, rfl⟩ := (endPoint_isMatch .get v _ rest).mp hrest
    exact ⟨hv, vs, hhead⟩
  · intro h
    obtain ⟨hv, vs, hhead⟩ := h
    exact ⟨(vs, []), hhead, (endPoint_isMatch .get v _ []).mpr ⟨hv, rfl⟩⟩

theorem getAt_call {req : Request} (hget : req.method = .get) {vs : Values}
    (hhead : (splits segs req.remaining).head? = some (vs, [])) :
    ∃ req', (∀ h resp, ((Tree.getAt (segs.flatMap Segment.text) h).routable env).call req resp =
        h.run .get req' resp) ∧ req'.remaining = [] ∧
      ∀ name ∈ Segment.names segs, req'.params.get name = some (captured vs name) := by
  obtain ⟨req', hcall, -, hrem, hparams⟩ := binding_call_segments henv hsegs hhead
  refine ⟨req', fun h resp => ?_, hrem, fun name hname => ?_⟩
  · have hend := hcall (endPoint .get h) resp ((endPoint_isMatch .get _ h []).mpr ⟨hget, rfl⟩)
    rw [endPoint_call] at hend
    exact hend
  · rw [hparams name, if_pos hname]

end Binding

section RoundTrip

variable {env : Env} (henv : env.ctre = Ctre.pcre) (P : Pattern) (h : Handler)
include henv

/-- Parameters that are neither empty nor hold a slash or a space come back from the path they
are put into, and what a matched path gives makes up the path. -/
theorem parameters_roundTrip {req : Request} (hget : req.method = .get) (resp : Response) :
    let route := (Tree.getAt P.text h).routable env
    (∀ f : Key → List Char,
      (∀ name ∈ P.names, f name ≠ [] ∧ ∀ c ∈ f name, nonSpace c = true ∧ c ≠ '/') →
      req.remaining = P.subst f →
      route.isMatch .get req.remaining = true ∧
        ∃ req', route.call req resp = h.run .get req' resp ∧ req'.remaining = [] ∧
          ∀ name ∈ P.names, req'.params.get name = some (f name)) ∧
    (route.isMatch .get req.remaining = true →
      ∃ req', route.call req resp = h.run .get req' resp ∧ req'.remaining = [] ∧
        P.subst (fun name => (req'.params.get name).getD []) = req.remaining) := by
  intro route
  constructor
  · intro f hf hpath
    have hinst : Instance P.segments (P.names.map fun name => (name, f name)) req.remaining := by
      rw [hpath]
      exact instance_subst fun name hname =>
        ⟨(hf name hname).1, fun c hc => ((hf name hname).2 c hc).1⟩
    obtain ⟨vs, hhead⟩ := splits_head_whole hinst
    obtain ⟨t, ht, htext⟩ := mem_splits.mp (List.mem_of_head? hhead)
    rw [List.append_nil] at htext
    have hvs : vs = P.names.map fun name => (name, f name) := by
      apply (htext ▸ ht).eq_of_noSlash hinst P.valid
      intro w hw
      obtain ⟨name, hname, rfl⟩ := List.mem_map.mp hw
      exact fun hslash => ((hf name hname).2 '/' hslash).2 rfl
    obtain ⟨req', hcall, hrem, hparams⟩ := getAt_call henv P.valid hget hhead
    refine ⟨(getAt_isMatch_iff henv P.valid h).mpr ⟨rfl, vs, hhead⟩, req', hcall h resp, hrem, ?_⟩
    intro name hname
    rw [hparams name hname, hvs]
    exact congrArg some (captured_map f hname)
  · intro hmatch
    obtain ⟨-, vs, hhead⟩ := (getAt_isMatch_iff henv P.valid h).mp hmatch
    obtain ⟨t, ht, htext⟩ := mem_splits.mp (List.mem_of_head? hhead)
    rw [List.append_nil] at htext
    obtain ⟨req', hcall, hrem, hparams⟩ := getAt_call henv P.valid hget hhead
    refine ⟨req', hcall h resp, hrem, ?_⟩
    have hsame : P.subst (fun name => (req'.params.get name).getD []) = P.subst (captured vs) :=
      subst_congr fun name hname => by rw [hparams name hname, Option.getD_some]
    rw [hsame, htext]
    exact ht.subst_captured P.nodup

end RoundTrip

def helloPattern : Pattern where
  segments := [.literal "hello".toList, .parameter "name".toList]
  valid := by
    simp only [List.forall_mem_cons]
    exact ⟨⟨by decide, List.all_eq_true.mp (by decide)⟩,
      ⟨⟨'n', rfl, by decide⟩, List.all_eq_true.mp (by decide)⟩, by simp⟩
  nodup := by decide

theorem parameters_roundTrip_hello :
    let req := Request.ofRaw (getRequest "/hello/v60".toList (by decide))
    ∃ req', ((Tree.getAt helloPattern.text helloHandler).routable (pcreEnv .debug)).call req
        (freshResponse .reference req.raw) =
          helloHandler.run .get req' (freshResponse .reference req.raw) ∧ req'.remaining = [] ∧
      ∀ name ∈ helloPattern.names, req'.params.get name = some "v60".toList := by
  have hroundTrip := (@parameters_roundTrip (pcreEnv .debug) rfl helloPattern helloHandler
    (Request.ofRaw (getRequest "/hello/v60".toList (by decide))) rfl
    (freshResponse .reference (getRequest "/hello/v60".toList (by decide)))).1
    (fun _ => "v60".toList) (fun _ _ => ⟨by decide, by simp; decide⟩) rfl
  exact hroundTrip.2

end V60
