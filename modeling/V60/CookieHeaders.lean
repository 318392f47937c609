import V60.Cookies
import V60.Handed

/-!
# What a cookie header says

A header is any text a client sends. Its pieces are the maximal runs without `;` and
blanks; a piece is filed under what stands before its last `=` that has something
behind it, or left out, and a name means what the first piece that is filed under it
says. `lookup_parseCookies_iff` says this of the parser, and `Process.cookies_shown`
of the cookies of every handler that is called.
-/

namespace V60

open Regex Pcre

/-- The piece is a pair of this key and value. -/
structure Files (piece key value : List Char) : Prop where
  cut : piece = key ++ '=' :: value
  key_ne : key ≠ []
  value_ne : value ≠ []
  space : ∀ c ∈ piece, nonSpace c = true
  last : '=' ∉ value.dropLast

theorem matchCookie_cut {piece key value : List Char} (h : matchCookie piece = some (key, value)) :
    piece = key ++ '=' :: value ∧ key ≠ [] ∧ value ≠ [] ∧ ∀ c ∈ piece, nonSpace c = true := by
  obtain ⟨t, ht, hcaps⟩ := Option.map_eq_some_iff.mp h
  rw [fullMatch_eq, results_cookieRe, ← List.head?_filter, List.filter_flatMap] at ht
  obtain ⟨u, hu, hrest⟩ := List.mem_flatMap.mp (List.mem_of_head? ht)
  obtain ⟨v, rfl, hv, hvspace, rfl⟩ := mem_cookieRest.mp hrest
  obtain ⟨w, hw, hwspace, rfl⟩ := mem_plusSuffixes.mp hu
  obtain ⟨rfl, rfl⟩ : w = key ∧ v = value := by simpa [List.lookup_cons] using hcaps
  refine ⟨rfl, hw, hv, fun c hc => ?_⟩
  rcases List.mem_append.mp hc with hkey | hrest
  · exact hwspace c hkey
  · rcases List.mem_cons.mp hrest with rfl | hvalue
    · decide
    · exact hvspace c hvalue

theorem matchCookie_iff {piece key value : List Char} :
    matchCookie piece = some (key, value) ↔ Files piece key value := by
  constructor
  · intro h
    obtain ⟨hcut, hkey, hvalue, hspace⟩ := matchCookie_cut h
    refine ⟨hcut, hkey, hvalue, hspace, ?_⟩
    cases hlast : cutLast value with
    | none => exact cutLast_none hlast
    | some m =>
      -- the piece is cut at the later `=`, so the value would be a part of itself
      obtain ⟨before, after⟩ := m
      obtain ⟨rfl, hafter, hfree⟩ := cutLast_some hlast
      have hlater : piece = (key ++ '=' :: before) ++ '=' :: after := by simp [hcut]
      rw [hlater, matchCookie_eq (by simp) hafter (hlater ▸ hspace) hfree] at h
      have hlength := congrArg List.length (Prod.mk.inj (Option.some.inj h)).2
      simp only [List.length_append, List.length_cons] at hlength
      omega
  · intro h
    obtain ⟨rfl, hkey, hvalue, hspace, hlast⟩ := h
    exact matchCookie_eq hkey hvalue hspace hlast

def filed (key piece : List Char) : Option (List Char) :=
  (matchCookie piece).bind fun m => if m.1 = key then some m.2 else none

theorem filed_iff {key piece value : List Char} :
    filed key piece = some value ↔ Files piece key value := by
  rw [filed, ← matchCookie_iff, Option.bind_eq_some_iff]
  constructor
  · intro h
    obtain ⟨m, hm, hkey⟩ := h
    split_ifs at hkey with heq
    rw [hm, ← heq, ← Option.some.inj hkey]
  · intro h
    exact ⟨(key, value), h, if_pos rfl⟩

theorem filed_none {key piece : List Char} :
    filed key piece = none ↔ ∀ value, ¬Files piece key value := by
  rw [Option.eq_none_iff_forall_ne_some]
  exact forall_congr' fun value => not_congr filed_iff

theorem lookup_readPieces (kv : Kv) (pieces : List (List Char)) (key : Key) :
    (pieces.foldl readCookie kv).lookup key =
      (kv.lookup key).or (pieces.findSome? (filed key)) := by
  induction pieces generalizing kv with
  | nil => simp
  | cons piece pieces ih =>
    rw [List.foldl_cons, ih, List.findSome?_cons, readCookie, filed]
    cases matchCookie piece with
    | none => rfl
    | some m =>
      simp only [Option.bind_some]
      rw [Cookie.lookup_emplace, Option.or_assoc]
      split_ifs <;> rfl

section Spans

theorem exists_spans (str delims : List Char) :
    ∃ spans : List (ℕ × ℕ), split str delims = spans.map (slice str) ∧
      (∀ i j, (i, j) ∈ spans ↔ MaximalRun str delims i j) ∧
      spans.Pairwise fun a b => a.2 < b.1 := by
  have hsecond : str = [] ∨ (⟨0, 0, []⟩ : Cursors).second ≠ str.length := by
    cases str with
    | nil => exact Or.inl rfl
    | cons c str => exact Or.inr (by simp)
  obtain ⟨c, spans, -, -, hputs⟩ := splitFor_putsOut (str.length + 1) [] str ⟨0, 0, []⟩ rfl
    (Or.inl List.length_nil) rfl hsecond (Nat.lt_succ_self _)
  exact ⟨spans, hputs.tokens, fun i j => (hputs.runs i j).trans (by simp), hputs.ordered⟩

/-- The first of some spans in order at which there is something to find. -/
theorem findSome?_spans {β : Type*} {f : ℕ × ℕ → Option β} {spans : List (ℕ × ℕ)}
    (hlt : ∀ a ∈ spans, a.1 < a.2) (hordered : spans.Pairwise fun a b => a.2 < b.1) {b : β} :
    spans.findSome? f = some b ↔
      ∃ a ∈ spans, f a = some b ∧ ∀ a' ∈ spans, a'.2 < a.1 → f a' = none := by
  rw [List.findSome?_eq_some_iff]
  constructor
  · intro h
    obtain ⟨before, a, after, rfl, ha, hbefore⟩ := h
    refine ⟨a, by simp, ha, fun a' ha' hfirst => ?_⟩
    rcases List.mem_append.mp ha' with hmem | hmem
    · exact hbefore a' hmem
    · have hpos := hlt a' ha'
      rcases List.mem_cons.mp hmem with rfl | hafter
      · omega
      · have hnext := List.rel_of_pairwise_cons (List.pairwise_append.mp hordered).2.1 hafter
        have hpos' := hlt a (by simp)
        omega
  · intro h
    obtain ⟨a, hmem, ha, hfirst⟩ := h
    obtain ⟨before, after, rfl⟩ := List.append_of_mem hmem
    refine ⟨before, a, after, rfl, ha, fun a' ha' => ?_⟩
    exact hfirst a' (List.mem_append_left _ ha')
      ((List.pairwise_append.mp hordered).2.2 a' ha' a List.mem_cons_self)

end Spans

/-- The first piece of a header that is filed under the key gives this value. -/
def Says (header key value : List Char) : Prop :=
  ∃ i j, MaximalRun header "; ".toList i j ∧ Files (slice header (i, j)) key value ∧
    ∀ i' j', MaximalRun header "; ".toList i' j' → j' < i →
      ∀ value', ¬Files (slice header (i', j')) key value'

theorem lookup_parseCookies_iff {header key value : List Char} :
    (parseCookies header).lookup key = some value ↔ Says header key value := by
  obtain ⟨spans, hsplit, hruns, hordered⟩ := exists_spans header "; ".toList
  have hlt : ∀ a ∈ spans, a.1 < a.2 := fun a ha => ((hruns a.1 a.2).mp ha).lt
  rw [parseCookies, lookup_readPieces, List.lookup_nil, Option.none_or, hsplit, List.findSome?_map,
    findSome?_spans hlt hordered]
  simp only [Function.comp_apply, filed_iff, filed_none, Prod.exists, Prod.forall, hruns, Says]

theorem get_cookieObject_iff {header key value : List Char} {keys : List Key} (hkey : key ∈ keys) :
    (cookieObject keys (parseCookies header)).get key = some value ↔
      Says header key value ∨ value = [] ∧ ∀ value', ¬Says header key value' := by
  simp only [get_cookieObject _ hkey, ← lookup_parseCookies_iff, Option.some.injEq]
  cases (parseCookies header).lookup key with
  | none => simp [eq_comm]
  | some value' => simp

/-- What a parser of these keys makes of a request. -/
def CookiesRead (raw : StrRequest) (keys : List Key) (cookies : Object (List Char)) : Prop :=
  ∃ header, raw.fields.find "Cookie".toList = some header ∧ ∀ key ∈ keys, ∀ value,
    cookies.get key = some value ↔
      Says header key value ∨ value = [] ∧ ∀ value', ¬Says header key value'

theorem reads_of_mapM {req : Request} {keys : List (List Key)}
    {cookies : List (Object (List Char))}
    (h : keys.mapM (readCookies req) = some cookies) :
    List.Forall₂ (CookiesRead req.raw) keys cookies := by
  induction keys generalizing cookies with
  | nil =>
    obtain rfl : [] = cookies := by simpa using h
    exact List.Forall₂.nil
  | cons k keys ih =>
    rw [List.mapM_cons] at h
    obtain ⟨o, ho, h⟩ := Option.bind_eq_some_iff.mp h
    obtain ⟨os, hos, h⟩ := Option.bind_eq_some_iff.mp h
    obtain rfl := Option.some.inj h
    obtain ⟨header, hheader, rfl⟩ := Option.map_eq_some_iff.mp ho
    exact .cons ⟨header, hheader, fun key hkey value => get_cookieObject_iff hkey⟩ (ih hos)

theorem reads_of_enrich {env : Env} {verb : Verb} {layers : List Layer} {raw : StrRequest}
    {req : Request} (h : enrich env verb layers (.ofRaw raw) = some req) :
    List.Forall₂ (CookiesRead raw) (cookieKeys layers) req.cookies := by
  obtain ⟨cookies, hread, h⟩ := Option.bind_eq_some_iff.mp h
  obtain ⟨body, -, h⟩ := Option.bind_eq_some_iff.mp h
  obtain ⟨-, -, hcookies⟩ := bindAll_frame h
  have hequip : ((Request.ofRaw raw).equip cookies body).cookies = cookies := rfl
  rw [hcookies, hequip]
  exact reads_of_mapM hread

/-- Every handler that is called between one request and the next is shown, of each parser over
it, what the `Cookie` field of that request says. -/
theorem Process.cookies_shown {env : Env} {beast : Beast} {t : Tree} (ht : t.Settled)
    {labels : List Label} {p : Process} (h : Run env beast t start labels p) {i : ℕ}
    {before after : List Act} {raw : StrRequest} {since : List Event}
    (hacts : Machines.acts i (moves labels) =
      before ++ .read raw :: (since.map .event ++ after))
    {verb : Verb} {handler : ℕ} {req : Request} (hran : .ran verb handler req ∈ since) :
    ∃ w ∈ t.ways, w.verb = verb ∧ w.handler.name = handler ∧
      List.Forall₂ (CookiesRead raw) (cookieKeys w.layers) req.cookies := by
  obtain ⟨w, hw, hverb, hhandler⟩ := handleRequest_handed ht ((run_since h hacts).subset hran)
  exact ⟨w, hw.mem, hverb, hhandler, reads_of_enrich hw.enriched⟩

/-- The first pair is filed under `name=a`. -/
theorem Process.cookies_shown_name :
    let raw := helloRequest "name=a=b; name=v60; name=c"
    let run := (handleRequestOn (pcreEnv .debug) .reference textRoutes raw 1).1
    ∃ labels p after verb handler req,
      Run (pcreEnv .debug) .reference textRoutes start labels p ∧
        Machines.acts 0 (moves labels) = [] ++ .read raw :: (run.events.map .event ++ after) ∧
        .ran verb handler req ∈ run.events ∧
        ∃ w ∈ textRoutes.ways, w.verb = verb ∧ w.handler.name = handler ∧
          List.Forall₂ (CookiesRead raw) (cookieKeys w.layers) req.cookies := by
  intro raw run
  have hone : run.handlers.length = 1 := by decide +kernel
  obtain ⟨labels, p, after, verb, handler, req, hp, hacts, hran⟩ := run_ran (hone ▸ Nat.one_pos)
  exact ⟨labels, p, after, verb, handler, req, hp, hacts, hran,
    cookies_shown settled_textRoutes hp hacts hran⟩

end V60
