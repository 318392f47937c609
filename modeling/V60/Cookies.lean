import V60.GuardedDispatch
import V60.Splitting

/-!
# Cookies

The parts of a `Cookie` header are its pairs again, but `(\S+)=(\S+)` cuts a
pair at its last `=` with something after it. A value with an `=` before its
last character is cut inside, and the pair is filed under a longer name
(`Cookie.read_eq`).
-/

namespace V60

open Regex Pcre

def nameChar (c : Char) : Bool := c != '=' && c != ';' && nonSpace c

def valueChar (c : Char) : Bool := c != ';' && nonSpace c

structure Cookie where
  name : List Char
  value : List Char
  name_ne : name ≠ []
  name_chars : ∀ c ∈ name, nameChar c = true
  value_chars : ∀ c ∈ value, valueChar c = true

namespace Cookie

def pair (c : Cookie) : List Char := c.name ++ '=' :: c.value

def header (cookies : List Cookie) : List Char :=
  List.intercalate "; ".toList (cookies.map pair)

def valueOf (cookies : List Cookie) (name : List Char) : List Char :=
  ((cookies.map fun c => (c.name, c.value)).lookup name).getD []

end Cookie

/-! ## Splitting a header -/

theorem split_intercalate {parts : List (List Char)}
    (h : ∀ part ∈ parts, part ≠ [] ∧ ∀ c ∈ part, c ∉ "; ".toList) :
    split (List.intercalate "; ".toList parts) "; ".toList = parts := by
  rw [split]
  induction parts with
  | nil => simp [List.intercalate, splitLoop]
  | cons part parts ih =>
    obtain ⟨hne, hpart⟩ := h part List.mem_cons_self
    have htail := ih fun p hp => h p (List.mem_cons_of_mem part hp)
    cases parts with
    | nil =>
      simp only [List.intercalate, List.intersperse, List.flatten_cons, List.flatten_nil,
        List.append_nil]
      have hlast : ∀ c ∈ ([] : List Char).head?, c ∈ "; ".toList := by simp
      have htoken := splitLoop_token hpart hlast
      have hnil : splitLoop "; ".toList [] = [] := by rw [splitLoop, if_pos rfl]
      rwa [List.append_nil, if_neg hne, List.tail_nil, hnil, List.append_nil] at htoken
    | cons part' parts =>
      have hjoin : List.intercalate "; ".toList (part :: part' :: parts) =
          part ++ ';' :: ' ' :: List.intercalate "; ".toList (part' :: parts) := rfl
      rw [hjoin, splitLoop_token hpart (by simp), if_neg hne, List.tail_cons,
        splitLoop_delim (by decide), htail, List.singleton_append]

theorem Cookie.pair_chars (c : Cookie) :
    ∀ x ∈ c.pair, x ≠ ';' ∧ nonSpace x = true := by
  intro x hx
  rcases List.mem_append.mp hx with hname | hrest
  · have hchar := c.name_chars x hname
    simp only [nameChar, Bool.and_eq_true, bne_iff_ne] at hchar
    exact ⟨hchar.1.2, hchar.2⟩
  · rcases List.mem_cons.mp hrest with rfl | hvalue
    · decide
    · have hchar := c.value_chars x hvalue
      simpa only [valueChar, Bool.and_eq_true, bne_iff_ne] using hchar

theorem Cookie.split_header (cookies : List Cookie) :
    split (header cookies) "; ".toList = cookies.map pair := by
  apply split_intercalate
  intro part hpart
  obtain ⟨c, -, rfl⟩ := List.mem_map.mp hpart
  refine ⟨by simp [pair], fun x hx hdelim => ?_⟩
  obtain ⟨hsemi, hspace⟩ := c.pair_chars x hx
  have hcases : x = ';' ∨ x = ' ' := by simpa using hdelim
  rcases hcases with rfl | rfl
  · exact hsemi rfl
  · exact absurd hspace (by decide)

/-! ## The expression of a pair -/

def cookieRest (key : List Char) : List Char → List (State Char)
  | [] => []
  | c :: w =>
    if c = '=' then
      (plusSuffixes nonSpace w).map fun rest =>
        ⟨rest, [(2, w.take (w.length - rest.length)), (1, key)]⟩
    else []

theorem results_cookieRe (n : ℕ) (text : List Char) :
    results n cookieRe (start text) = (plusSuffixes nonSpace text).flatMap fun u =>
      cookieRest (text.take (text.length - u.length)) u := by
  rw [cookieRe, results_seqAll_cons, results, results_plus, List.map_map, List.flatMap_map]
  apply List.flatMap_congr
  intro u _
  rw [results_seqAll_cons, literal, results]
  cases u with
  | nil => rfl
  | cons c w =>
    rw [cookieRest]
    by_cases hc : c = '='
    · simp [hc, seqAll, results, results_plus, State.record, State.between, start,
        Function.comp_def]
    · simp [hc, State.record]

theorem mem_cookieRest {key u : List Char} {t : State Char} :
    (t ∈ (cookieRest key u).filter fun t => decide (t.rest = [])) ↔
      ∃ v, u = '=' :: v ∧ v ≠ [] ∧ (∀ c ∈ v, nonSpace c = true) ∧ t = ⟨[], [(2, v), (1, key)]⟩ := by
  rw [List.mem_filter, decide_eq_true_eq]
  cases u with
  | nil => simp [cookieRest]
  | cons c w =>
    rw [cookieRest]
    split_ifs with hc
    · constructor
      · intro h
        obtain ⟨hmem, hrest⟩ := h
        obtain ⟨rest, hrests, rfl⟩ := List.mem_map.mp hmem
        obtain rfl : rest = [] := hrest
        obtain ⟨v, hv, hspace, hw⟩ := mem_plusSuffixes.mp hrests
        rw [List.append_nil] at hw
        subst hw
        exact ⟨w, by rw [hc], hv, hspace, by simp⟩
      · intro h
        obtain ⟨v, hu, hv, hspace, rfl⟩ := h
        obtain ⟨-, rfl⟩ := List.cons_eq_cons.mp hu
        refine ⟨List.mem_map.mpr ⟨[], mem_plusSuffixes.mpr ⟨w, hv, hspace, by simp⟩, by simp⟩, rfl⟩
    · constructor
      · intro h
        obtain ⟨hmem, -⟩ := h
        exact absurd hmem List.not_mem_nil
      · intro h
        obtain ⟨v, hu, -⟩ := h
        exact absurd (List.cons_eq_cons.mp hu).1 hc

/-- A pair is cut at the last `=` that has something after it. -/
theorem matchCookie_eq {key val : List Char} (hkey : key ≠ []) (hval : val ≠ [])
    (hspace : ∀ c ∈ key ++ '=' :: val, nonSpace c = true) (hlast : '=' ∉ val.dropLast) :
    matchCookie (key ++ '=' :: val) = some (key, val) := by
  have hvspace : ∀ c ∈ val, nonSpace c = true := fun c hc =>
    hspace c (List.mem_append_right _ (List.mem_cons_of_mem _ hc))
  have hmem : (⟨[], [(2, val), (1, key)]⟩ : State Char) ∈
      (plusSuffixes nonSpace (key ++ '=' :: val)).flatMap fun u =>
        (cookieRest ((key ++ '=' :: val).take ((key ++ '=' :: val).length - u.length)) u).filter
          fun t => decide (t.rest = []) := by
    refine List.mem_flatMap.mpr ⟨'=' :: val, mem_plusSuffixes.mpr
      ⟨key, hkey, fun c hc => hspace c (List.mem_append_left _ hc), rfl⟩, ?_⟩
    exact mem_cookieRest.mpr ⟨val, rfl, hval, hvspace, by simp⟩
  have hmatch : fullMatch cookieRe (key ++ '=' :: val) =
      ((plusSuffixes nonSpace (key ++ '=' :: val)).flatMap fun u =>
        (cookieRest ((key ++ '=' :: val).take ((key ++ '=' :: val).length - u.length)) u).filter
          fun t => decide (t.rest = [])).head? := by
    rw [fullMatch_eq, results_cookieRe, ← List.head?_filter, List.filter_flatMap]
  cases hhead : fullMatch cookieRe (key ++ '=' :: val) with
  | none =>
    rw [hmatch] at hhead
    rw [List.head?_eq_none_iff.mp hhead] at hmem
    exact absurd hmem List.not_mem_nil
  | some t =>
    rw [hmatch] at hhead
    obtain ⟨u, hu, u', hu', hfirst, hother, hle⟩ :=
      head_flatMap_of_pairwise (plusSuffixes_sorted nonSpace _) hhead hmem
    obtain ⟨v, rfl, hv, -, rfl⟩ := mem_cookieRest.mp (List.mem_of_head? hfirst)
    obtain ⟨v', rfl, -, -, heq⟩ := mem_cookieRest.mp hother
    obtain ⟨rfl, -⟩ : val = v' ∧ key = _ := by simpa using heq
    obtain ⟨w, -, -, hw⟩ := mem_plusSuffixes.mp hu
    have hsuffix : '=' :: v <:+ '=' :: val := by
      refine List.suffix_of_suffix_length_le ⟨w, hw.symm⟩ (List.suffix_append key _) ?_
      exact hle.elim (fun h => h ▸ le_rfl) le_of_lt
    -- a shorter value would have its own `=` inside `val`, before the last character
    have hsame : v = val := by
      rcases List.suffix_cons_iff.mp hsuffix with hwhole | hinside
      · exact (List.cons_eq_cons.mp hwhole).2
      · obtain ⟨z, rfl⟩ := hinside
        refine absurd ?_ hlast
        rw [List.dropLast_append_of_ne_nil (List.cons_ne_nil _ _), List.dropLast_cons_of_ne_nil hv]
        simp
    subst hsame
    have hprefix : (key ++ '=' :: v).take ((key ++ '=' :: v).length - ('=' :: v).length) = key := by
      simp
    rw [matchCookie, hmatch, hhead, hprefix]
    rfl

theorem matchCookie_none {name : List Char} (h : '=' ∉ name) :
    matchCookie (name ++ ['=']) = none := by
  have hnone : fullMatch cookieRe (name ++ ['=']) = none := by
    rw [fullMatch_eq, results_cookieRe, ← List.head?_filter, List.filter_flatMap,
      List.head?_eq_none_iff, List.flatMap_eq_nil_iff]
    intro u hu
    rw [List.eq_nil_iff_forall_not_mem]
    intro t ht
    obtain ⟨v, rfl, hv, -, -⟩ := mem_cookieRest.mp ht
    obtain ⟨w, -, -, hw⟩ := mem_plusSuffixes.mp hu
    have hdrop := congrArg List.dropLast hw
    rw [List.dropLast_concat, List.dropLast_append_of_ne_nil (List.cons_ne_nil _ _),
      List.dropLast_cons_of_ne_nil hv] at hdrop
    exact h (hdrop ▸ by simp)
  rw [matchCookie, hnone]
  rfl

/-- The text up to the last `=` that is not the last character, and the text after it. -/
def cutLast : List Char → Option (List Char × List Char)
  | [] => none
  | c :: cs =>
    match cutLast cs with
    | some (before, after) => some (c :: before, after)
    | none => if c = '=' ∧ cs ≠ [] then some ([], cs) else none

theorem cutLast_none {cs : List Char} (h : cutLast cs = none) : '=' ∉ cs.dropLast := by
  induction cs with
  | nil => exact List.not_mem_nil
  | cons c cs ih =>
    rw [cutLast] at h
    cases hcut : cutLast cs with
    | some m => simp [hcut] at h
    | none =>
      simp only [hcut] at h
      split_ifs at h with hc
      cases cs with
      | nil => simp
      | cons d cs =>
        rw [List.dropLast_cons_of_ne_nil (List.cons_ne_nil _ _), List.mem_cons, not_or]
        exact ⟨fun heq => hc ⟨heq.symm, List.cons_ne_nil _ _⟩, ih hcut⟩

theorem cutLast_some {cs before after : List Char} (h : cutLast cs = some (before, after)) :
    cs = before ++ '=' :: after ∧ after ≠ [] ∧ '=' ∉ after.dropLast := by
  induction cs generalizing before with
  | nil => simp [cutLast] at h
  | cons c cs ih =>
    rw [cutLast] at h
    cases hcut : cutLast cs with
    | some m =>
      obtain ⟨b, a⟩ := m
      simp only [hcut] at h
      obtain ⟨rfl, rfl⟩ : c :: b = before ∧ a = after := by simpa using h
      obtain ⟨hcs, hne, hlast⟩ := ih hcut
      exact ⟨by rw [hcs]; rfl, hne, hlast⟩
    | none =>
      simp only [hcut] at h
      split_ifs at h with hc
      obtain ⟨rfl, rfl⟩ : [] = before ∧ cs = after := by simpa using h
      exact ⟨by rw [hc.1]; rfl, hc.2, cutLast_none hcut⟩

namespace Cookie

theorem not_mem_name (c : Cookie) : '=' ∉ c.name :=
  fun h => absurd (c.name_chars '=' h) (by decide)

theorem read_eq (c : Cookie) :
    matchCookie c.pair =
      match cutLast c.value with
      | some (before, after) => some (c.name ++ '=' :: before, after)
      | none => if c.value = [] then none else some (c.name, c.value) := by
  have hspace : ∀ x ∈ c.pair, nonSpace x = true := fun x hx => (c.pair_chars x hx).2
  cases hcut : cutLast c.value with
  | some m =>
    obtain ⟨before, after⟩ := m
    obtain ⟨hvalue, hne, hlast⟩ := cutLast_some hcut
    have hpair : c.pair = (c.name ++ '=' :: before) ++ '=' :: after := by
      rw [pair, hvalue]
      simp
    rw [hpair] at hspace ⊢
    exact matchCookie_eq (by simp) hne hspace hlast
  | none =>
    by_cases hvalue : c.value = []
    · simp only [pair, hvalue, if_true]
      exact matchCookie_none c.not_mem_name
    · simp only [if_neg hvalue]
      exact matchCookie_eq c.name_ne hvalue hspace (cutLast_none hcut)

def found (key : Key) (c : Cookie) : Option (List Char) :=
  (matchCookie c.pair).bind fun m => if m.1 = key then some m.2 else none

theorem found_whole {c : Cookie} (h : cutLast c.value = none) (key : Key) :
    c.found key = if c.name = key ∧ c.value ≠ [] then some c.value else none := by
  rw [found, read_eq, h]
  by_cases hvalue : c.value = []
  · simp [hvalue]
  · simp [hvalue]

theorem found_cut {c : Cookie} {before after : List Char}
    (h : cutLast c.value = some (before, after)) (key : Key) :
    c.found key = if c.name ++ '=' :: before = key then some after else none := by
  rw [found, read_eq, h]
  rfl

theorem found_ne_nil {c : Cookie} {key : Key} {v : List Char} (h : c.found key = some v) :
    v ≠ [] := by
  cases hcut : cutLast c.value with
  | none =>
    rw [found_whole hcut] at h
    split_ifs at h with hc
    rw [← Option.some.inj h]
    exact hc.2
  | some m =>
    rw [found_cut hcut] at h
    split_ifs at h
    rw [← Option.some.inj h]
    exact (cutLast_some hcut).2.1

theorem lookup_emplace (kv : Kv) (key val other : List Char) :
    (kv.emplace key val).lookup other =
      (kv.lookup other).or (if key = other then some val else none) := by
  rw [Kv.emplace]
  split_ifs with hkey hother hother
  · obtain ⟨v, hv⟩ := Option.isSome_iff_exists.mp hkey
    rw [← hother, hv, Option.some_or]
  · rw [Option.or_none]
  · rw [List.lookup_append, ← hother, List.lookup_cons_self]
  · have hne : (other == key) = false := beq_eq_false_iff_ne.mpr (Ne.symm hother)
    rw [List.lookup_append, List.lookup_cons, hne, List.lookup_nil]

theorem lookup_readCookies (kv : Kv) (cookies : List Cookie) (key : Key) :
    ((cookies.map pair).foldl readCookie kv).lookup key =
      (kv.lookup key).or (cookies.findSome? (found key)) := by
  induction cookies generalizing kv with
  | nil => simp
  | cons c cookies ih =>
    rw [List.map_cons, List.foldl_cons, ih, List.findSome?_cons, readCookie, found]
    cases matchCookie c.pair with
    | none => rfl
    | some m =>
      simp only [Option.bind_some]
      rw [lookup_emplace, Option.or_assoc]
      split_ifs <;> rfl

theorem lookup_parseCookies (cookies : List Cookie) (key : Key) :
    (parseCookies (header cookies)).lookup key = cookies.findSome? (found key) := by
  rw [parseCookies, split_header, lookup_readCookies]
  rfl

end Cookie

theorem get_cookieObject {keys : List Key} (kv : Kv) {key : Key} (h : key ∈ keys) :
    (cookieObject keys kv).get key = some ((kv.lookup key).getD []) := by
  have hmem : key ∈ (Object.ofKeys keys : Object (List Char)).keys := Object.mem_keys_ofKeys.mpr h
  rw [cookieObject, Object.get_assign, if_pos ⟨hmem, hmem⟩]

/-- The middleware passes on a request whose cookies have, for each declared key, the value
paired with it in the header. -/
def CookiesRoundTrip (cookies : List Cookie) (keys : List Key) (req : Request) : Prop :=
  ∃ o, (∀ next resp, cookieParserMw keys next req resp = next.call (req.withMixin o) resp) ∧
    ∀ key ∈ keys, o.get key = some (Cookie.valueOf cookies key)

theorem cookiesRoundTrip_iff {cookies : List Cookie} {keys : List Key} {req : Request}
    (hheader : req.header "Cookie".toList = some (Cookie.header cookies)) :
    CookiesRoundTrip cookies keys req ↔ ∀ key ∈ keys,
      (cookies.findSome? (Cookie.found key)).getD [] = Cookie.valueOf cookies key := by
  have hcall : ∀ next resp, cookieParserMw keys next req resp = next.call
      (req.withMixin (cookieObject keys (parseCookies (Cookie.header cookies)))) resp := by
    intro next resp
    rw [cookieParserMw, hheader]
  constructor
  · intro h key hkey
    obtain ⟨o, ho, hvalues⟩ := h
    have hsame : cookieObject keys (parseCookies (Cookie.header cookies)) = o := by
      have hran := (hcall ⟨fun _ _ => true, fun r _ => ⟨[.ran .get 0 r], .returned true⟩⟩
        ⟨true, ⟨.http11, 200, [], []⟩⟩).symm.trans (ho _ _)
      simpa [Request.withMixin] using hran
    have hget := hvalues key hkey
    rw [← hsame, get_cookieObject _ hkey, Cookie.lookup_parseCookies] at hget
    exact Option.some.inj hget
  · intro h
    refine ⟨_, hcall, fun key hkey => ?_⟩
    rw [get_cookieObject _ hkey, Cookie.lookup_parseCookies, h key hkey]

namespace Cookie

/-- The expression cuts the pair at another `=` than the one after its name, and the object
declares the name, or the longer name the pair is filed under. -/
def Misread (keys : List Key) (c : Cookie) : Prop :=
  ∃ before after, cutLast c.value = some (before, after) ∧
    (c.name ∈ keys ∨ c.name ++ '=' :: before ∈ keys)

theorem found_of_ne {keys : List Key} {c : Cookie} (h : ¬c.Misread keys) {key : Key}
    (hkey : key ∈ keys) (hne : c.name ≠ key) : c.found key = none := by
  cases hcut : cutLast c.value with
  | none => rw [found_whole hcut, if_neg fun hc => hne hc.1]
  | some m =>
    rw [found_cut hcut, if_neg]
    intro heq
    subst heq
    exact h ⟨m.1, m.2, hcut, Or.inr hkey⟩

theorem found_of_eq {keys : List Key} {c : Cookie} (h : ¬c.Misread keys) (hkey : c.name ∈ keys) :
    c.found c.name = if c.value = [] then none else some c.value := by
  cases hcut : cutLast c.value with
  | none =>
    rw [found_whole hcut]
    by_cases hvalue : c.value = []
    · simp [hvalue]
    · simp [hvalue]
  | some m => exact absurd ⟨m.1, m.2, hcut, Or.inl hkey⟩ h

theorem valueOf_cons_self (c : Cookie) (cookies : List Cookie) :
    valueOf (c :: cookies) c.name = c.value := by
  rw [valueOf, List.map_cons, List.lookup_cons_self, Option.getD_some]

theorem valueOf_cons_of_ne {c : Cookie} {name : List Char} (cookies : List Cookie)
    (h : name ≠ c.name) : valueOf (c :: cookies) name = valueOf cookies name := by
  rw [valueOf, List.map_cons, List.lookup_cons, beq_eq_false_iff_ne.mpr h, valueOf]

theorem valueOf_of_not_mem {cookies : List Cookie} {name : List Char}
    (h : name ∉ cookies.map Cookie.name) : valueOf cookies name = [] := by
  induction cookies with
  | nil => rfl
  | cons c cookies ih =>
    rw [List.map_cons, List.mem_cons, not_or] at h
    rw [valueOf_cons_of_ne _ h.1, ih h.2]

theorem valueOf_of_mem {cookies : List Cookie} (hnames : (cookies.map Cookie.name).Nodup)
    {c : Cookie} (hc : c ∈ cookies) : valueOf cookies c.name = c.value := by
  induction cookies with
  | nil => exact absurd hc List.not_mem_nil
  | cons d cookies ih =>
    rw [List.map_cons, List.nodup_cons] at hnames
    rcases List.mem_cons.mp hc with rfl | htail
    · exact valueOf_cons_self c cookies
    · have hne : c.name ≠ d.name := fun heq =>
        hnames.1 (heq ▸ List.mem_map_of_mem htail)
      rw [valueOf_cons_of_ne _ hne]
      exact ih hnames.2 htail

theorem findSome?_found {keys : List Key} {cookies : List Cookie}
    (hnames : (cookies.map Cookie.name).Nodup) (h : ∀ c ∈ cookies, ¬c.Misread keys) {key : Key}
    (hkey : key ∈ keys) : (cookies.findSome? (found key)).getD [] = valueOf cookies key := by
  induction cookies with
  | nil => rfl
  | cons c cookies ih =>
    rw [List.map_cons, List.nodup_cons] at hnames
    have hc := h c List.mem_cons_self
    have htail := ih hnames.2 fun d hd => h d (List.mem_cons_of_mem c hd)
    rw [List.findSome?_cons]
    by_cases hne : c.name = key
    · subst hne
      rw [found_of_eq hc hkey, valueOf_cons_self]
      by_cases hvalue : c.value = []
      · rw [if_pos hvalue, hvalue]
        exact htail.trans (valueOf_of_not_mem hnames.1)
      · rw [if_neg hvalue]
        rfl
    · rw [found_of_ne hc hkey hne, valueOf_cons_of_ne _ (Ne.symm hne)]
      exact htail

theorem eq_of_name_eq {cookies : List Cookie} (hnames : (cookies.map Cookie.name).Nodup)
    {c d : Cookie} (hc : c ∈ cookies) (hd : d ∈ cookies) (h : c.name = d.name) :
    c.value = d.value := by
  rw [← valueOf_of_mem hnames hc, ← valueOf_of_mem hnames hd, h]

theorem findSome?_found_name {cookies : List Cookie} (hnames : (cookies.map Cookie.name).Nodup)
    {c : Cookie} (hc : c ∈ cookies) {m : List Char × List Char}
    (hcut : cutLast c.value = some m) : cookies.findSome? (found c.name) = none := by
  rw [List.findSome?_eq_none_iff]
  intro d hd
  cases hdcut : cutLast d.value with
  | none =>
    rw [found_whole hdcut, if_neg]
    intro h
    obtain ⟨heq, -⟩ := h
    rw [eq_of_name_eq hnames hd hc heq, hcut] at hdcut
    exact absurd hdcut (by simp)
  | some m' =>
    rw [found_cut hdcut, if_neg]
    intro heq
    exact c.not_mem_name (heq ▸ by simp)

end Cookie

/-- Cookies come back exactly when no pair that is cut inside its value concerns a declared
key. -/
theorem cookies_roundTrip_iff {cookies : List Cookie} (hnames : (cookies.map Cookie.name).Nodup)
    (keys : List Key) {req : Request}
    (hheader : req.header "Cookie".toList = some (Cookie.header cookies)) :
    CookiesRoundTrip cookies keys req ↔ ∀ c ∈ cookies, ¬c.Misread keys := by
  rw [cookiesRoundTrip_iff hheader]
  constructor
  · intro hvalues c hc hmisread
    obtain ⟨before, after, hcut, hname | hlonger⟩ := hmisread
    · have hget := hvalues c.name hname
      rw [Cookie.findSome?_found_name hnames hc hcut, Cookie.valueOf_of_mem hnames hc] at hget
      have hne : c.value ≠ [] := by
        rw [(cutLast_some hcut).1]
        simp
      exact hne hget.symm
    · have hget := hvalues _ hlonger
      have hnone : c.name ++ '=' :: before ∉ cookies.map Cookie.name := by
        intro hmem
        obtain ⟨d, -, hd⟩ := List.mem_map.mp hmem
        exact d.not_mem_name (hd ▸ by simp)
      rw [Cookie.valueOf_of_not_mem hnone] at hget
      have hself : c.found (c.name ++ '=' :: before) = some after := by
        rw [Cookie.found_cut hcut, if_pos rfl]
      have hsome : (cookies.findSome? (Cookie.found (c.name ++ '=' :: before))).isSome = true :=
        List.findSome?_isSome_iff.mpr ⟨c, hc, by rw [hself]; rfl⟩
      obtain ⟨v, hv⟩ := Option.isSome_iff_exists.mp hsome
      obtain ⟨d, -, hd⟩ := List.exists_of_findSome?_eq_some hv
      rw [hv, Option.getD_some] at hget
      exact Cookie.found_ne_nil hd hget
  · intro h key hkey
    exact Cookie.findSome?_found hnames h hkey

def cookiesRequest (cookies : List Cookie) : Request :=
  Request.ofRaw { getRequest "/cookies".toList (by decide) with
    fields := [("Cookie".toList, Cookie.header cookies)] }

def paddedCookie : Cookie :=
  ⟨"token".toList, "djYw=".toList, by decide, List.all_eq_true.mp (by decide),
    List.all_eq_true.mp (by decide)⟩

theorem cookies_roundTrip_padded :
    CookiesRoundTrip [paddedCookie] ["token".toList] (cookiesRequest [paddedCookie]) := by
  apply (cookies_roundTrip_iff (by decide) ["token".toList] rfl).mpr
  intro c hc hmisread
  obtain ⟨before, after, hcut, -⟩ := hmisread
  rw [List.mem_singleton.mp hc] at hcut
  exact absurd hcut (by simp [show cutLast paddedCookie.value = none by decide])

def nestedCookie : Cookie :=
  ⟨"session".toList, "user=v60".toList, by decide, List.all_eq_true.mp (by decide),
    List.all_eq_true.mp (by decide)⟩

theorem nestedCookie_lost :
    ¬CookiesRoundTrip [nestedCookie] ["session".toList] (cookiesRequest [nestedCookie]) := by
  rw [cookiesRoundTrip_iff rfl]
  intro hvalues
  have hsession := hvalues "session".toList List.mem_cons_self
  exact absurd hsession (by decide +kernel)

end V60
