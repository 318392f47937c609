import V60.Pcre

/-!
# Route patterns as regular expressions

`path_pattern_to_regex` looks for `:(\w+)`, sizes a buffer by the number of
matches and copies the pattern into it, a named group in place of each match.
A write outside the buffer is `none`. `pathPatternToRegex_eq` says that there
is no such write and what the buffer holds at the end.
-/

namespace V60

open Regex Pcre

/-- The characters of a `fixed_string`, terminator included. -/
abbrev FixedString := List Char

def nul : Char := '\x00'

def FixedString.ofLiteral (text : List Char) : FixedString := text ++ [nul]

/-- `operator std::string_view`, which leaves out the last character whatever it is. -/
def FixedString.view (s : FixedString) : List Char := s.dropLast

/-- `ctll::fixed_string`, which drops one more terminator. -/
def toCtStr (s : FixedString) : List Char :=
  let text := s.dropLast
  if text.getLast? = some nul then text.dropLast else text

def paramRe : Re := .seq (literal ':') (.capture 1 none (plus isWord))

example : parse ":(\\w+)".toList = some paramRe := rfl

structure Cursor where
  res : FixedString
  resIt : ℕ

def Cursor.copy (text : List Char) (c : Cursor) : Option Cursor :=
  if c.resIt + text.length ≤ c.res.length then
    some ⟨c.res.take c.resIt ++ text ++ c.res.drop (c.resIt + text.length),
      c.resIt + text.length⟩
  else none

def rewriteStep (patternSv : List Char) (s : Cursor × ℕ) (m : Hit Char) : Option (Cursor × ℕ) := do
  let (c, beg) := s
  let len := m.first - beg
  let c ← c.copy ((patternSv.drop beg).take len)
  let beg := beg + len
  let c ← c.copy "(?<".toList
  let c ← c.copy ((m.caps.lookup 1).getD [])
  let c ← c.copy ">\\S+)".toList
  return (c, beg + (m.last - m.first))

def rewriteLoop (patternSv : List Char) (sres : List (Hit Char)) (c : Cursor) (beg : ℕ) :
    Option Cursor := do
  let (c, beg) ← sres.foldlM (rewriteStep patternSv) (c, beg)
  c.copy (patternSv.drop beg)

def pathPatternToRegex (pattern : FixedString) : Option FixedString :=
  let patternSv := pattern.view
  let sres := range paramRe patternSv
  if sres.length = 0 then some pattern
  else
    let res := List.replicate (pattern.length + sres.length * 7) nul
    (rewriteLoop patternSv sres ⟨res, 0⟩ 0).map Cursor.res

def re (path : List Char) : List Char :=
  match pathPatternToRegex (FixedString.ofLiteral path) with
  | some res => toCtStr res
  | none => []

/-! ## What the rewriting does -/

def paramText (name : List Char) : List Char := "(?<".toList ++ name ++ ">\\S+)".toList

def rewriteParams : List Char → List Char
  | [] => []
  | c :: cs =>
    if c = ':' ∧ cs.takeWhile isWord ≠ [] then
      paramText (cs.takeWhile isWord) ++ rewriteParams (cs.dropWhile isWord)
    else c :: rewriteParams cs
termination_by cs => cs.length
decreasing_by
  · have := (List.dropWhile_suffix isWord (l := cs)).length_le
    simp only [List.length_cons]
    omega
  · simp

def scanParam : List Char → Option (List Char × List Char × List Char)
  | [] => none
  | c :: cs =>
    if c = ':' ∧ cs.takeWhile isWord ≠ [] then
      some ([], cs.takeWhile isWord, cs.dropWhile isWord)
    else (scanParam cs).map fun m => (c :: m.1, m.2)

theorem rewriteParams_scan (text : List Char) :
    rewriteParams text =
      (scanParam text).elim text fun m => m.1 ++ paramText m.2.1 ++ rewriteParams m.2.2 := by
  induction text with
  | nil => simp [rewriteParams, scanParam]
  | cons c cs ih =>
    rw [rewriteParams, scanParam]
    split_ifs with h
    · simp
    · cases hs : scanParam cs <;> simp [ih, hs]

theorem scanParam_eq_some {text skipped name rest : List Char}
    (h : scanParam text = some (skipped, name, rest)) : text = skipped ++ ':' :: name ++ rest := by
  induction text generalizing skipped with
  | nil => simp [scanParam] at h
  | cons c cs ih =>
    rw [scanParam] at h
    split_ifs at h with hc
    · obtain ⟨rfl, rfl, rfl⟩ := by simpa using h
      simp [hc.1]
    · obtain ⟨⟨s, m⟩, hm, hcons⟩ := Option.map_eq_some_iff.mp h
      obtain ⟨rfl, rfl⟩ := by simpa using hcons
      simpa using ih hm

theorem between_suffix (v rest : List Char) (caps caps' : List (ℕ × List Char)) :
    State.between ⟨v ++ rest, caps⟩ ⟨rest, caps'⟩ = v := by
  simp [State.between]

theorem evaluate_paramRe (n : ℕ) (c : Char) (cs : List Char) :
    evaluate n paramRe (start (c :: cs)) some =
      if c = ':' ∧ cs.takeWhile isWord ≠ [] then
        some ⟨cs.dropWhile isWord, [(1, cs.takeWhile isWord)]⟩
      else none := by
  rw [evaluate_some, paramRe, results, literal, results, start]
  by_cases hc : c = ':'
  · simp only [hc, beq_self_eq_true, if_true, List.flatMap_cons, List.flatMap_nil,
      List.append_nil, results, results_plus, List.map_map, List.head?_map, plusSuffixes_head?]
    by_cases hw : cs.takeWhile isWord = []
    · simp [hw]
    · have hbetween := between_suffix (cs.takeWhile isWord) (cs.dropWhile isWord) [] []
      rw [List.takeWhile_append_dropWhile] at hbetween
      simp [hw, State.record, hbetween]
  · simp [hc]

theorem search_paramRe (n : ℕ) (text : List Char) :
    search n paramRe text =
      (scanParam text).map fun m => (m.1, ⟨m.2.2, [(1, m.2.1)]⟩) := by
  induction text with
  | nil => rfl
  | cons c cs ih =>
    rw [search, evaluate_paramRe, scanParam]
    split_ifs with h
    · rfl
    · cases hs : scanParam cs <;> simp [ih, hs]

def Cursor.filled (out : List Char) (k : ℕ) : Cursor := ⟨out ++ List.replicate k nul, out.length⟩

theorem copy_filled (out text : List Char) (k : ℕ) :
    (Cursor.filled out (text.length + k)).copy text = some (Cursor.filled (out ++ text) k) := by
  simp [Cursor.copy, Cursor.filled, List.drop_append]

theorem rewriteStep_filled (skipped name rest pre out : List Char) (k : ℕ) :
    rewriteStep (pre ++ (skipped ++ ':' :: name ++ rest))
        (Cursor.filled out (skipped.length + (name.length + 8 + k)), pre.length)
        ⟨pre.length + skipped.length, pre.length + skipped.length + (name.length + 1),
          [(1, name)]⟩ =
      some (Cursor.filled (out ++ skipped ++ paramText name) k,
        pre.length + skipped.length + (name.length + 1)) := by
  have hskip : ((pre ++ (skipped ++ ':' :: name ++ rest)).drop pre.length).take
      (pre.length + skipped.length - pre.length) = skipped := by
    simp
  have h₁ := copy_filled out skipped (name.length + 8 + k)
  have h₂ : (Cursor.filled (out ++ skipped) (name.length + 8 + k)).copy "(?<".toList =
      some (Cursor.filled (out ++ skipped ++ "(?<".toList) (name.length + (5 + k))) := by
    have hk : name.length + 8 + k = "(?<".toList.length + (name.length + (5 + k)) := by
      simp; omega
    rw [hk, copy_filled]
  have h₃ := copy_filled (out ++ skipped ++ "(?<".toList) name (5 + k)
  have h₄ := copy_filled (out ++ skipped ++ "(?<".toList ++ name) ">\\S+)".toList k
  have hout : out ++ skipped ++ "(?<".toList ++ name ++ ">\\S+)".toList =
      out ++ skipped ++ paramText name := by
    simp only [paramText, List.append_assoc]
  rw [hout] at h₄
  rw [rewriteStep]
  simp only [hskip, h₁, Option.bind_eq_bind, Option.bind_some, h₂, List.lookup_cons_self,
    Option.getD_some, h₃]
  have h₅ : ">\\S+)".toList.length + k = 5 + k := rfl
  rw [← h₅, h₄]
  simp only [Option.bind_some, Option.pure_def, Option.some.injEq, Prod.mk.injEq, true_and]
  omega

theorem rangeFrom_nil (n fuel pos : ℕ) : rangeFrom n paramRe fuel pos [] = [] := by
  cases fuel <;> rfl

theorem rangeFrom_cons (n fuel : ℕ) (pre : List Char) {text skipped name rest : List Char}
    (hs : scanParam text = some (skipped, name, rest)) :
    rangeFrom n paramRe (fuel + 1) pre.length text =
      ⟨pre.length + skipped.length, pre.length + skipped.length + (name.length + 1),
        [(1, name)]⟩ ::
      rangeFrom n paramRe fuel (pre ++ skipped ++ ':' :: name).length rest := by
  have hlast : pre.length + (text.length - rest.length) =
      (pre ++ skipped ++ ':' :: name).length := by
    rw [scanParam_eq_some hs]
    simp
    omega
  have hlen : (pre ++ skipped ++ ':' :: name).length =
      pre.length + skipped.length + (name.length + 1) := by
    simp
    omega
  rw [rangeFrom, search_paramRe, hs]
  simp only [Option.map_some, hlast]
  split_ifs with hrest
  · rw [hrest, rangeFrom_nil, hlen]
  · rw [hlen]

/-- Cursor and `beg` before a match, when the text from `beg` on is still to be rewritten. -/
theorem rewriteLoop_filled (n fuel : ℕ) (pre text out : List Char) (k : ℕ)
    (hfuel : text.length < fuel) :
    rewriteLoop (pre ++ text) (rangeFrom n paramRe fuel pre.length text)
        (Cursor.filled out
          (text.length + (rangeFrom n paramRe fuel pre.length text).length * 7 + k)) pre.length =
      some (Cursor.filled (out ++ rewriteParams text) k) := by
  induction fuel generalizing pre text out with
  | zero => omega
  | succ fuel ih =>
    rw [rewriteParams_scan]
    cases hs : scanParam text with
    | none =>
      have hnone : rangeFrom n paramRe (fuel + 1) pre.length text = [] := by
        rw [rangeFrom, search_paramRe, hs]
        rfl
      simp [hnone, rewriteLoop, copy_filled]
    | some m =>
      obtain ⟨skipped, name, rest⟩ := m
      have htext := scanParam_eq_some hs
      have hsplit : pre ++ text = (pre ++ skipped ++ ':' :: name) ++ rest := by simp [htext]
      have hstep := rewriteStep_filled skipped name rest pre out (rest.length +
        (rangeFrom n paramRe fuel (pre ++ skipped ++ ':' :: name).length rest).length * 7 + k)
      have hlast : pre.length + skipped.length + (name.length + 1) =
          (pre ++ skipped ++ ':' :: name).length := by
        simp
        omega
      have hroom : text.length + (rangeFrom n paramRe (fuel + 1) pre.length text).length * 7 + k =
          skipped.length + (name.length + 8 + (rest.length + (rangeFrom n paramRe fuel
            (pre ++ skipped ++ ':' :: name).length rest).length * 7 + k)) := by
        rw [rangeFrom_cons n fuel pre hs, htext]
        simp
        omega
      have hloop := ih (pre ++ skipped ++ ':' :: name) rest (out ++ skipped ++ paramText name)
        (by rw [htext] at hfuel; simp at hfuel; omega)
      rw [hroom, rangeFrom_cons n fuel pre hs, rewriteLoop, List.foldlM_cons, htext, hstep]
      rw [← htext, hsplit, hlast]
      simp only [Option.bind_eq_bind, Option.bind_some]
      rw [rewriteLoop] at hloop
      simpa using hloop

theorem pathPatternToRegex_eq (path : List Char) :
    pathPatternToRegex (FixedString.ofLiteral path) =
      some (FixedString.ofLiteral (rewriteParams path)) := by
  have hview : (FixedString.ofLiteral path).view = path := by
    simp [FixedString.view, FixedString.ofLiteral]
  have hloop := rewriteLoop_filled path.length (path.length + 1) [] path [] 1 (by omega)
  have hrange : rangeFrom path.length paramRe (path.length + 1) 0 path = range paramRe path := rfl
  simp only [List.length_nil, List.nil_append, hrange, Cursor.filled] at hloop
  have hroom : (FixedString.ofLiteral path).length = path.length + 1 := by
    simp [FixedString.ofLiteral]
  rw [pathPatternToRegex, hview]
  by_cases hsize : (range paramRe path).length = 0
  · have hscan : scanParam path = none := by
      cases hs : scanParam path with
      | none => rfl
      | some m =>
        have hcons := rangeFrom_cons path.length path.length [] hs
        rw [List.length_nil, hrange] at hcons
        simp [hcons] at hsize
    rw [if_pos hsize, rewriteParams_scan, hscan, Option.elim_none]
  · rw [if_neg hsize, hroom, Nat.add_right_comm]
    simp only [hloop]
    rfl

theorem re_eq {path : List Char} (h : (rewriteParams path).getLast? ≠ some nul) :
    re path = rewriteParams path := by
  rw [re, pathPatternToRegex_eq]
  simp [toCtStr, FixedString.ofLiteral, h]

/-! ## What fills the buffer -/

/-- No `:` is followed by a word character. -/
def NoParam (text : List Char) : Prop :=
  ∀ before c after, text = before ++ ':' :: c :: after → isWord c = false

/-- The text, the number of its parameters, and the text with a named group in place of each: a
parameter is a `:` with all the word characters that follow it. -/
inductive Rewritten : List Char → ℕ → List Char → Prop
  | plain {text : List Char} : NoParam text → Rewritten text 0 text
  | param {skipped name rest out : List Char} {n : ℕ} : NoParam skipped → name ≠ [] →
    (∀ c ∈ name, isWord c = true) → (∀ c ∈ rest.head?, isWord c = false) →
    Rewritten rest n out →
    Rewritten (skipped ++ ':' :: name ++ rest) (n + 1) (skipped ++ paramText name ++ out)

theorem Rewritten.length_eq {text out : List Char} {n : ℕ} (h : Rewritten text n out) :
    out.length = text.length + n * 7 := by
  induction h with
  | plain h => omega
  | param hskipped hne hword hrest h ih =>
    simp only [paramText, List.length_append, List.length_cons, ih]
    simp
    omega

theorem Rewritten.eq_of_zero {text out : List Char} (h : Rewritten text 0 out) : out = text := by
  cases h
  rfl

theorem noParam_nil : NoParam [] := by
  intro before c after h
  simp at h

theorem NoParam.cons {c : Char} {cs : List Char} (hcs : NoParam cs)
    (hc : c = ':' → ∀ d ∈ cs.head?, isWord d = false) : NoParam (c :: cs) := by
  intro before d after h
  cases before with
  | nil =>
    obtain ⟨hcolon, htail⟩ := List.cons_eq_cons.mp h
    exact hc hcolon d (by rw [htail]; rfl)
  | cons b before => exact hcs before d after (List.cons_eq_cons.mp h).2

theorem head_of_takeWhile_nil {p : Char → Bool} {cs : List Char} (h : cs.takeWhile p = []) :
    ∀ c ∈ cs.head?, p c = false := by
  intro c hc
  obtain ⟨tail, rfl⟩ := List.head?_eq_some_iff.mp hc
  cases hp : p c with
  | false => rfl
  | true => simp [hp] at h

theorem noParam_of_scanParam {text : List Char} (h : scanParam text = none) : NoParam text := by
  induction text with
  | nil => exact noParam_nil
  | cons c cs ih =>
    rw [scanParam] at h
    split_ifs at h with hc
    refine (ih (Option.map_eq_none_iff.mp h)).cons fun hcolon => head_of_takeWhile_nil ?_
    by_contra hne
    exact hc ⟨hcolon, hne⟩

theorem scanParam_maximal {text skipped name rest : List Char}
    (h : scanParam text = some (skipped, name, rest)) :
    NoParam skipped ∧ name ≠ [] ∧ (∀ c ∈ name, isWord c = true) ∧
      ∀ c ∈ rest.head?, isWord c = false := by
  induction text generalizing skipped with
  | nil => simp [scanParam] at h
  | cons c cs ih =>
    rw [scanParam] at h
    split_ifs at h with hc
    · obtain ⟨rfl, rfl, rfl⟩ := by simpa using h
      refine ⟨noParam_nil, hc.2, fun d hd => List.mem_takeWhile_imp hd, fun d hd => ?_⟩
      have hhead := List.head?_dropWhile_not isWord cs
      rw [Option.mem_def.mp hd] at hhead
      simpa using hhead
    · obtain ⟨⟨s, m⟩, hm, hcons⟩ := Option.map_eq_some_iff.mp h
      obtain ⟨rfl, rfl⟩ := by simpa using hcons
      obtain ⟨hskipped, hname⟩ := ih hm
      refine ⟨hskipped.cons fun hcolon d hd => ?_, hname⟩
      have hnil : cs.takeWhile isWord = [] := by
        by_contra hne
        exact hc ⟨hcolon, hne⟩
      apply head_of_takeWhile_nil hnil d
      obtain ⟨tail, rfl⟩ := List.head?_eq_some_iff.mp hd
      rw [scanParam_eq_some hm]
      rfl

theorem rewritten_rangeFrom (n fuel : ℕ) (pre text : List Char) (hfuel : text.length < fuel) :
    Rewritten text (rangeFrom n paramRe fuel pre.length text).length (rewriteParams text) := by
  induction fuel generalizing pre text with
  | zero => omega
  | succ fuel ih =>
    rw [rewriteParams_scan]
    cases hs : scanParam text with
    | none =>
      have hnone : rangeFrom n paramRe (fuel + 1) pre.length text = [] := by
        rw [rangeFrom, search_paramRe, hs]
        rfl
      rw [hnone]
      exact .plain (noParam_of_scanParam hs)
    | some m =>
      obtain ⟨skipped, name, rest⟩ := m
      obtain ⟨hskipped, hne, hword, hrest⟩ := scanParam_maximal hs
      have htext := scanParam_eq_some hs
      rw [rangeFrom_cons n fuel pre hs, List.length_cons, htext]
      exact .param hskipped hne hword hrest
        (ih (pre ++ skipped ++ ':' :: name) rest (by rw [htext] at hfuel; simp at hfuel; omega))

/-- Every write stays inside the buffer, which has seven characters more for each parameter and
of which only the terminator is not written. -/
theorem pathPatternToRegex_fills (path : List Char) :
    ∃ n out, Rewritten path n out ∧
      pathPatternToRegex (FixedString.ofLiteral path) = some (FixedString.ofLiteral out) ∧
      (FixedString.ofLiteral out).length = (FixedString.ofLiteral path).length + n * 7 ∧
      rewriteLoop path (range paramRe path)
          ⟨List.replicate ((FixedString.ofLiteral path).length + n * 7) nul, 0⟩ 0 =
        some ⟨FixedString.ofLiteral out, out.length⟩ ∧
      (n = 0 → out = path) := by
  have hloop := rewriteLoop_filled path.length (path.length + 1) [] path [] 1 (by omega)
  have hrange : rangeFrom path.length paramRe (path.length + 1) 0 path = range paramRe path := rfl
  simp only [List.length_nil, List.nil_append, hrange, Cursor.filled] at hloop
  have hrewritten := rewritten_rangeFrom path.length (path.length + 1) [] path (by omega)
  rw [List.length_nil, hrange] at hrewritten
  have hsize : (FixedString.ofLiteral path).length + (range paramRe path).length * 7 =
      path.length + (range paramRe path).length * 7 + 1 := by
    simp only [FixedString.ofLiteral, List.length_append, List.length_singleton]
    omega
  refine ⟨(range paramRe path).length, rewriteParams path, hrewritten,
    pathPatternToRegex_eq path, ?_, ?_, fun hzero => ?_⟩
  · rw [hsize, ← hrewritten.length_eq]
    simp [FixedString.ofLiteral]
  · rw [hsize]
    exact hloop
  · rw [hzero] at hrewritten
    exact hrewritten.eq_of_zero

end V60
