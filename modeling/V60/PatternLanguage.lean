import V60.Parameters
import V60.PcreRows

/-!
# The language of a pattern

The text of a route pattern is an expression: apart from its parameters, `.`,
`$`, escapes and repetitions keep their meaning in it. For a pattern without
groups of its own a binding takes the longest part of the path that the
expression can read, all along a tree (`Tree.takes_iff`), and an end point behind
one pattern takes the regular language that it spells (`getAt_language_iff`).
Two possessive repetitions of one class side by side are no such pattern: the
reader makes one of them, and that one reads something else.
-/

namespace V60

open Regex Pcre

open scoped Computability

/-- How often a class is read; `everyStar` and `everyPlus` give nothing back. -/
inductive Times where
  | once
  | star
  | plus
  | optional
  | everyStar
  | everyPlus

namespace Times

def text : Times → List Char
  | .once => []
  | .star => ['*']
  | .plus => ['+']
  | .optional => ['?']
  | .everyStar => ['*', '+']
  | .everyPlus => ['+', '+']

def ast (a : Atom) : Times → Ast
  | .once => .atom a
  | .star => .repeat 0 0 (.atom a)
  | .plus => .repeat 1 0 (.atom a)
  | .optional => .repeat 0 1 (.atom a)
  | .everyStar => .possessiveRepeat 0 0 (.atom a)
  | .everyPlus => .possessiveRepeat 1 0 (.atom a)

def keeps (a : Atom) : Times → Option Atom
  | .everyStar | .everyPlus => some a
  | .once | .star | .plus | .optional => none

def piece (p : Char → Bool) : Times → Piece Char
  | .once => .greedy 1 1 p
  | .star => .greedy 0 0 p
  | .plus => .greedy 1 0 p
  | .optional => .greedy 0 1 p
  | .everyStar => .possessive 0 0 p
  | .everyPlus => .possessive 1 0 p

/-- The words of the class, so many times, and one of the language after it. -/
def language (p : Char → Bool) (L : Language Char) : Times → Language Char
  | .once => chars p * L
  | .star => (chars p)∗ * L
  | .plus => chars p * (chars p)∗ * L
  | .optional => (1 + chars p) * L
  | .everyStar => allThen p L
  | .everyPlus => chars p * allThen p L

/-- What the reader of expressions is in after the repetition. -/
def mode : Times → Mode
  | .once => .atom
  | .star | .plus => .mod
  | .optional => .modOpt
  | .everyStar | .everyPlus => .tail

end Times

/-- What an escape such as `\d` stands for. -/
def escapeAtom (c : Char) : Atom :=
  match escaped c with
  | some (.atom a) => a
  | _ => .any

inductive Token where
  | char (c : Char) (times : Times)
  | escape (c : Char) (times : Times)
  | any (times : Times)
  | parameter (name : Key)
  | last

namespace Token

def Valid : Token → Prop
  | .char c _ => Ordinary c ∧ c ≠ nul
  | .escape c _ => escaped c = some (.atom (escapeAtom c))
  | .parameter name => ValidName name
  | .any _ | .last => True

def text : Token → List Char
  | .char c times => c :: times.text
  | .escape c times => '\\' :: c :: times.text
  | .any times => '.' :: times.text
  | .parameter name => ':' :: name
  | .last => ['$']

/-- The text with a named group in place of a parameter. -/
def regex : Token → List Char
  | .parameter name => paramText name
  | .char c times => c :: times.text
  | .escape c times => '\\' :: c :: times.text
  | .any times => '.' :: times.text
  | .last => ['$']

def groups : Token → ℕ
  | .parameter _ => 1
  | .char .. | .escape .. | .any _ | .last => 0

/-- The item that the reader makes of the token, after `k` groups. -/
def ast (k : ℕ) : Token → Ast
  | .char c times => times.ast (.character c)
  | .escape c times => times.ast (escapeAtom c)
  | .any times => times.ast .any
  | .parameter name => namedGroup (k + 1) name
  | .last => .assertEnd

def asts : ℕ → List Token → List Ast
  | _, [] => []
  | k, token :: tokens => token.ast k :: asts (k + token.groups) tokens

def piece : Token → Piece Char
  | .char c times => times.piece (· == c)
  | .escape c times => times.piece (escapeAtom c).matches
  | .any times => times.piece fun _ => true
  | .parameter _ => .greedy 1 0 nonSpace
  | .last => .atEnd

def before : Token → Language Char → Language Char
  | .char c times, L => times.language (· == c) L
  | .escape c times, L => times.language (escapeAtom c).matches L
  | .any times, L => times.language (fun _ => true) L
  | .parameter _, L => chars nonSpace * (chars nonSpace)∗ * L
  | .last, L => endThen L

/-- The class that the token repeats without giving back. -/
def keeps : Token → Option Atom
  | .char c times => times.keeps (.character c)
  | .escape c times => times.keeps (escapeAtom c)
  | .any times => times.keeps .any
  | .parameter _ | .last => none

/-- The second token does not go on with the name of a parameter, and makes no name of its own
after a colon. -/
def EndsName : Token → Token → Prop
  | .parameter _, .char c _ | .char ':' .once, .char c _ => isWord c = false
  | _, _ => True

/-- Two tokens that the reader tells apart. -/
structure Apart (s t : Token) : Prop where
  name : EndsName s t
  keeps : ∀ a ∈ s.keeps, a ∉ t.keeps

end Token

/-- The paths that a pattern stands for. -/
def language (tokens : List Token) : Language Char := tokens.foldr Token.before 1

/-! ## The expression that a pattern compiles to -/

/-- Where the reader of expressions can start an item. -/
inductive Opens : Mode → Prop
  | start : Opens .start
  | atom : Opens .atom
  | mod : Opens .mod
  | modOpt : Opens .modOpt
  | tail : Opens .tail

/-- The parser after it has read these items, `groups` of them capturing. -/
def readItems (p : Parser) (mode : Mode) (items : List Ast) (groups : ℕ) : Parser :=
  { p.append items groups with mode := mode }

theorem readItems_append (p : Parser) (mode mode' : Mode) (xs ys : List Ast) (m n : ℕ) :
    readItems (readItems p mode xs m) mode' ys n = readItems p mode' (xs ++ ys) (m + n) := by
  simp [readItems, Parser.append, Nat.add_assoc]

theorem step_opens {p : Parser} (hp : Opens p.mode) {c : Char} (hc : c ∉ ")|*+?".toList) :
    step p c = p.item c := by
  have hne : ∀ d ∈ ")|*+?".toList, c ≠ d := fun d hd heq => hc (heq ▸ hd)
  have hstar : c ≠ '*' := hne _ (by decide)
  have hplus : c ≠ '+' := hne _ (by decide)
  have hopt : c ≠ '?' := hne _ (by decide)
  have htail : p.tail c = p.item c := by
    unfold Parser.tail
    split
    · exact absurd rfl (hne ')' (by decide))
    · exact absurd rfl (hne '|' (by decide))
    · rfl
  have hstart : p.start c = p.item c := by
    unfold Parser.start
    split
    · exact absurd rfl (hne ')' (by decide))
    · exact absurd rfl (hne '|' (by decide))
    · rfl
  generalize hmode : p.mode = mode at hp
  cases hp with
  | start => simp only [Pcre.step, hmode, hstart]
  | atom => simp only [Pcre.step, hmode, hstar, hplus, hopt, if_false, htail]
  | mod => simp only [Pcre.step, hmode, hplus, hopt, if_false, htail]
  | modOpt => simp only [Pcre.step, hmode, hopt, if_false, htail]
  | tail => simp only [Pcre.step, hmode, htail]

theorem foldlM_times (p : Parser) (a : Atom) (times : Times) :
    times.text.foldlM step (readItems p .atom [.atom a] 0) =
      some (readItems p times.mode [times.ast a] 0) := by
  cases times <;> rfl

theorem Times.opens (times : Times) : Opens times.mode := by
  cases times <;> constructor

theorem Times.text_ne_colon (times : Times) : ∀ c ∈ times.text, c ≠ ':' := by
  cases times <;> simp [text]

theorem foldlM_paramText {p : Parser} (hp : Opens p.mode) {name : Key} (hname : ValidName name) :
    (paramText name).foldlM step p =
      some (readItems p .atom [namedGroup (p.count + 1) name] 1) := by
  have hgroup := foldlM_namedGroup (p := { p with mode := .start }) (Or.inl rfl) hname
  have hopen : step p '(' = step { p with mode := .start } '(' :=
    step_opens hp (c := '(') (by decide)
  have htext : paramText name = '(' :: ("?<".toList ++ name ++ ">\\S+)".toList) := rfl
  rw [htext, List.foldlM_cons, hopen, ← List.foldlM_cons]
  exact hgroup

theorem foldlM_token {p : Parser} (hp : Opens p.mode) {token : Token} (h : token.Valid) :
    ∃ mode, Opens mode ∧
      token.regex.foldlM step p = some (readItems p mode [token.ast p.count] token.groups) := by
  cases token with
  | char c times =>
    obtain ⟨hc, -⟩ := h
    have hitem : c ∉ ")|*+?".toList := by
      intro hmem
      have hall : (")|*+?".toList.all fun d => special.contains d) = true := by decide
      exact hc.2 (List.contains_iff_mem.mp (List.all_eq_true.mp hall c hmem))
    have hstep : step p c = some (readItems p .atom [character c] 0) :=
      (step_opens hp hitem).trans (hc.item p)
    refine ⟨_, times.opens, ?_⟩
    rw [Token.regex, List.foldlM_cons, hstep]
    exact foldlM_times p _ times
  | escape c times =>
    have hstep : step p '\\' = some { p with mode := .escape } := step_opens hp (by decide)
    have hclass : step { p with mode := .escape } c =
        some (readItems p .atom [.atom (escapeAtom c)] 0) := congrArg (Option.map _) h
    refine ⟨_, times.opens, ?_⟩
    rw [Token.regex, List.foldlM_cons, hstep]
    simp only [Option.bind_eq_bind, Option.bind_some]
    rw [List.foldlM_cons, hclass]
    exact foldlM_times p _ times
  | any times =>
    have hstep : step p '.' = some (readItems p .atom [.atom .any] 0) :=
      step_opens hp (by decide)
    refine ⟨_, times.opens, ?_⟩
    rw [Token.regex, List.foldlM_cons, hstep]
    exact foldlM_times p _ times
  | parameter name => exact ⟨_, .atom, foldlM_paramText hp h⟩
  | last =>
    have hstep : step p '$' = some (readItems p .atom [.assertEnd] 0) := step_opens hp (by decide)
    refine ⟨_, .atom, ?_⟩
    rw [Token.regex, List.foldlM_cons, hstep]
    rfl

namespace Token

variable {tokens : List Token}

theorem foldlM_tokens (h : ∀ token ∈ tokens, token.Valid) {p : Parser} (hp : Opens p.mode) :
    ∃ mode groups, Opens mode ∧ (tokens.flatMap regex).foldlM step p =
      some (readItems p mode (asts p.count tokens) groups) := by
  induction tokens generalizing p with
  | nil => exact ⟨p.mode, 0, hp, rfl⟩
  | cons token tokens ih =>
    obtain ⟨htoken, htokens⟩ := List.forall_mem_cons.mp h
    obtain ⟨mode, hmode, hread⟩ := foldlM_token hp htoken
    obtain ⟨mode', groups, hmode', hrest⟩ :=
      ih htokens (p := readItems p mode [token.ast p.count] token.groups) hmode
    refine ⟨mode', token.groups + groups, hmode', ?_⟩
    rw [List.flatMap_cons, List.foldlM_append, hread]
    simp only [Option.bind_eq_bind, Option.bind_some]
    rw [hrest, readItems_append]
    rfl

theorem ast_tokens (h : ∀ token ∈ tokens, token.Valid) :
    Pcre.ast (tokens.flatMap regex) = some (sequenceAll (asts 0 tokens)) := by
  obtain ⟨mode, groups, hmode, hread⟩ := foldlM_tokens h (p := Pcre.init) .start
  rw [Pcre.ast, hread, Option.bind_some]
  have hast : (readItems Pcre.init mode (asts 0 tokens) groups).top.ast =
      sequenceAll (asts 0 tokens) := by
    simp [readItems, Pcre.init, Parser.append, Level.ast, Level.branch, selectAll]
  rw [← hast]
  cases hmode <;> rfl

theorem takeWhile_text (h : ∀ c times, .char c times ∈ tokens.head? → isWord c = false) :
    (tokens.flatMap text).takeWhile isWord = [] := by
  cases tokens with
  | nil => rfl
  | cons token tokens =>
    cases token with
    | char c times =>
      have hc : isWord c = false := h c times rfl
      simp [text, hc]
    | escape c times => rfl
    | any times => rfl
    | parameter name => rfl
    | last => rfl

theorem apart_parameter {name : Key} (h : List.IsChain Apart (.parameter name :: tokens)) :
    (tokens.flatMap text).takeWhile isWord = [] := by
  apply takeWhile_text
  intro c times hhead
  obtain ⟨rest, rfl⟩ := List.head?_eq_some_iff.mp hhead
  exact (List.isChain_cons_cons.mp h).1.name

theorem apart_colon {times : Times} (h : List.IsChain Apart (.char ':' times :: tokens)) :
    (times.text ++ tokens.flatMap text).takeWhile isWord = [] := by
  cases times with
  | once =>
    apply takeWhile_text
    intro c times hhead
    obtain ⟨rest, rfl⟩ := List.head?_eq_some_iff.mp hhead
    exact (List.isChain_cons_cons.mp h).1.name
  | star => rfl
  | plus => rfl
  | optional => rfl
  | everyStar => rfl
  | everyPlus => rfl

theorem Valid.escape_ne {c : Char} {times : Times} (h : (Token.escape c times).Valid) :
    c ≠ ':' ∧ c ≠ nul := by
  have hclass : escaped c = some (.atom (escapeAtom c)) := h
  constructor
  · intro heq
    subst heq
    cases hclass
  · intro heq
    subst heq
    cases hclass

theorem rewriteParams_tokens (h : ∀ token ∈ tokens, token.Valid)
    (hapart : List.IsChain Apart tokens) :
    rewriteParams (tokens.flatMap text) = tokens.flatMap regex := by
  induction tokens with
  | nil => simp [rewriteParams]
  | cons token tokens ih =>
    obtain ⟨htoken, htokens⟩ := List.forall_mem_cons.mp h
    have htail := ih htokens hapart.of_cons
    have htimes : ∀ times : Times, rewriteParams (times.text ++ tokens.flatMap text) =
        times.text ++ tokens.flatMap regex := by
      intro times
      rw [Segment.rewriteParams_append times.text_ne_colon, htail]
    rw [List.flatMap_cons, List.flatMap_cons]
    cases token with
    | char c times =>
      rw [text, regex, List.cons_append, List.cons_append, rewriteParams, if_neg, htimes]
      intro hparam
      obtain ⟨rfl, hname⟩ := hparam
      exact hname (apart_colon hapart)
    | escape c times =>
      have hc : ∀ d ∈ ['\\', c], d ≠ ':' := by simpa using htoken.escape_ne.1
      have happend := Segment.rewriteParams_append hc (times.text ++ tokens.flatMap text)
      rw [htimes] at happend
      exact happend
    | any times =>
      rw [text, regex, List.cons_append, List.cons_append, rewriteParams, if_neg (by simp), htimes]
    | parameter name =>
      have hname : ValidName name := htoken
      rw [text, regex, List.cons_append, Segment.rewriteParams_name hname (apart_parameter hapart),
        htail]
    | last => rw [text, regex, Segment.rewriteParams_append (by simp), htail]

theorem Valid.regex_ne_nul {token : Token} (h : token.Valid) : ∀ c ∈ token.regex, c ≠ nul := by
  have htimes : ∀ times : Times, ∀ c ∈ times.text, c ≠ nul := by
    intro times
    cases times <;> simp [Times.text, nul]
  cases token with
  | char c times => exact List.forall_mem_cons.mpr ⟨h.2, htimes times⟩
  | escape c times =>
    have hescape : ∀ d ∈ c :: times.text, d ≠ nul :=
      List.forall_mem_cons.mpr ⟨h.escape_ne.2, htimes times⟩
    exact List.forall_mem_cons.mpr ⟨by decide, hescape⟩
  | any times => exact List.forall_mem_cons.mpr ⟨by decide, htimes times⟩
  | parameter name =>
    have hname : ValidName name := h
    have hsegment : (Segment.parameter name).Valid := hname
    intro c hc
    exact hsegment.regex_ne_nul c (List.mem_cons_of_mem '/' hc)
  | last => exact List.forall_mem_cons.mpr ⟨by decide, by simp⟩

theorem isRow_times (a : Atom) (times : Times) : IsRow (times.ast a) [times.piece a.matches] := by
  cases times with
  | once => exact .atom a
  | star => exact .repeat a (Or.inl rfl)
  | plus => exact .repeat a (Or.inl rfl)
  | optional => exact .repeat a (Or.inr (Nat.zero_le 1))
  | everyStar => exact .possessiveRepeat 0 0 a
  | everyPlus => exact .possessiveRepeat 1 0 a

theorem isRow_token (k : ℕ) (token : Token) : IsRow (token.ast k) [token.piece] := by
  cases token with
  | char c times => exact isRow_times (.character c) times
  | escape c times => exact isRow_times (escapeAtom c) times
  | any times => exact isRow_times .any times
  | parameter name => exact .capture (k + 1) name (.repeat .nonSpace (Or.inl rfl))
  | last => exact .assertEnd

theorem isRow_asts (k : ℕ) (tokens : List Token) :
    List.Forall₂ (fun a piece => IsRow a [piece]) (asts k tokens) (tokens.map piece) := by
  induction tokens generalizing k with
  | nil => exact .nil
  | cons token tokens ih => exact .cons (isRow_token k token) (ih _)

theorem keeps_times (a : Atom) (times : Times) :
    (times.ast a).keeps = (times.keeps a).map .atom := by
  cases times <;> rfl

theorem keeps_ast (k : ℕ) (token : Token) : (token.ast k).keeps = token.keeps.map .atom := by
  cases token with
  | char c times => exact keeps_times _ times
  | escape c times => exact keeps_times _ times
  | any times => exact keeps_times _ times
  | parameter name => rfl
  | last => rfl

theorem Apart.ast {s t : Token} (h : Apart s t) (j k : ℕ) :
    ∀ r ∈ (s.ast j).keeps, r ∉ (t.ast k).keeps := by
  intro r hr hr'
  rw [keeps_ast, Option.mem_def, Option.map_eq_some_iff] at hr hr'
  obtain ⟨a, ha, rfl⟩ := hr
  obtain ⟨b, hb, heq⟩ := hr'
  obtain rfl : b = a := Ast.atom.inj heq
  exact h.keeps b ha hb

theorem isChain_asts (k : ℕ) (hapart : List.IsChain Apart tokens) :
    List.IsChain (fun a b => ∀ r ∈ a.keeps, r ∉ b.keeps) (asts k tokens) := by
  induction tokens generalizing k with
  | nil => exact .nil
  | cons token tokens ih =>
    cases tokens with
    | nil => exact .singleton _
    | cons next tokens =>
      exact List.isChain_cons_cons.mpr
        ⟨(List.isChain_cons_cons.mp hapart).1.ast _ _, ih _ hapart.of_cons⟩

/-- What the pattern is compiled to reads what its tokens read. -/
theorem compile_tokens (h : ∀ token ∈ tokens, token.Valid) (hapart : List.IsChain Apart tokens) :
    ∃ a merged, compile (re (tokens.flatMap text)) = some (seqAll (Ast.parts a)) ∧
      List.Forall₂ Spells a.parts merged ∧
      ∀ w r, Reads merged w r ↔ Reads (tokens.map piece) w r := by
  have hlast : (rewriteParams (tokens.flatMap text)).getLast? ≠ some nul := by
    rw [rewriteParams_tokens h hapart]
    intro hnul
    obtain ⟨token, htoken, hc⟩ := List.mem_flatMap.mp (List.mem_of_getLast? hnul)
    exact (h token htoken).regex_ne_nul nul hc rfl
  obtain ⟨-, merged, hrow, hreads⟩ :=
    IsRow.sequenceAll (isRow_asts 0 tokens) (isChain_asts 0 hapart)
  refine ⟨_, merged, ?_, hrow.spells, hreads⟩
  rw [compile, re_eq hlast, rewriteParams_tokens h hapart, parse, ast_tokens h, Option.map_some,
    Option.filter_some_pos]
  · rfl
  · exact List.all_eq_true.mpr hrow.named

end Token

/-- A pattern without groups of its own. -/
structure Row where
  tokens : List Token
  valid : ∀ token ∈ tokens, token.Valid
  apart : List.IsChain Token.Apart tokens

namespace Row

def text (P : Row) : List Char := P.tokens.flatMap Token.text

def pieces (P : Row) : List (Piece Char) := P.tokens.map Token.piece

/-- The expression is asked once, for its first match, and that is the longest part of the path
that it can read. -/
theorem startsWith_longest {ctre : Ctre} (hctre : ctre = Ctre.pcre) (P : Row)
    (path rest : List Char) :
    (∃ m, ctre.startsWith (re P.text) path = some m ∧ path.drop m.len = rest) ↔
      Longest P.pieces path rest := by
  obtain ⟨a, merged, hcompile, hspells, hreads⟩ := Token.compile_tokens P.valid P.apart
  have hengine : ctre.startsWith (re P.text) path =
      (Regex.startsWith (seqAll a.parts) path).map (toMatch (seqAll a.parts) path) := by
    rw [hctre]
    simp only [Ctre.pcre, text, hcompile, Option.bind_some]
  have hrow := startsWith_row hspells path
  have hdrop : ∀ {t}, Regex.startsWith (seqAll a.parts) path = some t →
      path.drop (path.length - t.rest.length) = t.rest := by
    intro t ht
    have hlongest := (hrow t.rest).mp ⟨t, ht, rfl⟩
    exact (List.suffix_iff_eq_drop.mp hlongest.reads.suffix).symm
  rw [pieces, ← longest_congr hreads, ← hrow]
  constructor
  · intro h
    obtain ⟨m, hm, rfl⟩ := h
    rw [hengine] at hm
    obtain ⟨t, ht, rfl⟩ := Option.map_eq_some_iff.mp hm
    exact ⟨t, ht, (hdrop ht).symm⟩
  · intro h
    obtain ⟨t, ht, rfl⟩ := h
    refine ⟨toMatch (seqAll a.parts) path t, ?_, hdrop ht⟩
    rw [hengine, ht]
    rfl

end Row

/-- Each pattern of the chain takes as much as it can read, and nothing is left. -/
def Takes : List Row → List Char → Prop
  | [], path => path = []
  | P :: chain, path => ∃ rest, Longest P.pieces path rest ∧ Takes chain rest

theorem follow_rows {ctre : Ctre} (hctre : ctre = Ctre.pcre) (chain : List Row)
    (path : List Char) :
    Entry.follow ctre (chain.map Row.text) path = some [] ↔ Takes chain path := by
  induction chain generalizing path with
  | nil => exact Option.some_inj
  | cons P chain ih =>
    rw [List.map_cons, Entry.follow, Option.bind_eq_some_iff]
    constructor
    · intro h
      obtain ⟨m, hm, hrest⟩ := h
      exact ⟨_, (P.startsWith_longest hctre path _).mp ⟨m, hm, rfl⟩, (ih _).mp hrest⟩
    · intro h
      obtain ⟨rest, hlongest, hrest⟩ := h
      obtain ⟨m, hm, rfl⟩ := (P.startsWith_longest hctre path rest).mpr hlongest
      exact ⟨m, hm, (ih _).mpr hrest⟩

theorem accepts_rows {ctre : Ctre} (hctre : ctre = Ctre.pcre) {e : Entry} {chain : List Row}
    (hchain : e.chain = chain.map Row.text) (v : Verb) (path : List Char) :
    e.accepts ctre v path = true ↔ v = e.verb ∧ Takes chain path := by
  rw [Entry.accepts, Bool.and_eq_true, decide_eq_true_eq, decide_eq_true_eq, hchain,
    follow_rows hctre]

/-- A tree whose patterns are rows matches what the chain of one of its end points takes. -/
theorem Tree.takes_iff {env : Env} (henv : env.ctre = Ctre.pcre) {t : Tree}
    (ht : ∀ e ∈ t.entries, ∃ chain : List Row, e.chain = chain.map Row.text) (v : Verb)
    (path : List Char) :
    (t.routable env).isMatch v path = true ↔ ∃ e ∈ t.entries, v = e.verb ∧
      ∃ chain : List Row, e.chain = chain.map Row.text ∧ Takes chain path := by
  rw [isMatch_eq, ← any_accepts, List.any_eq_true]
  apply exists_congr
  intro e
  apply and_congr_right
  intro he
  constructor
  · intro haccepts
    obtain ⟨chain, hchain⟩ := ht e he
    obtain ⟨hverb, htakes⟩ := (accepts_rows henv hchain v path).mp haccepts
    exact ⟨hverb, chain, hchain, htakes⟩
  · intro h
    obtain ⟨hverb, chain, hchain, htakes⟩ := h
    exact (accepts_rows henv hchain v path).mpr ⟨hverb, htakes⟩

/-- The pattern `/v\d+\d*/:name`, two repetitions of which are merged. -/
def versionRow : Row where
  tokens := [.char '/' .once, .char 'v' .once, .escape 'd' .plus, .escape 'd' .star,
    .char '/' .once, .parameter "name".toList]
  valid := by
    have hslash : (Token.char '/' .once).Valid := ⟨⟨by decide, by decide⟩, by decide⟩
    have hv : (Token.char 'v' .once).Valid := ⟨⟨by decide, by decide⟩, by decide⟩
    have hname : (Token.parameter "name".toList).Valid :=
      ⟨⟨'n', rfl, by decide⟩, List.all_eq_true.mp (by decide)⟩
    intro token htoken
    simp only [List.mem_cons, List.not_mem_nil, or_false] at htoken
    rcases htoken with rfl | rfl | rfl | rfl | rfl | rfl
    · exact hslash
    · exact hv
    · rfl
    · rfl
    · exact hslash
    · exact hname
  apart := by
    simp only [List.isChain_cons_cons]
    exact ⟨⟨trivial, nofun⟩, ⟨trivial, nofun⟩, ⟨trivial, nofun⟩, ⟨trivial, nofun⟩,
      ⟨trivial, nofun⟩, .singleton _⟩

theorem versionRow_text : versionRow.text = "/v\\d+\\d*/:name".toList := rfl

theorem Tree.takes_version :
    ∃ e ∈ (Tree.getAt versionRow.text helloHandler).entries, Verb.get = e.verb ∧
      ∃ chain : List Row, e.chain = chain.map Row.text ∧ Takes chain "/v12/x".toList := by
  have hmatch : ((Tree.getAt versionRow.text helloHandler).routable (pcreEnv .debug)).isMatch
      .get "/v12/x".toList = true := by
    rw [versionRow_text]
    decide +kernel
  refine (@takes_iff (pcreEnv .debug) rfl _ ?_ .get _).mp hmatch
  intro e he
  obtain rfl := List.mem_singleton.mp he
  exact ⟨[versionRow], rfl⟩

/-! ## The language of a pattern -/

theorem Times.mem_language (p : Char → Bool) {L : Language Char} (times : Times) {w : List Char} :
    w ∈ times.language p L ↔ ∃ u, (times.piece p).Splits w u ∧ u ∈ L := by
  cases times with
  | once => rw [language, ← words_one, mem_words_mul, piece]
  | star => rw [language, ← words_star, mem_words_mul, piece]
  | plus => rw [language, ← words_plus, mem_words_mul, piece]
  | optional => rw [language, ← words_optional, mem_words_mul, piece]
  | everyStar => exact mem_allThen
  | everyPlus => exact mem_chars_mul_allThen

theorem mem_language_iff {tokens : List Token} {w : List Char} :
    w ∈ language tokens ↔ Reads (tokens.map Token.piece) w [] := by
  induction tokens generalizing w with
  | nil => exact Iff.rfl
  | cons token tokens ih =>
    have hrest : (∃ u, token.piece.Splits w u ∧ u ∈ language tokens) ↔
        Reads ((token :: tokens).map Token.piece) w [] :=
      exists_congr fun u => and_congr_right fun _ => ih
    rw [← hrest]
    cases token with
    | char c times => exact times.mem_language _
    | escape c times => exact times.mem_language _
    | any times => exact times.mem_language _
    | parameter name => exact Times.plus.mem_language nonSpace
    | last => exact mem_endThen

/-- An end point behind a pattern takes the words of its language. -/
theorem getAt_language_iff {env : Env} (henv : env.ctre = Ctre.pcre) (P : Row) (h : Handler)
    (path : List Char) :
    ((Tree.getAt P.text h).routable env).isMatch .get path = true ↔ path ∈ language P.tokens := by
  have hentries : (Tree.getAt P.text h).entries = [⟨[P.text], .get, h⟩] := rfl
  have hchain : (⟨[P.text], .get, h⟩ : Entry).chain = [P].map Row.text := rfl
  rw [Tree.isMatch_eq, ← Tree.any_accepts, hentries, List.any_cons, List.any_nil, Bool.or_false,
    accepts_rows henv hchain, mem_language_iff, ← Longest.nil_iff]
  constructor
  · intro hmatch
    obtain ⟨-, rest, hlongest, hend⟩ := hmatch
    have hnil : rest = [] := hend
    exact hnil ▸ hlongest
  · intro hlongest
    exact ⟨rfl, [], hlongest, rfl⟩

theorem getAt_language_version :
    ((Tree.getAt versionRow.text helloHandler).routable (pcreEnv .debug)).isMatch .get
        "/v12/x".toList = true ↔
      "/v12/x".toList ∈ language versionRow.tokens :=
  getAt_language_iff rfl versionRow helloHandler _

end V60
