import V60.RegexMethods

/-!
# The pattern language

A part of the vendored PCRE grammar: literals, `.`, `^`, `$`, escapes,
alternatives, capturing, named and plain groups, and the repetitions `*`, `+`,
`?` with their lazy and possessive forms. The reader is the grammar's pushdown
automaton, one mode for each nonterminal it can be in; its actions build an
`Ast`, and `Ast.parts` is what the matcher makes of it. Sets, counted
repetitions, back references, lookaround, some more escapes and bytes from 128
on are in the grammar too, and a route pattern may have them: `step` refuses
them with the malformed patterns, so that nothing here is about such a route.
-/

namespace Pcre

open Regex

abbrev Name := List Char

abbrev Re := Expr Char Name

def isWord (c : Char) : Bool := c.isAlphanum || c == '_'

def isNameStart (c : Char) : Bool := c.isAlpha || c == '_'

def isSpace (c : Char) : Bool :=
  c == ' ' || c == '\t' || c == '\n' || c == '\x0b' || c == '\x0c' || c == '\r'

def isDigit (c : Char) : Bool := c.isDigit

def nonSpace (c : Char) : Bool := !isSpace c

def literal (c : Char) : Re := .char (· == c)

/-! ## Syntax trees -/

/-- What is matched against one character. -/
inductive Atom where
  | character (c : Char)
  | any
  | digit
  | nonDigit
  | space
  | nonSpace
  | word
  | nonWord
  | nonNewline
  deriving DecidableEq

def Atom.matches : Atom → Char → Bool
  | .character c => (· == c)
  | .any => fun _ => true
  | .digit => isDigit
  | .nonDigit => fun c => !isDigit c
  | .space => isSpace
  | .nonSpace => Pcre.nonSpace
  | .word => isWord
  | .nonWord => fun c => !isWord c
  | .nonNewline => (· != '\n')

/-- `sequence` and `select` hold their first item and what follows it. -/
inductive Ast where
  | empty
  | reject
  | atom (a : Atom)
  | string (cs : List Char)
  | sequence (a b : Ast)
  | select (a b : Ast)
  | repeat (lo hi : ℕ) (content : Ast)
  | lazyRepeat (lo hi : ℕ) (content : Ast)
  | possessiveRepeat (lo hi : ℕ) (content : Ast)
  | capture (id : ℕ) (name : Option Name) (content : Ast)
  | assertBegin
  | assertEnd
  deriving DecidableEq

def character (c : Char) : Ast := .atom (.character c)

namespace Ast

/-- The expressions that are matched one after the other. -/
def parts : Ast → List Re
  | .empty => []
  | .reject => [.char fun _ => false]
  | .atom a => [.char a.matches]
  | .string cs => cs.map literal
  | .sequence a b => a.parts ++ b.parts
  | .select a b => [.alt (seqAll a.parts) (seqAll b.parts)]
  | .repeat lo hi r => [.greedy lo hi (seqAll r.parts)]
  | .lazyRepeat lo hi r => [.lazy lo hi (seqAll r.parts)]
  | .possessiveRepeat lo hi r => [.possessive lo hi (seqAll r.parts)]
  | .capture id name r => [.capture id name (seqAll r.parts)]
  | .assertBegin => [.atBegin]
  | .assertEnd => [.atEnd]

def expr (a : Ast) : Re := seqAll a.parts

def isSequence : Ast → Bool
  | .sequence _ _ => true
  | _ => false

end Ast

def combineMax (a b : ℕ) : ℕ := if a ≠ 0 ∧ b ≠ 0 then a + b else 0

/-- Two repetitions of the same content in one. -/
def combineRepeat : Ast → Ast → Option Ast
  | .repeat minA maxA r, .repeat minB maxB s =>
    if r = s then some (.repeat (minA + minB) (combineMax maxA maxB) r) else none
  | .lazyRepeat minA maxA r, .lazyRepeat minB maxB s =>
    if r = s then some (.lazyRepeat (minA + minB) (combineMax maxA maxB) r) else none
  | .possessiveRepeat minA maxA r, .possessiveRepeat minB maxB s =>
    if r = s then
      if maxA = 0 ∧ 0 < minB then some (.sequence .reject r)
      else if maxA = 0 then some (.possessiveRepeat minA maxA r)
      else if minB = 0 then some (.possessiveRepeat minA (combineMax maxA maxB) r)
      else some (.possessiveRepeat (maxA + minB) (combineMax maxA maxB) r)
    else none
  | _, _ => none

def combineString : Ast → Ast → Option Ast
  | .atom (.character a), .atom (.character b) => some (.string [a, b])
  | .atom (.character a), .string bs => some (.string (a :: bs))
  | _, _ => none

def makeSequence (a : Ast) : Ast → Ast
  -- into a sequence, the repetition that comes first is handed over as the second
  | .sequence b bs =>
    match (combineRepeat b a).or (combineString a b) with
    | some r => .sequence r bs
    | none => .sequence a (.sequence b bs)
  | b => ((combineRepeat a b).or (combineString a b)).getD (.sequence a b)

def sequenceAll : List Ast → Ast
  | [] => .empty
  | [a] => a
  | a :: as => makeSequence a (sequenceAll as)

def selectAll : List Ast → Ast
  | [] => .empty
  | [a] => a
  | a :: as => .select a (selectAll as)

def escaped : Char → Option Ast
  | 'd' => some (.atom .digit)
  | 'D' => some (.atom .nonDigit)
  | 's' => some (.atom .space)
  | 'S' => some (.atom .nonSpace)
  | 'w' => some (.atom .word)
  | 'W' => some (.atom .nonWord)
  | 'N' => some (.atom .nonNewline)
  | 'A' => some .assertBegin
  | 'z' => some .assertEnd
  | 'a' => some (character '\x07')
  | 'e' => some (character '\x14')
  | 'f' => some (character '\x0c')
  | 'n' => some (character '\n')
  | '0' => some (character '\x00')
  | 'r' => some (character '\r')
  | 't' => some (character '\t')
  | c => if "$()*+-.?[\\]^\x7b|\x7d".toList.contains c then some (character c) else none

/-! ## The reader -/

inductive Frame where
  | outer
  | plain
  | capture (id : ℕ) (name : Option Name)

/-- One open group: the branches already closed by `|` and the items of the current one, both
latest first. -/
structure Level where
  frame : Frame
  alts : List Ast
  items : List Ast

inductive Mode where
  | start
  | branch
  | content
  | atom
  | mod
  | modOpt
  | tail
  | escape
  | block
  | blockOpt
  | blockName (read : Name)

structure Parser where
  mode : Mode
  top : Level
  outside : List Level
  count : ℕ

def init : Parser := ⟨.start, ⟨.outer, [], []⟩, [], 0⟩

def Level.branch (l : Level) : Ast := sequenceAll l.items.reverse

def Level.ast (l : Level) : Ast := selectAll (l.branch :: l.alts).reverse

def Level.close (l : Level) : Ast :=
  match l.frame with
  | .outer | .plain => l.ast
  | .capture id name => .capture id name l.ast

def Parser.push (p : Parser) (a : Ast) : Parser :=
  { p with mode := .atom, top := { p.top with items := a :: p.top.items } }

def Parser.openGroup (p : Parser) : Parser :=
  { mode := .block, top := ⟨.capture (p.count + 1) none, [], []⟩, outside := p.top :: p.outside,
    count := p.count + 1 }

def Parser.closeGroup (p : Parser) : Option Parser :=
  match p.outside with
  | [] => none
  | parent :: rest => some (Parser.push { p with top := parent, outside := rest } p.top.close)

def Parser.nextBranch (p : Parser) (mode : Mode) : Parser :=
  { p with mode := mode, top := { p.top with alts := p.top.branch :: p.top.alts, items := [] } }

def Parser.frame (p : Parser) (mode : Mode) (frame : Frame) : Parser :=
  { p with mode := mode, top := { p.top with frame := frame } }

def Parser.repeatLast (p : Parser) (mode : Mode) (f : Ast → Ast) : Option Parser :=
  match p.top.items with
  | [] => none
  | a :: as => some { p with mode := mode, top := { p.top with items := f a :: as } }

/-- An optional item is not wrapped again, unless it is a sequence. -/
def makeOptional : Ast → Ast
  | .repeat 0 1 r => if r.isSequence then .repeat 0 1 (.repeat 0 1 r) else .repeat 0 1 r
  | .lazyRepeat 0 1 r => if r.isSequence then .repeat 0 1 (.lazyRepeat 0 1 r) else .lazyRepeat 0 1 r
  | r => .repeat 0 1 r

def makeLazy : Ast → Ast
  | .repeat lo hi r => .lazyRepeat lo hi r
  | r => r

def makePossessive : Ast → Ast
  | .repeat lo hi r => .possessiveRepeat lo hi r
  | r => r

def Parser.item (p : Parser) : Char → Option Parser
  | '\\' => some { p with mode := .escape }
  | '(' => some p.openGroup
  | '^' => some (p.push .assertBegin)
  | '$' => some (p.push .assertEnd)
  | '.' => some (p.push (.atom .any))
  | c =>
    if ")*+?[\x7b|\x7d".toList.contains c || 128 ≤ c.toNat then none
    else some (p.push (character c))

def Parser.tail (p : Parser) : Char → Option Parser
  | ')' => p.closeGroup
  | '|' => some (p.nextBranch .branch)
  | c => p.item c

def Parser.start (p : Parser) : Char → Option Parser
  | ')' => p.closeGroup
  | '|' => some (p.nextBranch .content)
  | c => p.item c

def step (p : Parser) (c : Char) : Option Parser :=
  match p.mode with
  | .start => p.start c
  | .branch => if c = ')' then p.closeGroup else p.item c
  | .content => p.item c
  | .atom =>
    if c = '*' then p.repeatLast .mod (.repeat 0 0)
    else if c = '+' then p.repeatLast .mod (.repeat 1 0)
    else if c = '?' then p.repeatLast .modOpt makeOptional
    else p.tail c
  | .mod =>
    if c = '?' then p.repeatLast .tail makeLazy
    else if c = '+' then p.repeatLast .tail makePossessive
    else p.tail c
  | .modOpt => if c = '?' then p.repeatLast .tail makeLazy else p.tail c
  | .tail => p.tail c
  | .escape => (escaped c).map p.push
  | .block => if c = '?' then some { p with mode := .blockOpt } else p.start c
  | .blockOpt =>
    if c = '<' then some { p with mode := .blockName [] }
    else if c = ':' then some { p.frame .start .plain with count := p.count - 1 }
    else none
  | .blockName [] => if isNameStart c then some { p with mode := .blockName [c] } else none
  | .blockName read =>
    if isWord c then some { p with mode := .blockName (c :: read) }
    else if c = '>' then some (p.frame .start (.capture p.count (some read.reverse)))
    else none

def finish (p : Parser) : Option Ast :=
  match p.outside, p.mode with
  | [], .start | [], .branch | [], .atom | [], .mod | [], .modOpt | [], .tail => some p.top.ast
  | _, _ => none

def ast (text : List Char) : Option Ast := (text.foldlM step init).bind finish

def parse (text : List Char) : Option Re := (ast text).map Ast.expr

/-- Merged in front of more, `a*+a++` is `a++`, and `a++a*+` takes nothing at all. -/
example : ast "a*+a++b".toList =
    some (.sequence (.possessiveRepeat 1 0 (character 'a')) (character 'b')) := rfl

example : ast "a++a*+b".toList =
    some (.sequence (.sequence .reject (character 'a')) (character 'b')) := rfl

/-! ## Items that are not repeated -/

namespace Ast

def repeats : Ast → Bool
  | .repeat .. | .lazyRepeat .. | .possessiveRepeat .. => true
  | _ => false

variable {a b c : Ast}

theorem combineRepeat_of_not_repeats (ha : a.repeats = false) : combineRepeat a b = none := by
  cases a with
  | «repeat» => cases ha
  | lazyRepeat => cases ha
  | possessiveRepeat => cases ha
  | _ => rfl

theorem combineRepeat_of_not_repeats_right (hb : b.repeats = false) :
    combineRepeat a b = none := by
  cases a <;> cases b <;> first | rfl | cases hb

theorem parts_combineString (h : combineString a b = some c) : c.parts = a.parts ++ b.parts := by
  unfold combineString at h
  split at h
  · obtain rfl := Option.some.inj h
    rfl
  · obtain rfl := Option.some.inj h
    rfl
  · cases h

/-- The parts stay as they are where no repetition is merged into the next. -/
theorem parts_makeSequence (ha : a.repeats = false) :
    (makeSequence a b).parts = a.parts ++ b.parts := by
  unfold makeSequence
  split
  · rename_i b bs
    rw [combineRepeat_of_not_repeats_right ha, Option.none_or]
    cases hstring : combineString a b with
    | none => rfl
    | some r => simp [parts, parts_combineString hstring]
  · rw [combineRepeat_of_not_repeats ha, Option.none_or]
    cases hstring : combineString a b with
    | none => rfl
    | some r => exact parts_combineString hstring

theorem parts_sequenceAll {as : List Ast} (h : ∀ a ∈ as, a.repeats = false) :
    (sequenceAll as).parts = as.flatMap parts := by
  induction as with
  | nil => rfl
  | cons a as ih =>
    obtain ⟨ha, has⟩ := List.forall_mem_cons.mp h
    cases as with
    | nil => simp [sequenceAll]
    | cons b bs =>
      have hfirst : sequenceAll (a :: b :: bs) = makeSequence a (sequenceAll (b :: bs)) := rfl
      rw [hfirst, parts_makeSequence ha, ih has, ← List.flatMap_cons]

end Ast

theorem parts_characters (cs : List Char) :
    (cs.map character).flatMap Ast.parts = cs.map literal := by
  rw [List.flatMap_map]
  exact List.flatMap_pure_eq_map literal cs

theorem character_not_repeats (cs : List Char) : ∀ a ∈ cs.map character, a.repeats = false := by
  intro a ha
  obtain ⟨c, -, rfl⟩ := List.mem_map.mp ha
  rfl

/-! ## Reading literals and parameter groups -/

/-- The characters that mean something other than themselves. -/
def special : List Char := "\\(^$.)*+?[\x7b|\x7d".toList

def Ordinary (c : Char) : Prop := c.toNat < 128 ∧ c ∉ special

def Plain (c : Char) : Prop := isWord c = true ∨ c = '/'

def Parser.Ready (p : Parser) : Prop := p.mode = .start ∨ p.mode = .atom

/-- The parser after it has read these items, `groups` of them capturing. -/
def Parser.append (p : Parser) (items : List Ast) (groups : ℕ) : Parser :=
  { p with
    mode := if items = [] then p.mode else .atom
    top := { p.top with items := items.reverse ++ p.top.items }
    count := p.count + groups }

theorem Parser.append_nil (p : Parser) : p.append [] 0 = p := rfl

theorem Parser.append_append (p : Parser) (xs ys : List Ast) (m n : ℕ) :
    (p.append xs m).append ys n = p.append (xs ++ ys) (m + n) := by
  cases ys with
  | nil => simp [Parser.append, Nat.add_assoc]
  | cons y ys => simp [Parser.append, Nat.add_assoc]

theorem Parser.Ready.append {p : Parser} (hp : p.Ready) (items : List Ast) (groups : ℕ) :
    (p.append items groups).Ready := by
  cases items with
  | nil => exact hp
  | cons r rs => exact Or.inr rfl

theorem isWord_lt {c : Char} (h : isWord c = true) : c.toNat < 128 := by
  have hcases : ((c.isUpper || c.isLower) || c.isDigit || c == '_') = true := h
  simp only [Bool.or_eq_true, beq_iff_eq] at hcases
  have hle : ∀ d : UInt32, d.toNat < 128 → c.val ≤ d → c.toNat < 128 := by
    intro d hd hcd
    exact lt_of_le_of_lt (UInt32.le_iff_toNat_le.mp hcd) hd
  rcases hcases with ((h | h) | h) | rfl
  · have hup : decide (c.val ≥ 'A'.val ∧ c.val ≤ 'Z'.val) = true := h
    exact hle 'Z'.val (by decide) (of_decide_eq_true hup).2
  · have hlow : (decide (c.val ≥ 'a'.val) && decide (c.val ≤ 'z'.val)) = true := h
    rw [Bool.and_eq_true, decide_eq_true_eq, decide_eq_true_eq] at hlow
    exact hle 'z'.val (by decide) hlow.2
  · have hdigit : (decide (c.val ≥ '0'.val) && decide (c.val ≤ '9'.val)) = true := h
    rw [Bool.and_eq_true, decide_eq_true_eq, decide_eq_true_eq] at hdigit
    exact hle '9'.val (by decide) hdigit.2
  · decide

theorem Plain.ne {c d : Char} (hc : Plain c) (hd : isWord d = false) (hd' : d ≠ '/') : c ≠ d := by
  intro heq
  subst heq
  rcases hc with hc | hc
  · rw [hd] at hc
    exact Bool.false_ne_true hc
  · exact hd' hc

theorem Plain.ordinary {c : Char} (hc : Plain c) : Ordinary c := by
  refine ⟨hc.elim isWord_lt fun h => by subst h; decide, fun hmem => ?_⟩
  have hall : (special.all fun d => !isWord d && d != '/') = true := by decide
  have hc' := List.all_eq_true.mp hall c hmem
  simp only [Bool.and_eq_true, Bool.not_eq_true', bne_iff_ne] at hc'
  exact hc.ne hc'.1 hc'.2 rfl

theorem Ordinary.ne {c d : Char} (hc : Ordinary c) (hd : d ∈ special) : c ≠ d := by
  intro heq
  subst heq
  exact hc.2 hd

theorem Ordinary.item {c : Char} (hc : Ordinary c) (p : Parser) :
    p.item c = some (p.push (character c)) := by
  unfold Parser.item
  split
  · exact absurd rfl (hc.ne (d := '\\') (by decide))
  · exact absurd rfl (hc.ne (d := '(') (by decide))
  · exact absurd rfl (hc.ne (d := '^') (by decide))
  · exact absurd rfl (hc.ne (d := '$') (by decide))
  · exact absurd rfl (hc.ne (d := '.') (by decide))
  · rw [if_neg]
    simp only [Bool.or_eq_true, List.contains_eq_mem, decide_eq_true_eq, not_or, not_le]
    refine ⟨fun hmem => ?_, hc.1⟩
    have hall : (")*+?[\x7b|\x7d".toList.all fun d => special.contains d) = true := by decide
    have hspecial := List.all_eq_true.mp hall c hmem
    exact hc.2 (List.contains_iff_mem.mp hspecial)

theorem step_ordinary {p : Parser} (hp : p.Ready) {c : Char} (hc : Ordinary c) :
    step p c = some (p.append [character c] 0) := by
  have hclose : c ≠ ')' := hc.ne (by decide)
  have hbar : c ≠ '|' := hc.ne (by decide)
  have hstar : c ≠ '*' := hc.ne (by decide)
  have hplus : c ≠ '+' := hc.ne (by decide)
  have hopt : c ≠ '?' := hc.ne (by decide)
  rcases hp with hp | hp
  · simp only [step, hp, Parser.start, hc.item]
    rfl
  · simp only [step, hp, hstar, hplus, hopt, if_false, Parser.tail, hc.item]
    rfl

theorem foldlM_ordinary {p : Parser} (hp : p.Ready) {cs : List Char}
    (hcs : ∀ c ∈ cs, Ordinary c) :
    cs.foldlM step p = some (p.append (cs.map character) 0) := by
  induction cs generalizing p with
  | nil => rfl
  | cons c cs ih =>
    have htail := ih (hp.append [character c] 0) fun d hd => hcs d (List.mem_cons_of_mem c hd)
    rw [List.foldlM_cons, step_ordinary hp (hcs c List.mem_cons_self)]
    simp only [Option.bind_eq_bind, Option.bind_some]
    rw [htail, Parser.append_append]
    rfl

theorem parse_append {text : List Char} {items : List Ast} {groups : ℕ}
    (h : text.foldlM step init = some (init.append items groups))
    (hitems : ∀ a ∈ items, a.repeats = false) :
    parse text = some (seqAll (items.flatMap Ast.parts)) := by
  have hast : (init.append items groups).top.ast = sequenceAll items := by
    simp [init, Parser.append, Level.ast, Level.branch, selectAll]
  have hfinish : finish (init.append items groups) = some (sequenceAll items) := by
    rw [← hast]
    by_cases hnil : items = []
    · simp [finish, init, Parser.append, hnil]
    · simp [finish, init, Parser.append, hnil]
  rw [parse, ast, h, Option.bind_some, hfinish, Option.map_some, Ast.expr,
    Ast.parts_sequenceAll hitems]

theorem foldlM_blockName (p : Parser) (c : Char) (read name : Name)
    (h : ∀ d ∈ name, isWord d = true) :
    name.foldlM step { p with mode := .blockName (c :: read) } =
      some { p with mode := .blockName (name.reverse ++ c :: read) } := by
  induction name generalizing c read with
  | nil => rfl
  | cons d name ih =>
    have hd : isWord d = true := h d List.mem_cons_self
    have hstep : step { p with mode := .blockName (c :: read) } d =
        some { p with mode := .blockName (d :: c :: read) } := by
      simp [step, hd]
    rw [List.foldlM_cons, hstep]
    simp only [Option.bind_eq_bind, Option.bind_some]
    rw [ih d (c :: read) fun e he => h e (List.mem_cons_of_mem d he)]
    simp

structure ValidName (name : Name) : Prop where
  head : ∃ c ∈ name.head?, isNameStart c = true
  word : ∀ c ∈ name, isWord c = true

def namedGroup (id : ℕ) (name : Name) : Ast :=
  .capture id (some name) (.repeat 1 0 (.atom .nonSpace))

theorem step_openGroup {p : Parser} (hp : p.Ready) : step p '(' = some p.openGroup := by
  rcases hp with hp | hp <;> simp [step, hp, Parser.start, Parser.tail, Parser.item]

theorem foldlM_namedGroup {p : Parser} (hp : p.Ready) {name : Name} (hname : ValidName name) :
    ("(?<".toList ++ name ++ ">\\S+)".toList).foldlM step p =
      some (p.append [namedGroup (p.count + 1) name] 1) := by
  obtain ⟨c, hhead, hc⟩ := hname.head
  obtain ⟨rest, rfl⟩ : ∃ rest, name = c :: rest := List.head?_eq_some_iff.mp hhead
  have hopen : "(?<".toList.foldlM step p =
      some { p.openGroup with mode := .blockName [] } := by
    simp only [String.reduceToList, List.foldlM_cons, step_openGroup hp, List.foldlM_nil]
    rfl
  have hfirst : step { p.openGroup with mode := .blockName [] } c =
      some { p.openGroup with mode := .blockName [c] } := by
    simp [step, hc]
  have hrest := foldlM_blockName p.openGroup c [] rest
    fun d hd => hname.word d (List.mem_cons_of_mem c hd)
  have hread : (c :: rest).foldlM step { p.openGroup with mode := .blockName [] } =
      some { p.openGroup with mode := .blockName (rest.reverse ++ [c]) } := by
    rw [List.foldlM_cons, hfirst]
    exact hrest
  have hend : step { p.openGroup with mode := .blockName (rest.reverse ++ [c]) } '>' =
      some (p.openGroup.frame .start (.capture (p.count + 1) (some (c :: rest)))) := by
    obtain ⟨d, read, hd⟩ := List.exists_cons_of_ne_nil (List.append_ne_nil_of_right_ne_nil
      rest.reverse (List.cons_ne_nil c []))
    have hread : (d :: read).reverse = c :: rest := by simp [← hd]
    rw [hd, ← hread]
    rfl
  have hbody : "\\S+)".toList.foldlM step
      (p.openGroup.frame .start (.capture (p.count + 1) (some (c :: rest)))) =
      some (p.append [namedGroup (p.count + 1) (c :: rest)] 1) := rfl
  have htext : ">\\S+)".toList = '>' :: "\\S+)".toList := rfl
  rw [List.foldlM_append, List.foldlM_append, hopen]
  simp only [Option.bind_eq_bind, Option.bind_some]
  rw [hread]
  simp only [Option.bind_some]
  rw [htext, List.foldlM_cons, hend]
  exact hbody

end Pcre
