import V60.Parameters
import V60.RegexMap

/-!
# Literal text of a pattern

A pattern without parameters is handed to the expression reader as it is.
Characters that the reader takes for operators are in no class of the
expression it makes, so that the expression cannot tell them from one another
or from a question mark; a pattern matches itself alone exactly if it has none
of them.
-/

namespace V60

open Regex Pcre

/-- The characters of a path: unreserved ones, delimiters, escapes and the slash. -/
def isPathChar (c : Char) : Bool :=
  c.isAlphanum || "-._~!$&\x27()*+,;=:@%/".toList.contains c

/-- Every special character is a question mark. -/
def mask (c : Char) : Char := if c ∈ special then '?' else c

theorem respects_literal {c : Char} (h : c ∉ special) : Respects mask (literal c) := by
  intro d
  rw [mask]
  split_ifs with hd
  · have hmark : '?' ≠ c := fun heq => h (heq ▸ by decide)
    have hne : d ≠ c := fun heq => h (heq ▸ hd)
    exact (beq_eq_false_iff_ne.mpr hmark).trans (beq_eq_false_iff_ne.mpr hne).symm
  · rfl

/-! ## What the reader makes of a text without escapes -/

/-- No class of the tree tells one special character from another. -/
def Blind (a : Ast) : Prop := Respects mask a.expr

section Blind

variable {a b c : Ast}

theorem blind_iff : Blind a ↔ ∀ r ∈ a.parts, Respects mask r := respects_seqAll

theorem blind_character {c : Char} (h : c ∉ special) : Blind (character c) := respects_literal h

theorem blind_sequence : Blind (.sequence a b) ↔ Blind a ∧ Blind b := by
  rw [blind_iff, blind_iff, blind_iff]
  exact List.forall_mem_append

theorem Blind.combineRepeat (h : Blind a) (hc : combineRepeat a b = some c) : Blind c := by
  unfold Pcre.combineRepeat at hc
  split at hc
  · split_ifs at hc
    exact Option.some.inj hc ▸ h
  · split_ifs at hc
    exact Option.some.inj hc ▸ h
  · split_ifs at hc
    · exact Option.some.inj hc ▸ blind_sequence.mpr ⟨fun _ => rfl, h⟩
    · exact Option.some.inj hc ▸ h
    · exact Option.some.inj hc ▸ h
    · exact Option.some.inj hc ▸ h
  · cases hc

theorem Blind.combineString (ha : Blind a) (hb : Blind b) (hc : combineString a b = some c) :
    Blind c := by
  rw [blind_iff, Ast.parts_combineString hc]
  exact List.forall_mem_append.mpr ⟨blind_iff.mp ha, blind_iff.mp hb⟩

theorem Blind.combine (ha : Blind a) (hb : Blind b)
    (hc : (Pcre.combineRepeat b a).or (Pcre.combineString a b) = some c) : Blind c := by
  rcases Option.or_eq_some_iff.mp hc with hrepeat | ⟨-, hstring⟩
  · exact hb.combineRepeat hrepeat
  · exact ha.combineString hb hstring

theorem Blind.makeSequence (ha : Blind a) (hb : Blind b) : Blind (makeSequence a b) := by
  unfold Pcre.makeSequence
  split
  · rename_i b bs
    obtain ⟨hb, hbs⟩ := blind_sequence.mp hb
    cases hc : (Pcre.combineRepeat b a).or (Pcre.combineString a b) with
    | none => exact blind_sequence.mpr ⟨ha, blind_sequence.mpr ⟨hb, hbs⟩⟩
    | some c => exact blind_sequence.mpr ⟨ha.combine hb hc, hbs⟩
  · cases hc : (Pcre.combineRepeat a b).or (Pcre.combineString a b) with
    | none => exact blind_sequence.mpr ⟨ha, hb⟩
    | some c =>
      rcases Option.or_eq_some_iff.mp hc with hrepeat | ⟨-, hstring⟩
      · exact ha.combineRepeat hrepeat
      · exact ha.combineString hb hstring

theorem blind_sequenceAll {as : List Ast} (h : ∀ a ∈ as, Blind a) : Blind (sequenceAll as) := by
  induction as with
  | nil => trivial
  | cons a as ih =>
    obtain ⟨ha, has⟩ := List.forall_mem_cons.mp h
    cases as with
    | nil => exact ha
    | cons b bs => exact ha.makeSequence (ih has)

theorem blind_selectAll {as : List Ast} (h : ∀ a ∈ as, Blind a) : Blind (selectAll as) := by
  induction as with
  | nil => trivial
  | cons a as ih =>
    obtain ⟨ha, has⟩ := List.forall_mem_cons.mp h
    cases as with
    | nil => exact ha
    | cons b bs => exact ⟨ha, ih has⟩

theorem Blind.makeOptional (h : Blind a) : Blind (makeOptional a) := by
  unfold Pcre.makeOptional
  split
  · split_ifs <;> exact h
  · split_ifs <;> exact h
  · exact h

theorem Blind.makeLazy (h : Blind a) : Blind (makeLazy a) := by
  cases a <;> exact h

theorem Blind.makePossessive (h : Blind a) : Blind (makePossessive a) := by
  cases a <;> exact h

end Blind

def Level.Masked (l : Level) : Prop := ∀ a ∈ l.items ++ l.alts, Blind a

structure Masked (p : Parser) : Prop where
  levels : ∀ l ∈ p.top :: p.outside, Level.Masked l
  mode : p.mode ≠ .escape

theorem Level.Masked.branch {l : Level} (h : Level.Masked l) : Blind l.branch :=
  blind_sequenceAll fun a ha => h a (List.mem_append_left _ (List.mem_reverse.mp ha))

theorem Level.Masked.ast {l : Level} (h : Level.Masked l) : Blind l.ast := by
  apply blind_selectAll
  intro a ha
  rcases List.mem_cons.mp (List.mem_reverse.mp ha) with rfl | ha
  · exact h.branch
  · exact h a (List.mem_append_right _ ha)

theorem Level.Masked.close {l : Level} (h : Level.Masked l) : Blind l.close := by
  unfold Level.close
  split
  · exact h.ast
  · exact h.ast
  · exact h.ast

namespace Masked

variable {p p' : Parser} {c : Char}

theorem push (h : Masked p) {a : Ast} (ha : Blind a) : Masked (p.push a) where
  levels l hl := by
    rcases List.mem_cons.mp hl with rfl | hl
    · exact List.forall_mem_cons.mpr ⟨ha, h.levels p.top List.mem_cons_self⟩
    · exact h.levels l (List.mem_cons_of_mem _ hl)
  mode := nofun

theorem openGroup (h : Masked p) : Masked p.openGroup where
  levels l hl := by
    rcases List.mem_cons.mp hl with rfl | hl
    · exact fun a ha => absurd ha List.not_mem_nil
    · exact h.levels l hl
  mode := nofun

theorem closeGroup (h : Masked p) (hclose : p.closeGroup = some p') : Masked p' := by
  unfold Parser.closeGroup at hclose
  split at hclose
  · cases hclose
  · rename_i parent rest houtside
    obtain rfl := Option.some.inj hclose
    have hinner : Masked { p with top := parent, outside := rest } :=
      ⟨fun l hl => h.levels l (List.mem_cons_of_mem _ (houtside ▸ hl)), h.mode⟩
    exact hinner.push (h.levels p.top List.mem_cons_self).close

theorem nextBranch (h : Masked p) {mode : Mode} (hmode : mode ≠ .escape) :
    Masked (p.nextBranch mode) where
  levels l hl := by
    have htop := h.levels p.top List.mem_cons_self
    rcases List.mem_cons.mp hl with rfl | hl
    · refine List.forall_mem_cons.mpr ⟨htop.branch, fun a ha => ?_⟩
      exact htop a (List.mem_append_right _ ha)
    · exact h.levels l (List.mem_cons_of_mem _ hl)
  mode := hmode

theorem withMode (h : Masked p) {mode : Mode} (hmode : mode ≠ .escape) :
    Masked { p with mode := mode } := ⟨h.levels, hmode⟩

theorem frame (h : Masked p) {mode : Mode} (frame : Frame) (hmode : mode ≠ .escape) :
    Masked (p.frame mode frame) where
  levels l hl := by
    rcases List.mem_cons.mp hl with rfl | hl
    · exact h.levels p.top List.mem_cons_self
    · exact h.levels l (List.mem_cons_of_mem _ hl)
  mode := hmode

theorem repeatLast (h : Masked p) {mode : Mode} {f : Ast → Ast}
    (hrepeat : p.repeatLast mode f = some p') (hmode : mode ≠ .escape)
    (hf : ∀ a, Blind a → Blind (f a)) : Masked p' := by
  unfold Parser.repeatLast at hrepeat
  split at hrepeat
  · cases hrepeat
  · rename_i a as hitems
    obtain rfl := Option.some.inj hrepeat
    refine ⟨fun l hl => ?_, hmode⟩
    have htop := h.levels p.top List.mem_cons_self
    rw [Level.Masked, hitems] at htop
    rcases List.mem_cons.mp hl with rfl | hl
    · exact List.forall_mem_cons.mpr ⟨hf a (htop a List.mem_cons_self),
        fun b hb => htop b (List.mem_cons_of_mem a hb)⟩
    · exact h.levels l (List.mem_cons_of_mem _ hl)

theorem item (h : Masked p) (hc : c ≠ '\\') (hitem : p.item c = some p') : Masked p' := by
  unfold Parser.item at hitem
  split at hitem
  · exact absurd rfl hc
  · exact Option.some.inj hitem ▸ h.openGroup
  · exact Option.some.inj hitem ▸ h.push trivial
  · exact Option.some.inj hitem ▸ h.push trivial
  · exact Option.some.inj hitem ▸ h.push fun _ => rfl
  · rename_i hopen hbegin hend hany
    split_ifs at hitem with hspecial
    rw [Bool.or_eq_true, List.contains_iff_mem, not_or] at hspecial
    refine Option.some.inj hitem ▸ h.push (blind_character fun hmem => hspecial.1 ?_)
    have hall : (special.all fun d => ['\\', '(', '^', '$', '.'].contains d ||
        ")*+?[\x7b|\x7d".toList.contains d) = true := by decide
    have hcases := List.all_eq_true.mp hall c hmem
    rw [Bool.or_eq_true, List.contains_iff_mem, List.contains_iff_mem] at hcases
    apply hcases.resolve_left
    intro hmem
    simp only [List.mem_cons, List.not_mem_nil, or_false] at hmem
    rcases hmem with rfl | rfl | rfl | rfl | rfl
    · exact hc rfl
    · exact hopen rfl
    · exact hbegin rfl
    · exact hend rfl
    · exact hany rfl

theorem tail (h : Masked p) (hc : c ≠ '\\') (htail : p.tail c = some p') : Masked p' := by
  unfold Parser.tail at htail
  split at htail
  · exact h.closeGroup htail
  · exact Option.some.inj htail ▸ h.nextBranch nofun
  · exact h.item hc htail

theorem start (h : Masked p) (hc : c ≠ '\\') (hstart : p.start c = some p') : Masked p' := by
  unfold Parser.start at hstart
  split at hstart
  · exact h.closeGroup hstart
  · exact Option.some.inj hstart ▸ h.nextBranch nofun
  · exact h.item hc hstart

theorem step (h : Masked p) (hc : c ≠ '\\') (hstep : Pcre.step p c = some p') : Masked p' := by
  unfold Pcre.step at hstep
  split at hstep
  · exact h.start hc hstep
  · split_ifs at hstep
    · exact h.closeGroup hstep
    · exact h.item hc hstep
  · exact h.item hc hstep
  · split_ifs at hstep
    · exact h.repeatLast hstep nofun fun _ ha => ha
    · exact h.repeatLast hstep nofun fun _ ha => ha
    · exact h.repeatLast hstep nofun fun _ ha => ha.makeOptional
    · exact h.tail hc hstep
  · split_ifs at hstep
    · exact h.repeatLast hstep nofun fun _ ha => ha.makeLazy
    · exact h.repeatLast hstep nofun fun _ ha => ha.makePossessive
    · exact h.tail hc hstep
  · split_ifs at hstep
    · exact h.repeatLast hstep nofun fun _ ha => ha.makeLazy
    · exact h.tail hc hstep
  · exact h.tail hc hstep
  · rename_i hmode
    exact absurd hmode h.mode
  · split_ifs at hstep
    · exact Option.some.inj hstep ▸ h.withMode nofun
    · exact h.start hc hstep
  · split_ifs at hstep
    · exact Option.some.inj hstep ▸ h.withMode nofun
    · have hframe : Masked (p.frame .start .plain) := h.frame .plain nofun
      exact Option.some.inj hstep ▸ ⟨hframe.levels, nofun⟩
  · split_ifs at hstep
    · exact Option.some.inj hstep ▸ h.withMode nofun
  · split_ifs at hstep
    · exact Option.some.inj hstep ▸ h.withMode nofun
    · exact Option.some.inj hstep ▸ h.frame _ nofun

end Masked

theorem masked_foldlM {p p' : Parser} (h : Masked p) {text : List Char}
    (htext : ∀ c ∈ text, c ≠ '\\') (hread : text.foldlM step p = some p') : Masked p' := by
  induction text generalizing p with
  | nil =>
    obtain rfl := Option.some.inj hread
    exact h
  | cons c text ih =>
    rw [List.foldlM_cons] at hread
    obtain ⟨q, hstep, hrest⟩ := Option.bind_eq_some_iff.mp hread
    exact ih (h.step (htext c List.mem_cons_self) hstep)
      (fun d hd => htext d (List.mem_cons_of_mem c hd)) hrest

/-- No class of an expression without escapes tells one special character from another. -/
theorem respects_parse {text : List Char} {r : Re} (htext : ∀ c ∈ text, c ≠ '\\')
    (hparse : parse text = some r) : Respects mask r := by
  obtain ⟨a, hast, rfl⟩ := Option.map_eq_some_iff.mp hparse
  obtain ⟨p, hread, hfinish⟩ := Option.bind_eq_some_iff.mp hast
  have hinit : Masked Pcre.init :=
    ⟨fun l hl => by
      obtain rfl := List.mem_singleton.mp hl
      exact fun a ha => absurd ha List.not_mem_nil, nofun⟩
  have hp := masked_foldlM hinit htext hread
  have htop : Blind p.top.ast := (hp.levels p.top List.mem_cons_self).ast
  unfold finish at hfinish
  split at hfinish <;> first | exact Option.some.inj hfinish ▸ htop | cases hfinish

/-! ## Matching literal text -/

theorem NoParam.tail {c : Char} {cs : List Char} (h : NoParam (c :: cs)) : NoParam cs :=
  fun before d after heq => h (c :: before) d after (by rw [heq, List.cons_append])

theorem rewriteParams_of_noParam {text : List Char} (h : NoParam text) :
    rewriteParams text = text := by
  induction text with
  | nil => rw [rewriteParams]
  | cons c cs ih =>
    rw [rewriteParams, ih h.tail, if_neg]
    intro hparam
    obtain ⟨rfl, hword⟩ := hparam
    cases cs with
    | nil => exact hword rfl
    | cons d cs =>
      have hd : isWord d = false := h [] d cs rfl
      exact hword (by rw [List.takeWhile_cons, hd]; rfl)

theorem isPathChar_facts {c : Char} (h : isPathChar c = true) :
    c.toNat < 128 ∧ c ≠ '?' ∧ c ≠ '\\' ∧ c ≠ nul ∧
      (c ∈ special → c ∈ ".*+$()".toList) := by
  rw [isPathChar, Bool.or_eq_true, List.contains_iff_mem] at h
  rcases h with halpha | hmem
  · have hword : isWord c = true := by rw [isWord, halpha, Bool.true_or]
    have hplain : Plain c := Or.inl hword
    exact ⟨isWord_lt hword, hplain.ne (by decide) (by decide), hplain.ne (by decide) (by decide),
      hplain.ne (by decide) (by decide), fun hspecial => absurd hspecial hplain.ordinary.2⟩
  · have hall : ("-._~!$&\x27()*+,;=:@%/".toList.all fun d => decide (d.toNat < 128) && d != '?' &&
        d != '\\' && d != nul && (!special.contains d || ".*+$()".toList.contains d)) = true := by
      decide
    have hc := List.all_eq_true.mp hall c hmem
    simp only [Bool.and_eq_true, decide_eq_true_eq, bne_iff_ne, Bool.or_eq_true,
      Bool.not_eq_true'] at hc
    obtain ⟨⟨⟨⟨hlt, hmark⟩, hescape⟩, hnul⟩, hspecial⟩ := hc
    refine ⟨hlt, hmark, hescape, hnul, fun hmem' => ?_⟩
    rw [List.contains_iff_mem.mpr hmem'] at hspecial
    exact List.contains_iff_mem.mp (hspecial.resolve_left nofun)

section LiteralText

variable {P : List Char} (hpath : ∀ c ∈ P, isPathChar c = true) (hparam : NoParam P)
include hpath hparam

theorem re_noParam : re P = P := by
  have hlast : (rewriteParams P).getLast? ≠ some nul := by
    rw [rewriteParams_of_noParam hparam]
    intro hnul
    exact (isPathChar_facts (hpath nul (List.mem_of_getLast? hnul))).2.2.2.1 rfl
  rw [re_eq hlast, rewriteParams_of_noParam hparam]

theorem compile_ordinary (hordinary : ∀ c ∈ P, Ordinary c) :
    compile (re P) = some (seqAll (P.map Pcre.literal)) := by
  have hparse := parse_append (foldlM_ordinary (p := Pcre.init) (Or.inl rfl) hordinary)
    (character_not_repeats P)
  rw [parts_characters] at hparse
  have hcaptures : captures (seqAll (P.map Pcre.literal)) = [] := by
    rw [captures_seqAll, List.flatMap_map]
    exact List.flatMap_eq_nil_iff.mpr fun c _ => rfl
  rw [re_noParam hpath hparam, compile, hparse, Option.filter_some_pos]
  rw [hcaptures]
  rfl

end LiteralText

section Route

variable {env : Env} (henv : env.ctre = Ctre.pcre) {P : List Char} (h : Handler)
include henv

theorem getAt_isMatch_compiled {path : List Char} :
    ((Tree.getAt P h).routable env).isMatch .get path = true ↔
      ∃ r t, compile (re P) = some r ∧ Regex.startsWith r path = some t ∧
        path.length ≤ path.length - t.rest.length := by
  have hengine : env.ctre.startsWith (re P) path =
      (compile (re P)).bind fun r => (Regex.startsWith r path).map (toMatch r path) := by
    rw [henv]
    rfl
  have hroute : (Tree.getAt P h).routable env = binding env P (endPoint .get h) := rfl
  rw [hroute]
  cases hr : compile (re P) with
  | none =>
    rw [hr] at hengine
    rw [binding_isMatch_none hengine]
    simp
  | some r =>
    rw [hr, Option.bind_some] at hengine
    cases ht : Regex.startsWith r path with
    | none =>
      rw [ht] at hengine
      rw [binding_isMatch_none hengine]
      simp [ht]
    | some t =>
      rw [ht, Option.map_some] at hengine
      rw [binding_isMatch_some hengine, endPoint_isMatch, List.drop_eq_nil_iff]
      simp [ht, toMatch]

/-- A route whose pattern has no escapes takes a path exactly if it takes its masked form. -/
theorem getAt_isMatch_mask (hpath : ∀ c ∈ P, isPathChar c = true) (hparam : NoParam P)
    {path : List Char}
    (hmatch : ((Tree.getAt P h).routable env).isMatch .get path = true) :
    ((Tree.getAt P h).routable env).isMatch .get (path.map mask) = true := by
  rw [getAt_isMatch_compiled henv h] at hmatch ⊢
  obtain ⟨r, t, hr, ht, hlen⟩ := hmatch
  have hparse : parse P = some r := by
    rw [← re_noParam hpath hparam]
    exact (Option.filter_eq_some_iff.mp hr).1
  have hrespects : Respects mask r :=
    respects_parse (fun c hc => (isPathChar_facts (hpath c hc)).2.2.1) hparse
  refine ⟨r, t.map mask, hr, ?_, ?_⟩
  · rw [startsWith_map hrespects, ht]
    rfl
  · rw [State.map_rest_length, List.length_map]
    exact hlen

theorem getAt_isMatch_ordinary (hpath : ∀ c ∈ P, isPathChar c = true) (hparam : NoParam P)
    (hordinary : ∀ c ∈ P, Ordinary c) {path : List Char} :
    ((Tree.getAt P h).routable env).isMatch .get path = true ↔ path = P := by
  have hstart : Regex.startsWith (seqAll (P.map Pcre.literal)) path =
      if P <+: path then some ⟨path.drop P.length, []⟩ else none := by
    rw [startsWith_eq, start, Segment.results_word]
    split_ifs <;> rfl
  rw [getAt_isMatch_compiled henv h, compile_ordinary hpath hparam hordinary]
  constructor
  · intro hmatch
    obtain ⟨r, t, hr, ht, hlen⟩ := hmatch
    obtain rfl := Option.some.inj hr
    rw [hstart] at ht
    split_ifs at ht with hprefix
    obtain rfl := Option.some.inj ht
    obtain ⟨rest, rfl⟩ := hprefix
    have hrest : rest.length = 0 := by
      simp only [List.drop_left, List.length_append] at hlen
      omega
    rw [List.length_eq_zero_iff.mp hrest, List.append_nil]
  · intro heq
    subst heq
    refine ⟨_, ⟨path.drop path.length, []⟩, rfl, ?_, ?_⟩
    · rw [hstart, if_pos List.prefix_rfl]
    · rw [List.drop_length, List.length_nil, Nat.sub_zero]

/-- A pattern of path characters without parameters matches itself alone exactly if it has no
operator of the expression language in it. -/
theorem literalText_iff (hpath : ∀ c ∈ P, isPathChar c = true) (hparam : NoParam P) :
    (∀ path, ((Tree.getAt P h).routable env).isMatch .get path = true ↔ path = P) ↔
      ∀ c ∈ P, c ∉ ".*+$()".toList := by
  constructor
  · intro hself c hc hoperator
    have hmasked := (hself _).mp (getAt_isMatch_mask henv h hpath hparam ((hself P).mpr rfl))
    have hmap : P.map mask = P.map id := hmasked.trans (List.map_id P).symm
    have hfixed : mask c = c := List.map_inj_left.mp hmap c hc
    have hspecial : c ∈ special := by
      have hall : (".*+$()".toList.all fun d => special.contains d) = true := by decide
      exact List.contains_iff_mem.mp (List.all_eq_true.mp hall c hoperator)
    rw [mask, if_pos hspecial] at hfixed
    exact (isPathChar_facts (hpath c hc)).2.1 hfixed.symm
  · intro hnone path
    apply getAt_isMatch_ordinary henv h hpath hparam
    intro c hc
    have hfacts := isPathChar_facts (hpath c hc)
    exact ⟨hfacts.1, fun hspecial => hnone c hc (hfacts.2.2.2.2 hspecial)⟩

end Route

theorem literalText_hello :
    let route := (Tree.getAt "/hello".toList helloHandler).routable (pcreEnv .debug)
    route.isMatch .get "/hello".toList = true ∧ route.isMatch .get "/hell0".toList ≠ true := by
  intro route
  have hself := (@literalText_iff (pcreEnv .debug) rfl "/hello".toList helloHandler
    (List.all_eq_true.mp (by decide)) (noParam_of_scanParam (by decide))).mpr (by simp)
  refine ⟨(hself _).mpr rfl, fun hmatch => ?_⟩
  exact absurd ((hself _).mp hmatch) (by decide)

theorem dot_matches_other :
    (∀ c ∈ "/a.b".toList, isPathChar c = true) ∧ NoParam "/a.b".toList ∧
      (compile (re "/a.b".toList)).isSome ∧
      ((Tree.getAt "/a.b".toList helloHandler).routable (pcreEnv .debug)).isMatch .get
        "/axb".toList = true ∧ "/axb".toList ≠ "/a.b".toList :=
  ⟨List.all_eq_true.mp (by decide), noParam_of_scanParam (by decide +kernel), by decide +kernel,
    by decide +kernel, by decide⟩

end V60
