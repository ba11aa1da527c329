import VerilogLoops.Proofs.Building
import VerilogLoops.Proofs.Evaluation

/-!
# Parsing, in terms of derivations

A text has a parse tree exactly if the pattern of the symbol takes it, and what it takes is always
built. So a parse ends in a syntax tree or in the place of a syntax error, and in nothing else.

> `build_never_fails`: what matches is built, and parsing finds a loop statement or the place where
> the text fails to be one.
-/

namespace VerilogLoops

open VerilogLoops.Text VerilogLoops.Grammar VerilogLoops.Ast VerilogLoops.Lexical

/-! ## What is taken of a text -/

/-- A phrase takes a single tree. -/
theorem Grammar.Takes.singleton {symbol : Symbol} {s a : Place} {ts : List ParseTree}
    (h : Takes symbol.pattern s ts a) : ∃ t, ts = [t] := by
  cases symbol with
  | token t =>
    cases h with
    | token _ => exact ⟨_, rfl⟩
  | phrase p =>
    cases h with
    | phrase _ => exact ⟨_, rfl⟩

/-- A symbol that does not match is reported where its furthest failure is, but not inside the
opening of the text. -/
theorem parseTree_refused {symbol : Symbol} {text : List Char}
    (h : Refuses symbol.pattern (.first text)) : ∃ reach, Reaches symbol.pattern (.first text) reach ∧
      parseTree symbol false text =
        .error (.mismatch (Location.ofOffset text (max reach (openingLength text)))) := by
  obtain ⟨o, ho, hd⟩ := comes_run symbol.pattern symbol.pattern_steady text
  cases o with
  | matched ts after reach => exact absurd hd.verdict h.not_takes
  | failed reach =>
    exact ⟨reach, hd.reach, by simp [parseTree, Symbol.parse, ho, Mismatch.reaching]⟩

/-- The parse tree at the start of a text is what the symbol takes there. -/
theorem parseTree_prefix (symbol : Symbol) (text : List Char) :
    (∃ tree after, Takes symbol.pattern (.first text) [tree] after ∧
      parseTree symbol false text = .ok (tree, after)) ∨
    (Refuses symbol.pattern (.first text) ∧
      ∃ location, parseTree symbol false text = .error (.mismatch location)) := by
  obtain ⟨o, ho, hd⟩ := comes_run symbol.pattern symbol.pattern_steady text
  cases o with
  | matched ts after reach =>
    obtain ⟨t, rfl⟩ := Grammar.Takes.singleton hd.verdict
    exact Or.inl ⟨t, after, hd.verdict, by simp [parseTree, Symbol.parse, ho]⟩
  | failed reach =>
    obtain ⟨reach', -, heq⟩ := parseTree_refused hd.verdict
    exact Or.inr ⟨hd.verdict, _, heq⟩

/-- What a symbol takes at the start of a text is its parse tree. -/
theorem parseTree_of_takes {symbol : Symbol} {text : List Char} {tree : ParseTree} {after : Place}
    (h : Takes symbol.pattern (.first text) [tree] after) :
    parseTree symbol false text = .ok (tree, after) := by
  rcases parseTree_prefix symbol text with ⟨t, a, ht, heq⟩ | ⟨hr, -⟩
  · obtain ⟨htree, rfl⟩ := h.unique ht
    cases htree
    exact heq
  · exact absurd h hr.not_takes

/-- The parse tree at the start of a text is taken by the symbol. -/
theorem takes_of_parseTree {symbol : Symbol} {text : List Char} {tree : ParseTree} {after : Place}
    (h : parseTree symbol false text = .ok (tree, after)) :
    Takes symbol.pattern (.first text) [tree] after := by
  rcases parseTree_prefix symbol text with ⟨t, a, ht, heq⟩ | ⟨-, l, heq⟩ <;> rw [h] at heq <;>
    cases heq
  exact ht

/-- The parse tree of a whole text is what the symbol and the end of the text take. -/
theorem parseTree_whole (symbol : Symbol) (text : List Char) :
    (∃ ts after, Takes (.seq symbol.pattern (.token .endOfInput)) (.first text) ts after ∧
      parseTree symbol true text = .ok (.node .whole ts, after)) ∨
    (Refuses (.seq symbol.pattern (.token .endOfInput)) (.first text) ∧
      ∃ location, parseTree symbol true text = .error (.mismatch location)) := by
  obtain ⟨o, ho, hd⟩ := comes_run (.seq symbol.pattern (.token .endOfInput))
    (by simp [Pattern.steady, symbol.pattern_steady]) text
  cases o with
  | matched ts after reach =>
    exact Or.inl ⟨ts, after, hd.verdict, by simp [parseTree, Symbol.parseWhole, ho]⟩
  | failed reach =>
    exact Or.inr ⟨hd.verdict, _,
      by simp [parseTree, Symbol.parseWhole, ho, Mismatch.reaching]; rfl⟩

/-- The parse tree of a whole text has the trees that the symbol and the end of the text take. -/
theorem takes_of_parseTree_whole {symbol : Symbol} {text : List Char} {tree : ParseTree} {after : Place}
    (h : parseTree symbol true text = .ok (tree, after)) :
    ∃ ts, Takes (.seq symbol.pattern (.token .endOfInput)) (.first text) ts after ∧
      tree = .node .whole ts := by
  rcases parseTree_whole symbol text with ⟨ts, a, ht, heq⟩ | ⟨-, l, heq⟩ <;> rw [h] at heq <;>
    cases heq
  exact ⟨ts, ht, rfl⟩

/-- What a symbol and the end of the text take is the parse tree of the whole text. -/
theorem parseTree_whole_of_takes {symbol : Symbol} {text : List Char} {ts : List ParseTree} {after : Place}
    (h : Takes (.seq symbol.pattern (.token .endOfInput)) (.first text) ts after) :
    parseTree symbol true text = .ok (.node .whole ts, after) := by
  rcases parseTree_whole symbol text with ⟨us, a, hus, heq⟩ | ⟨hr, -⟩
  · obtain ⟨rfl, rfl⟩ := h.unique hus
    exact heq
  · exact absurd h hr.not_takes

/-- Nothing dangles in front of the end of the text. -/
theorem Grammar.Symbol.danglers_endOfInput (symbol : Symbol) :
    (symbol.pattern.danglers.all fun d => lexemeExcludes (.token d) (.token .endOfInput))
      = true := by
  cases symbol with
  | token t => rfl
  | phrase p =>
    revert p
    decide

/-- What a symbol and the end of the text take is a reading. -/
theorem Grammar.Takes.reads_whole {symbol : Symbol} {s a : Place} {ts : List ParseTree}
    (h : Takes (.seq symbol.pattern (.token .endOfInput)) s ts a) :
    Reads (.seq symbol.pattern (.token .endOfInput)) s (tidyAll ts) a := by
  obtain ⟨us, m, vs, rfl, hx, hy⟩ := takes_seq.1 h
  have hsymbol : Reads symbol.pattern s (tidyAll us) m := by
    refine Takes.reads hx ?_ ?_ symbol.danglers_endOfInput (Takes.matches hy) <;>
      cases symbol <;> rfl
  have hend : Reads (.token .endOfInput) m (tidyAll vs) a := by
    rcases Takes.reads_or_dangles hy rfl with ⟨ws, hreads, hw⟩ | ⟨d, hd, -⟩
    · rw [hw.eq rfl]
      exact hreads
    · cases hd
  rw [tidyAll_append]
  exact Shape.seq hsymbol hend

/-- What a symbol and the end of the text take is built. -/
theorem exists_buildAll_whole {symbol : Symbol} {s a : Place} {ts : List ParseTree}
    (h : Takes (.seq symbol.pattern (.token .endOfInput)) s ts a) (locate : Nat → Position) :
    ∃ vs, buildAll locate ts = .ok vs := by
  obtain ⟨values, hvalues⟩ := exists_buildAll locate h.reads_whole.fits
  exact ⟨values, (buildAll_of_tidy _ hvalues).1⟩

/-! ## Every parse ends well -/

theorem buildIn_eq_ok {origin : String} {text : List Char} {tree : ParseTree} {b : Built} :
    buildIn origin text tree = .ok b ↔ buildTree
      (fun offset => positionAt origin ((LocationTable.of text).locate offset)) tree = .ok b := by
  simp only [buildIn]
  split <;> simp_all

theorem buildIn_eq_error {origin : String} {text : List Char} {tree : ParseTree} {e : BuildError} :
    buildIn origin text tree = .error (.build e) ↔ buildTree
      (fun offset => positionAt origin ((LocationTable.of text).locate offset)) tree = .error e := by
  simp only [buildIn]
  split <;> simp_all

/-- **What matches is built.** If a symbol and then the end of the text match, their parse tree is
built. So is the tree of a loop statement at the start of a text, whatever stands behind it. -/
theorem builds_of_matches {symbol : Symbol} {whole : Bool} (origin : String) {text : List Char}
    (hs : whole = true ∨ symbol = .phrase .loop ∨ symbol = .phrase .loopUnit) {tree : ParseTree}
    {after : Place} (h : parseTree symbol whole text = .ok (tree, after)) :
    ∃ built, buildIn origin text tree = .ok built := by
  simp only [buildIn_eq_ok]
  cases whole with
  | true =>
    rcases parseTree_whole symbol text with ⟨ts, a, ht, heq⟩ | ⟨-, l, heq⟩
    · rw [h] at heq
      cases heq
      obtain ⟨vs, hvs⟩ := exists_buildAll_whole ht
        fun offset => positionAt origin ((LocationTable.of text).locate offset)
      simp only [buildTree, hvs, ok_bind]
      split <;> exact ⟨_, rfl⟩
    · rw [h] at heq
      cases heq
  | false =>
    rcases parseTree_prefix symbol text with ⟨t, a, ht, heq⟩ | ⟨-, l, heq⟩
    · rw [h] at heq
      cases heq
      rcases hs with hs | rfl | rfl
      · cases hs
      · obtain ⟨v, hv, -⟩ := exists_buildTree_loop (Or.inl rfl) ht
        exact ⟨_, hv⟩
      · obtain ⟨v, hv, -⟩ := exists_buildTree_loop (Or.inr rfl) ht
        exact ⟨_, hv⟩
    · rw [h] at heq
      cases heq

/-- What comes of a loop statement at the start of a text: a node of a loop, or the place of a
syntax error. -/
theorem parseSymbol_loop {p : Phrase} (hp : p = .loop ∨ p = .loopUnit) (origin text : String) :
    (∃ tree a v, Takes (.phrase p) (.first text.toList) [tree] a ∧ v.isA .loop = true ∧
      buildIn origin text.toList tree = .ok (.one v) ∧
        parseSymbol (.phrase p) false origin text = .ok ⟨.one v, tree, a.rest⟩) ∨
    (Refuses (.phrase p) (.first text.toList) ∧
      ∃ l, parseSymbol (.phrase p) false origin text = .error (.mismatch l)) := by
  rcases parseTree_prefix (.phrase p) text.toList with ⟨t, a, ht, heq⟩ | ⟨hr, l, heq⟩
  · obtain ⟨v, hv, hisA⟩ := exists_buildTree_loop hp ht
    have hb : buildIn origin text.toList t = .ok (.one v) := buildIn_eq_ok.2 hv
    exact Or.inl ⟨t, a, v, ht, hisA, hb, by simp only [parseSymbol, heq, ok_bind, hb, pure_eq_ok]⟩
  · exact Or.inr ⟨hr, l, by simp only [parseSymbol, heq]; rfl⟩

/-- A text is one loop statement exactly if its tree is taken. -/
theorem parse_eq_ok {origin text : String} {v : Value} :
    parse origin text = .ok v ↔ ∃ tree a, Takes (.phrase .loopUnit) (.first text.toList) [tree] a ∧
      buildIn origin text.toList tree = .ok (.one v) := by
  rcases parseSymbol_loop (Or.inr rfl) origin text with ⟨t, a, v', ht, -, hb, heq⟩ | ⟨hr, l, heq⟩
  · simp only [parse, heq, ok_bind, pure_eq_ok, Built.toValue, Except.ok.injEq]
    constructor
    · rintro rfl
      exact ⟨t, a, ht, hb⟩
    · rintro ⟨t', a', ht', hb'⟩
      obtain ⟨htree, -⟩ := ht.unique ht'
      cases htree
      rw [hb] at hb'
      cases hb'
      rfl
  · simp only [parse, heq]
    constructor
    · intro h
      cases h
    · rintro ⟨t', a', ht', -⟩
      exact absurd ht' hr.not_takes

/-- A text begins with a loop statement exactly if its tree is taken, and the text behind it is
what its tree does not cover. -/
theorem parsePrefix_eq_ok {origin text rest : String} {v : Value} :
    parsePrefix origin text = .ok (v, rest) ↔
      ∃ tree a, Takes (.phrase .loop) (.first text.toList) [tree] a ∧
        buildIn origin text.toList tree = .ok (.one v) ∧
          rest = String.ofList (text.toList.drop tree.stop) := by
  rcases parseSymbol_loop (Or.inl rfl) origin text with ⟨t, a, v', ht, -, hb, heq⟩ | ⟨hr, l, heq⟩
  · simp only [parsePrefix, heq, ok_bind, pure_eq_ok, Built.toValue, Except.ok.injEq,
      Prod.mk.injEq]
    constructor
    · rintro ⟨rfl, rfl⟩
      exact ⟨t, a, ht, hb, rfl⟩
    · rintro ⟨t', a', ht', hb', rfl⟩
      obtain ⟨htree, -⟩ := ht.unique ht'
      cases htree
      rw [hb] at hb'
      cases hb'
      exact ⟨rfl, rfl⟩
  · simp only [parsePrefix, heq]
    constructor
    · intro h
      cases h
    · rintro ⟨t', a', ht', -⟩
      exact absurd ht' hr.not_takes

/-- **Building never fails.** Whatever symbol matches a whole text, its parse tree is built, and so
is the parse tree of a loop statement that something follows. So parsing a loop statement, alone or
at the start of a text, gives a node of a loop or the place of a syntax error. -/
theorem build_never_fails :
    (∀ symbol origin text tree after, parseTree symbol true text = .ok (tree, after) →
      ∃ built, buildIn origin text tree = .ok built) ∧
    (∀ origin text tree after, parseTree (.phrase .loop) false text = .ok (tree, after) →
      ∃ built, buildIn origin text tree = .ok built) ∧
    (∀ origin text, (∃ v, parse origin text = .ok v ∧ v.isA .loop = true) ∨
      ∃ l, parse origin text = .error (.mismatch l)) ∧
    ∀ origin text, (∃ v rest, parsePrefix origin text = .ok (v, rest) ∧ v.isA .loop = true) ∨
      ∃ l, parsePrefix origin text = .error (.mismatch l) := by
  refine ⟨fun _ origin _ _ _ h => builds_of_matches origin (Or.inl rfl) h,
    fun origin _ _ _ h => builds_of_matches origin (Or.inr (Or.inl rfl)) h, ?_, ?_⟩
  · intro origin text
    rcases parseSymbol_loop (Or.inr rfl) origin text with ⟨t, a, v, -, hv, -, heq⟩ | ⟨-, l, heq⟩
    · exact Or.inl ⟨v, by simp only [parse, heq, ok_bind]; rfl, hv⟩
    · exact Or.inr ⟨l, by simp only [parse, heq]; rfl⟩
  · intro origin text
    rcases parseSymbol_loop (Or.inl rfl) origin text with ⟨t, a, v, -, hv, -, heq⟩ | ⟨-, l, heq⟩
    · exact Or.inl ⟨v, _, by simp only [parsePrefix, heq, ok_bind]; rfl, hv⟩
    · exact Or.inr ⟨l, by simp only [parsePrefix, heq]; rfl⟩

end VerilogLoops
