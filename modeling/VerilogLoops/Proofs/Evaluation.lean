import VerilogLoops.Parse
import VerilogLoops.Proofs.Matching
import VerilogLoops.Proofs.Token.Exclusive

/-!
# Evaluating a parse

A fact about the parse of one text is shown by evaluating the parser. Step by step most of the work goes
into things that have no part in the result: the table of the matcher, which is a new one after every
note, and the characters of the text and of the spellings, which are decoded from their octets. A
parser that matches *afresh* does without a table, and it is given the characters.

> `parseTree_afresh`: it finds the same tree or the same mistake.

It takes twice as long with every level of nesting, which does not show in a short text.
-/

namespace VerilogLoops.Lexical

/-- The length of the token at the head of a text, by the letters of its spellings. -/
def Token.lengthByLetters? (t : Token) (cs : List Char) : Option Nat :=
  if t.isSpelled then firstFit t.spelled cs else t.length? cs

theorem Token.lengthByLetters?_eq (t : Token) (cs : List Char) :
    t.lengthByLetters? cs = t.length? cs := by
  unfold lengthByLetters?
  split
  · next h => rw [Token.length?_of_isSpelled h, t.spelled_eq]
  · rfl

end VerilogLoops.Lexical

namespace VerilogLoops.Grammar

open VerilogLoops.Text VerilogLoops.Lexical

/-! ## Matching without a table -/

/-- The outcome of a token, by the letters of its spellings. -/
def Outcome.ofLetters (t : Token) (place : Place) : Outcome :=
  let here := place.skip (triviaLength place.rest)
  match t.lengthByLetters? here.rest with
  | some n => .matched [.leaf t here.offset (String.ofList (here.rest.take n))] (here.skip n) 0
  | none => .failed here.offset

theorem Outcome.ofLetters_eq (t : Token) (place : Place) : ofLetters t place = ofToken t place := by
  simp only [ofLetters, Token.lengthByLetters?_eq]
  rfl

/-- A matcher without a table: from a place to an outcome, unless the fuel runs out. -/
abbrev Attempt := Place → Option Outcome

/-- As many matches in a row as possible. -/
def Attempt.many (body : Attempt) : Nat → Attempt
  | 0, _ => none
  | bound + 1, place =>
    match body place with
    | none => none
    | some (.failed reach) => some (.matched [] place reach)
    | some (.matched trees after reach) =>
      (many body bound after).map fun rest => (rest.behind trees).since reach

/-- As many separators with an item behind them as possible. -/
def Attempt.tail (separator : Token) (item : Attempt) : Nat → Attempt
  | 0, _ => none
  | bound + 1, place =>
    match Outcome.ofLetters separator place with
    | .failed reach => some (.matched [] place reach)
    | .matched mark between reach =>
      match item between with
      | none => none
      | some (.failed further) => some (.matched mark place (max reach further))
      | some (.matched trees after further) =>
        (tail separator item bound after).map fun rest =>
          (rest.behind (mark ++ trees)).since (max reach further)

/-- Matches a pattern, given how to match a phrase. -/
def Pattern.afresh (enter : Phrase → Attempt) : Pattern → Attempt
  | .token t, place => some (.ofLetters t place)
  | .phrase p, place => enter p place
  | .seq first second, place =>
    match first.afresh enter place with
    | none => none
    | some (.failed reach) => some (.failed reach)
    | some (.matched trees after reach) =>
      (second.afresh enter after).map fun rest => (rest.behind trees).since reach
  | .alt first second, place =>
    match first.afresh enter place with
    | none => none
    | some (.matched trees after reach) => some (.matched trees after reach)
    | some (.failed reach) => (second.afresh enter place).map (·.since reach)
  | .opt body, place =>
    match body.afresh enter place with
    | none => none
    | some (.matched trees after reach) => some (.matched trees after reach)
    | some (.failed reach) => some (.matched [] place reach)
  | .many body, place => Attempt.many (body.afresh enter) (place.rest.length + 1) place
  | .tail separator item, place =>
    Attempt.tail separator (item.afresh enter) (place.rest.length + 1) place
  | .absent body, place =>
    match body.afresh enter place with
    | none => none
    | some (.matched _ _ reach) => some (.failed (max reach place.offset))
    | some (.failed reach) => some (.matched [] place reach)

/-- Matches a phrase. -/
def Phrase.afresh : Nat → Phrase → Attempt
  | 0, _, _ => none
  | fuel + 1, p, place => (p.body.afresh (Phrase.afresh fuel) place).map (·.under (.phrase p))

/-- Matches a pattern at the start of a text, with a table only if it does not succeed without. -/
def Pattern.runAfresh (pattern : Pattern) (text : List Char) : Option Outcome :=
  pattern.afresh (Phrase.afresh (fuelFor text)) (.first text) <|> pattern.run text

/-! ## It finds the outcome -/

/-- What comes of an attempt is the outcome of the pattern. -/
def Attempt.Sound (m : Attempt) (x : Pattern) : Prop :=
  ∀ s o, m s = some o → Comes x s o

theorem Attempt.many_sound {m : Attempt} {x : Pattern} (hm : m.Sound x) (bound : Nat) :
    (many m bound).Sound (.many x) := by
  induction bound with
  | zero => intro s o h; cases h
  | succ bound ih =>
    intro s o h
    simp only [many] at h
    split at h
    · cases h
    · next hx =>
      cases h
      exact (hm _ _ hx).manyStop
    · next hx =>
      obtain ⟨rest, hrest, rfl⟩ := Option.map_eq_some_iff.1 h
      exact (hm _ _ hx).manyStep (ih _ _ hrest)

theorem Attempt.tail_sound {t : Token} {m : Attempt} {x : Pattern} (hm : m.Sound x) (bound : Nat) :
    (tail t m bound).Sound (.tail t x) := by
  induction bound with
  | zero => intro s o h; cases h
  | succ bound ih =>
    intro s o h
    simp only [tail, Outcome.ofLetters_eq, ofToken_eq] at h
    cases ht : tokenAt t s with
    | none =>
      rw [ht] at h
      cases h
      exact ⟨.tailStop ht, .tailStop ht⟩
    | some found =>
      obtain ⟨mark, between⟩ := found
      rw [ht] at h
      dsimp only at h
      split at h
      · cases h
      · next hx =>
        cases h
        exact (hm _ _ hx).tailDangling ht
      · next hx =>
        obtain ⟨rest, hrest, rfl⟩ := Option.map_eq_some_iff.1 h
        exact (hm _ _ hx).tailStep ht (ih _ _ hrest)

theorem Pattern.afresh_sound {enter : Phrase → Attempt} (henter : ∀ p, (enter p).Sound (.phrase p))
    (x : Pattern) : Attempt.Sound (x.afresh enter) x := by
  induction x with
  | token t =>
    intro s o h
    cases h
    exact Outcome.ofLetters_eq t s ▸ comes_token t s
  | phrase p => exact henter p
  | seq x y ihx ihy =>
    intro s o h
    simp only [afresh] at h
    split at h
    · cases h
    · next hx =>
      cases h
      exact (ihx _ _ hx).noFirst
    · next hx =>
      obtain ⟨rest, hrest, rfl⟩ := Option.map_eq_some_iff.1 h
      exact (ihx _ _ hx).seq (ihy _ _ hrest)
  | alt x y ihx ihy =>
    intro s o h
    simp only [afresh] at h
    split at h
    · cases h
    · next hx =>
      cases h
      exact (ihx _ _ hx).altFirst
    · next hx =>
      obtain ⟨rest, hrest, rfl⟩ := Option.map_eq_some_iff.1 h
      exact (ihx _ _ hx).altSecond (ihy _ _ hrest)
  | opt x ihx =>
    intro s o h
    simp only [afresh] at h
    split at h
    · cases h
    · next hx =>
      cases h
      exact (ihx _ _ hx).opt
    · next hx =>
      cases h
      exact (ihx _ _ hx).optNone
  | many x ihx =>
    intro s o h
    exact Attempt.many_sound ihx _ s o h
  | tail t x ihx =>
    intro s o h
    exact Attempt.tail_sound ihx _ s o h
  | absent x ihx =>
    intro s o h
    simp only [afresh] at h
    split at h
    · cases h
    · next hx =>
      cases h
      exact (ihx _ _ hx).present
    · next hx =>
      cases h
      exact (ihx _ _ hx).absent

theorem Phrase.afresh_sound (fuel : Nat) : ∀ p, (Phrase.afresh fuel p).Sound (.phrase p) := by
  induction fuel with
  | zero => intro p s o h; cases h
  | succ fuel ih =>
    intro p s o h
    obtain ⟨o', ho', rfl⟩ := Option.map_eq_some_iff.1 h
    exact (Pattern.afresh_sound ih p.body s o' ho').phrase

/-- The table makes no difference to the outcome. -/
theorem Pattern.run_afresh {x : Pattern} (hx : x.steady = true) (text : List Char) :
    x.run text = x.runAfresh text := by
  rw [runAfresh]
  cases h : x.afresh (Phrase.afresh (fuelFor text)) (.first text) with
  | none => rfl
  | some o =>
    obtain ⟨o', ho', hd⟩ := comes_run x hx text
    rw [ho', hd.unique (Pattern.afresh_sound (Phrase.afresh_sound _) x _ _ h)]
    rfl

end VerilogLoops.Grammar

namespace VerilogLoops

open VerilogLoops.Text VerilogLoops.Grammar VerilogLoops.Ast VerilogLoops.Document

/-- The parse tree of a text as a symbol, matched afresh. -/
def parseTreeAfresh (symbol : Symbol) (whole : Bool) (text : List Char) :
    Except ParseError (ParseTree × Place) :=
  let mismatch (reach : Nat) : ParseError :=
    .mismatch (Location.ofOffset text (max reach (openingLength text)))
  if whole then
    match (Pattern.seq symbol.pattern (.token .endOfInput)).runAfresh text with
    | some (.matched trees after _) => .ok (.node .whole trees, after)
    | some (.failed reach) => .error (mismatch reach)
    | none => .error .exhausted
  else
    match symbol.pattern.runAfresh text with
    | some (.matched (tree :: _) after _) => .ok (tree, after)
    | some (.matched [] _ reach) => .error (mismatch reach)
    | some (.failed reach) => .error (mismatch reach)
    | none => .error .exhausted

/-- What is parsed of a text of the given characters, matched afresh. -/
def parseSymbolAfresh (symbol : Symbol) (whole : Bool) (origin : String) (text : List Char) :
    Except ParseError Parsed := do
  let (tree, after) ← parseTreeAfresh symbol whole text
  return ⟨← buildIn origin text tree, tree, after.rest⟩

theorem Grammar.Symbol.pattern_steady (symbol : Symbol) : symbol.pattern.steady = true := by
  cases symbol <;> rfl

variable {symbol : Symbol} {whole : Bool} {origin text : String} {cs : List Char}

/-- Matching afresh finds the same tree or the same mistake. -/
theorem parseTree_afresh : parseTree symbol whole cs = parseTreeAfresh symbol whole cs := by
  have hsteady : (Pattern.seq symbol.pattern (.token .endOfInput)).steady = true := by
    simp [Pattern.steady, symbol.pattern_steady]
  cases whole with
  | true =>
    simp only [parseTree, parseTreeAfresh, Symbol.parseWhole, if_true, Pattern.run_afresh hsteady]
    rcases (Pattern.runAfresh _ cs) with _ | _ | _ <;> rfl
  | false =>
    simp only [parseTree, parseTreeAfresh, Symbol.parse, Bool.false_eq_true, if_false,
      Pattern.run_afresh symbol.pattern_steady]
    rcases (Pattern.runAfresh _ cs) with _ | ⟨_ | _, _, _⟩ | _ <;> rfl

theorem parseSymbol_afresh (h : text.toList = cs) :
    parseSymbol symbol whole origin text = parseSymbolAfresh symbol whole origin cs := by
  rw [parseSymbol, parseSymbolAfresh, h, parseTree_afresh]

theorem parse_afresh (h : text.toList = cs) : parse origin text = do
    return (← parseSymbolAfresh (.phrase .loopUnit) false origin cs).built.toValue := by
  rw [parse, parseSymbol_afresh h]

theorem parsePrefix_afresh (h : text.toList = cs) : parsePrefix origin text = do
    let parsed ← parseSymbolAfresh (.phrase .loop) false origin cs
    return (parsed.built.toValue, String.ofList (cs.drop parsed.tree.stop)) := by
  rw [parsePrefix, parseSymbol_afresh h, h]

/-! ## Results that can be seen -/

/-- Where there is no error there is a value. -/
theorem exists_of_isOk {ε α : Type} {r : Except ε α} (h : r.isOk = true) : ∃ a, r = .ok a := by
  cases r with
  | error e => cases h
  | ok a => exact ⟨a, rfl⟩

/-- Where a value is seen to have a property there is one with it. -/
theorem exists_of_any {ε α : Type} {r : Except ε α} {p : α → Prop} [DecidablePred p]
    (h : r.toOption.any (fun a => decide (p a)) = true) : ∃ a, r = .ok a ∧ p a := by
  cases r with
  | error e => cases h
  | ok a => exact ⟨a, rfl, of_decide_eq_true h⟩

/-- Where an error is seen it is the result. -/
theorem eq_error_of_match {ε α : Type} [DecidableEq ε] {r : Except ε α} {e : ε}
    (h : (match r with
      | .error found => decide (found = e)
      | .ok _ => false) = true) : r = .error e := by
  cases r with
  | error found => exact congrArg _ (of_decide_eq_true h)
  | ok a => cases h

end VerilogLoops
