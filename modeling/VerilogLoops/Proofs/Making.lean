import VerilogLoops.Proofs.Piece

/-!
# What phrases make

Every phrase makes one value of a known family, but for three lists that are spliced into the
phrase around them. `Makes p values text` says this, and that the values are rendered as `text`,
which is the ink of the polished tree.

`Assembles p` is the step from the children of `p` to `p`. It holds of every phrase but the
operations: the text of an operation depends on more than the texts of its operands.
-/

namespace VerilogLoops.Ast

open VerilogLoops.Lexical VerilogLoops.Grammar

/-- The family of the values of a phrase. -/
def familyOf : Phrase → Family
  | .identifier | .variableName | .indexName | .statementLabel => .only .identifier
  | .hierarchicalName => .only .hierarchicalIdentifier
  | .packageScope => .only .packageScope
  | .classHandle => .only .classHandle
  | .qualifier => .qualifier
  | .arrayName | .routineName => .only .scopedIdentifier
  | .loop | .loopUnit | .foreverLoop | .repeatLoop | .whileLoop | .forLoop | .doWhileLoop
  | .foreachLoop => .loop
  | .forInit | .forInitAssignments | .forInitDeclarations => .forInit
  | .forDeclaration => .only .forVariableDeclaration
  | .forBinding => .only .forVariableBinding
  | .forStep | .forStepItem => .forStep
  | .loopVariables => .only .loopVariables
  | .statementOrNull => .statementOrNull
  | .nullStatement => .only .nullStatement
  | .statement => .only .statement
  | .statementItem | .block | .conditional | .jump | .assignmentStatement | .stepStatement
  | .callStatement => .statementItem
  | .attribute => .only .attributeInstance
  | .attributeEntry => .only .attrSpec
  | .dataType | .integerVectorType | .integerAtomType | .nonIntegerType | .simpleType
  | .namedType => .dataType
  | .packedDimension => .only .packedDimension
  | .variableAssignments | .variableAssignment => .only .variableAssignment
  | .operatorAssignment => .only .operatorAssignment
  | .stepExpression => .only .incOrDecExpression
  | .lvalueConcatenation | .concatenation => .only .concatenation
  | .variableReference => .only .variableReference
  | .select => .only .select
  | .call => .call
  | .systemCall => .only .systemTfCall
  | .routineCall | .appliedCall => .only .tfCall
  | .arguments | .argument => .argument
  | .namedArgument => .only .namedArgument
  | .lvalue | .expression | .conditionalExpression | .chain _ | .unary | .primary
  | .parenthesized => .expression
  | .comment | .assignSign => .argument

-- Its equations are derived here, once for every proof about one phrase.
attribute [local simp] familyOf

/-- The ink of a phrase whose value is rendered as a text. The point behind a class handle belongs
to the qualifier but is rendered with the handle; the brackets around the variables of a foreach
loop are rendered with the loop. -/
def inkOf : Phrase → String → String → Prop
  | .classHandle, rendered, text => rendered = text ++ "."
  | .loopVariables, rendered, text => text = "[" ++ rendered ++ "]"
  | _, rendered, text => rendered = text

/-- What a phrase may make: its values and its ink, which is what the values are rendered as. -/
def Makes (q : Phrase) (values : List Value) (text : String) : Prop :=
  match q with
  | .comment => values = [.text text]
  | .assignSign => values = [.text "="] ∧ text = "="
  | .identifier | .variableName | .indexName =>
    ∃ pos, values = [.node .identifier pos [.text text]]
  | .statementLabel =>
    ∃ pos name, values = [.node .identifier pos [.text name]] ∧ text = name ++ ":"
  | .arguments | .forStep | .variableAssignments =>
    values ≠ [] ∧ (∀ v ∈ values, v.isA (familyOf q) = true) ∧
      ∃ texts, RenderAll values texts ∧ ", ".intercalate texts = text
  | q =>
    ∃ v, values = [v] ∧ v.isA (familyOf q) = true ∧
      ∃ s, v.render = .ok s ∧ inkOf q s text

/-- The phrases with a single value that is rendered as the ink. -/
def isPlain : Phrase → Bool
  | .comment | .assignSign | .statementLabel | .arguments | .forStep | .variableAssignments
  | .classHandle | .loopVariables => false
  | _ => true

theorem render_identifier (pos : Position) (text : String) :
    (Value.node .identifier pos [.text text]).render = .ok text := by
  simp [Value.render, writeFields, Kind.layout, renderParts, Part.render, Part.render.fieldAt,
    bind, Except.bind, pure, Except.pure]

/-- A plain phrase makes a single value that is rendered as the ink. -/
theorem Makes.plain {q : Phrase} (hq : isPlain q = true) {values : List Value}
    {text : String} (h : Makes q values text) :
    ∃ v, values = [v] ∧ v.isA (familyOf q) = true ∧ v.render = .ok text := by
  have ofName : (∃ pos, values = [.node .identifier pos [.text text]]) →
      ∃ v, values = [v] ∧ v.isA (.only .identifier) = true ∧ v.render = .ok text := by
    rintro ⟨pos, rfl⟩
    exact ⟨_, rfl, rfl, render_identifier pos text⟩
  have ofRest : (∃ v, values = [v] ∧ v.isA (familyOf q) = true ∧
      ∃ s, v.render = .ok s ∧ s = text) →
        ∃ v, values = [v] ∧ v.isA (familyOf q) = true ∧ v.render = .ok text := by
    rintro ⟨v, rfl, hv, hr⟩
    refine ⟨v, rfl, hv, ?_⟩
    obtain ⟨s, hs, rfl⟩ := hr
    exact hs
  cases q with
  | comment | assignSign | statementLabel | arguments | forStep | variableAssignments
  | classHandle | loopVariables => cases hq
  | identifier | variableName | indexName => exact ofName h
  | _ => exact ofRest h

/-- Building the phrase succeeds if its children are made as promised, and it makes what is
promised. -/
def Assembles (p : Phrase) : Prop :=
  ∀ pos ps, Forms Makes p.body ps →
    ∃ b, assemble p pos (valuesOf ps) = .ok b ∧ Makes p b.values (joined p (linesOf ps))

/-! ## Items of a repetition -/

/-- The pieces are matches of one phrase, each with a single value of a family that is rendered as
its ink. -/
def Items (q : Phrase) (f : Family) (ps : List Piece) : Prop :=
  ∀ piece ∈ ps, ∃ v text, piece = ⟨.phrase q, [v], text⟩ ∧ v.isA f = true ∧
    v.render = .ok text

namespace Items

variable {q : Phrase} {f g : Family} {ps : List Piece}

theorem tail {p : Piece} (h : Items q f (p :: ps)) : Items q f ps :=
  fun piece hp => h piece (List.mem_cons_of_mem p hp)

theorem isA (h : Items q f ps) : ∀ v ∈ valuesOf ps, v.isA f = true := by
  intro v hv
  obtain ⟨piece, hp, hv⟩ := List.mem_flatMap.1 hv
  obtain ⟨u, text, rfl, hu, -⟩ := h piece hp
  cases List.mem_singleton.1 hv
  exact hu

theorem members (h : Items q f ps) (hd : f.within g = true) :
    membersOf g (valuesOf ps) = valuesOf ps :=
  membersOf_eq_self h.isA hd

theorem members_nil (h : Items q f ps) (hd : f.apart g = true) :
    membersOf g (valuesOf ps) = [] :=
  membersOf_eq_nil h.isA hd

theorem symbols (h : Items q f ps) : ∀ piece ∈ ps, piece.symbol = .phrase q := by
  intro piece hp
  obtain ⟨v, text, rfl, -⟩ := h piece hp
  rfl

theorem renderAll (h : Items q f ps) :
    RenderAll (valuesOf ps) (ps.map Piece.text) := by
  induction ps with
  | nil => rfl
  | cons p ps ih =>
    obtain ⟨v, text, rfl, -, hr⟩ := h p List.mem_cons_self
    exact (ih h.tail).cons (hr)

/-- The values of items are no texts. -/
theorem isText_getD (h : Items q f ps) (i : Nat) :
    ((valuesOf ps)[i]?.getD .null).isText = false := by
  cases hi : (valuesOf ps)[i]? with
  | none => rfl
  | some v => exact isText_of_isA (h.isA v (List.mem_of_getElem? hi))

theorem values_eq_nil (h : Items q f ps) : valuesOf ps = [] ↔ ps = [] := by
  cases ps with
  | nil => simp
  | cons p ps =>
    obtain ⟨v, text, rfl, -⟩ := h p List.mem_cons_self
    simp

end Items

theorem map_snd_linesOf (ps : List Piece) : (linesOf ps).map (·.2) = ps.map Piece.text := by
  simp [linesOf]

/-- The pieces of a repetition are its items. -/
theorem items_of_makes {q : Phrase} {ps : List Piece} (hq : isPlain q = true)
    (h : ∀ piece ∈ ps, ∃ values text, piece = ⟨.phrase q, values, text⟩ ∧ Makes q values text) :
    Items q (familyOf q) ps := by
  intro piece hp
  obtain ⟨values, text, rfl, hm⟩ := h piece hp
  obtain ⟨v, rfl, hv, hr⟩ := hm.plain hq
  exact ⟨v, text, rfl, hv, hr⟩

/-! ## Lists with separators -/

/-- The piece of a separator. -/
def markPiece (t : Token) (word : String) : Piece := ⟨.token t, [.text word], word⟩

/-- A list with separators is its items with the separator between any two. -/
theorem forms_separated {makes : Phrase → List Value → String → Prop} {q : Phrase} {t : Token}
    {word : String} (ht : t.word? = some word) {ps : List Piece}
    (h : Forms makes (Pattern.separated (.phrase q) t) ps) :
    ∃ item items, ps = (item :: items).intersperse (markPiece t word) ∧
      ∀ piece ∈ item :: items, ∃ values text, piece = ⟨.phrase q, values, text⟩ ∧
        makes q values text := by
  obtain ⟨_, _, rfl, ⟨values, text, rfl, hm⟩, groups, rfl, hall⟩ := h
  -- the groups of the tail are pairs of a separator and an item
  suffices hrest : ∃ items : List Piece,
      groups.flatten = items.flatMap (fun p => [markPiece t word, p]) ∧
        ∀ piece ∈ items, ∃ values text, piece = ⟨.phrase q, values, text⟩ ∧
          makes q values text by
    obtain ⟨items, hitems, hmade⟩ := hrest
    refine ⟨⟨.phrase q, values, text⟩, items, ?_, ?_⟩
    · rw [hitems]
      clear hitems hmade hall hm
      -- between the items, the separators stand as in front of the following ones
      generalize (⟨.phrase q, values, text⟩ : Piece) = item
      induction items generalizing item with
      | nil => rfl
      | cons next items ih =>
        simp only [List.flatMap_cons, List.cons_append, List.nil_append,
          List.intersperse_cons_cons]
        rw [← ih next]
        rfl
    · intro piece hp
      rcases List.mem_cons.1 hp with rfl | hp
      · exact ⟨values, text, rfl, hm⟩
      · exact hmade piece hp
  clear hm
  induction groups with
  | nil => exact ⟨[], rfl, by simp⟩
  | cons group groups ih =>
    obtain ⟨items, hitems, hmade⟩ := ih fun qs hqs => hall qs (List.mem_cons_of_mem group hqs)
    obtain ⟨mark, pos, _, rfl, hf, vs, text, rfl, hq⟩ := hall group List.mem_cons_self
    refine ⟨⟨.phrase q, vs, text⟩ :: items, ?_, ?_⟩
    · rw [List.flatten_cons, hitems, tokenPiece_of_word ht hf]
      rfl
    · intro piece hp
      rcases List.mem_cons.1 hp with rfl | hp
      · exact ⟨vs, text, rfl, hq⟩
      · exact hmade piece hp

section Intersperse

variable {q : Phrase} {f g : Family} {t : Token} {word : String} {ps : List Piece}

/-- Separators are no members. -/
theorem membersOf_intersperse :
    membersOf f (valuesOf (ps.intersperse (markPiece t word))) = membersOf f (valuesOf ps) := by
  fun_induction List.intersperse (markPiece t word) ps with
  | case1 => rfl
  | case2 => rfl
  | case3 p ps hne ih =>
    simp only [valuesOf_cons, membersOf_append, ih]
    simp [markPiece]

/-- A list with separators begins with its first item. -/
theorem intersperse_cons (mark p : Piece) (ps : List Piece) :
    ∃ rest, (p :: ps).intersperse mark = p :: rest := by
  cases ps with
  | nil => exact ⟨[], rfl⟩
  | cons q ps => exact ⟨_, rfl⟩

/-- The ink of a list whose separators stand close to the item in front of them. -/
theorem joined_intersperse {p : Phrase} (hn : p.gap (.phrase q) (.token t) = "")
    (h : ∀ piece ∈ ps, piece.symbol = .phrase q) :
    joined p (linesOf (ps.intersperse (markPiece t word))) =
      (word ++ p.gap (.token t) (.phrase q)).intercalate (ps.map Piece.text) := by
  fun_induction List.intersperse (markPiece t word) ps with
  | case1 => rfl
  | case2 => simp
  | case3 item ps hne ih =>
    cases ps with
    | nil => exact absurd rfl hne
    | cons next ps =>
      have hitem : item.symbol = .phrase q := h item List.mem_cons_self
      have hnext : next.symbol = .phrase q := h next (by simp)
      have ih := ih fun piece hp => h piece (List.mem_cons_of_mem item hp)
      obtain ⟨rest, hrest⟩ := intersperse_cons (markPiece t word) next ps
      rw [hrest] at ih ⊢
      rw [linesOf_cons, linesOf_cons, joined_cons_cons, linesOf_cons, joined_cons_cons,
        ← linesOf_cons, ih]
      simp only [markPiece, hitem, hnext, hn, List.map_cons, String.intercalate_cons_cons,
        String.append_empty]
      simp only [String.append_assoc]

theorem getLast?_intersperse (mark p : Piece) (ps : List Piece) :
    ((p :: ps).intersperse mark).getLast? = (p :: ps).getLast? := by
  induction ps generalizing p with
  | nil => rfl
  | cons q ps ih =>
    obtain ⟨rest, hrest⟩ := intersperse_cons mark q ps
    rw [List.intersperse_cons_cons, hrest, List.getLast?_cons_cons, List.getLast?_cons_cons,
      List.getLast?_cons_cons, ← hrest, ih]

end Intersperse

/-- What is known about the pieces of a list of phrases with commas. -/
structure Listed (q : Phrase) (ps items : List Piece) : Prop where
  ne_nil : items ≠ []
  made : Items q (familyOf q) items
  members : ∀ f, membersOf f (valuesOf ps) = membersOf f (valuesOf items)
  head : ∃ y, (linesOf ps).head? = some y ∧ y.1 = .phrase q
  last : ∃ y, (linesOf ps).getLast? = some y ∧ y.1 = .phrase q
  joined : ∀ p, Phrase.gap p (.phrase q) (.token .comma) = "" →
    Phrase.gap p (.token .comma) (.phrase q) = " " →
      joined p (linesOf ps) = ", ".intercalate (items.map Piece.text)

/-- A list of plain phrases with commas. -/
theorem listed_of_forms {q : Phrase} (hq : isPlain q = true) {ps : List Piece}
    (h : Forms Makes (Pattern.separated (.phrase q) .comma) ps) :
    ∃ items, Listed q ps items := by
  obtain ⟨item, items, rfl, hmade⟩ := forms_separated rfl h
  have hitems := items_of_makes hq hmade
  refine ⟨item :: items, List.cons_ne_nil _ _, hitems, fun f => membersOf_intersperse,
    ?_, ?_, fun p hn hb => ?_⟩
  · obtain ⟨rest, hrest⟩ := intersperse_cons (markPiece .comma ",") item items
    exact ⟨_, congrArg (fun l => (linesOf l).head?) hrest, hitems.symbols _ List.mem_cons_self⟩
  · obtain ⟨z, hz⟩ : ∃ z, (item :: items).getLast? = some z :=
      ⟨_, List.getLast?_eq_some_getLast (List.cons_ne_nil _ _)⟩
    refine ⟨(z.symbol, z.text), ?_, hitems.symbols z (List.mem_of_getLast? hz)⟩
    show ((List.intersperse _ _).map _).getLast? = _
    rw [List.getLast?_map, getLast?_intersperse, hz]
    rfl
  · rw [joined_intersperse hn hitems.symbols, hb]
    rfl

/-- A list between two tokens. -/
theorem Listed.joined_between {q p : Phrase} {ps items : List Piece}
    (h : Listed q ps items) {x y : Pattern × String}
    (hn : Phrase.gap p (.phrase q) (.token .comma) = "")
    (hb : Phrase.gap p (.token .comma) (.phrase q) = " ") :
    VerilogLoops.Grammar.joined p (x :: (linesOf ps ++ [y])) =
      x.2 ++ p.gap x.1 (.phrase q) ++ ", ".intercalate (items.map Piece.text)
        ++ p.gap (.phrase q) y.1 ++ y.2 := by
  obtain ⟨u, hu, hu'⟩ := h.head
  obtain ⟨z, hz, hz'⟩ := h.last
  have hhead : (linesOf ps ++ [y]).head? = some u := by
    cases hps : linesOf ps with
    | nil => rw [hps] at hu; cases hu
    | cons a as => rw [hps] at hu; exact hu
  rw [joined_cons_of_head hhead, joined_append_of_last hz, h.joined p hn hb, hu', hz']
  simp [String.append_assoc]

end VerilogLoops.Ast
