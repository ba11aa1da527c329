import VerilogLoops.Proofs.Opening

/-!
# Readings: what a pattern takes, without the attempts that failed

A derivation says what a pattern takes and also what did not match on the way. A *shape* keeps only
the first half: it is built from lexemes as the operators of the pattern say, and every choice is
free. It is stated for lexemes that lead from any state to another. With places for states it is a
reading of a text, `Reads`; without states it is the form of a parse tree, `Fits`.

A derivation is more than its reading in one point: a separator without an item behind it stays in
the tree though it was given back. Such a *dangling* separator still stands at the place where the
pattern ended. So no dangler survives where something follows that excludes it, and the grammar is
such that this is always the case, with one exception: the comma behind a declaration in the header
of a for loop dangles if another declaration follows. A tree without these commas is *tidy*.

> `Takes.reads_or_dangles`: what a pattern takes is a reading, up to tidying, or one of its danglers
> stands behind it.
-/

namespace VerilogLoops.Grammar

open VerilogLoops.Text VerilogLoops.Lexical

/-! ## Shapes -/

/-- The trees have the shape of the pattern, made of lexemes that lead from state to state. -/
inductive Shape {σ : Type} (lexeme : Pattern → σ → ParseTree → σ → Prop) :
    Pattern → σ → List ParseTree → σ → Prop
  | lexeme {x s t a} (hx : x.isLexeme = true) (h : lexeme x s t a) : Shape lexeme x s [t] a
  | phrase {p s ts a} (hp : (Pattern.phrase p).isLexeme = false) (h : Shape lexeme p.body s ts a) :
    Shape lexeme (.phrase p) s [.node (.phrase p) ts] a
  | seq {x y s ts m us a} (hx : Shape lexeme x s ts m) (hy : Shape lexeme y m us a) :
    Shape lexeme (.seq x y) s (ts ++ us) a
  | first {x y s ts a} (h : Shape lexeme x s ts a) : Shape lexeme (.alt x y) s ts a
  | second {x y s ts a} (h : Shape lexeme y s ts a) : Shape lexeme (.alt x y) s ts a
  | omitted {x s} : Shape lexeme (.opt x) s [] s
  | given {x s ts a} (h : Shape lexeme x s ts a) : Shape lexeme (.opt x) s ts a
  | stop {x s} : Shape lexeme (.many x) s [] s
  | step {x s ts m us a} (hx : Shape lexeme x s ts m) (hr : Shape lexeme (.many x) m us a) :
    Shape lexeme (.many x) s (ts ++ us) a
  | last {t x s} : Shape lexeme (.tail t x) s [] s
  | next {t x s mark m ts n us a} (hm : lexeme (.token t) s mark m) (hx : Shape lexeme x m ts n)
    (hr : Shape lexeme (.tail t x) n us a) : Shape lexeme (.tail t x) s (mark :: ts ++ us) a

section Inversion

variable {σ : Type} {lexeme : Pattern → σ → ParseTree → σ → Prop} {s a : σ} {ts : List ParseTree}

theorem shape_lexeme {x : Pattern} (hx : x.isLexeme = true) :
    Shape lexeme x s ts a ↔ ∃ t, ts = [t] ∧ lexeme x s t a := by
  constructor
  · intro h
    cases h with
    | lexeme _ h => exact ⟨_, rfl, h⟩
    | phrase hp => rw [hp] at hx; cases hx
    | _ => cases hx
  · rintro ⟨t, rfl, h⟩
    exact .lexeme hx h

@[simp] theorem shape_token {t : Token} :
    Shape lexeme (.token t) s ts a ↔ ∃ u, ts = [u] ∧ lexeme (.token t) s u a :=
  shape_lexeme rfl

@[simp] theorem shape_identifier :
    Shape lexeme (.phrase .identifier) s ts a ↔
      ∃ u, ts = [u] ∧ lexeme (.phrase .identifier) s u a :=
  shape_lexeme rfl

@[simp] theorem shape_assignSign :
    Shape lexeme (.phrase .assignSign) s ts a ↔
      ∃ u, ts = [u] ∧ lexeme (.phrase .assignSign) s u a :=
  shape_lexeme rfl

theorem shape_phrase {p : Phrase} (hp : (Pattern.phrase p).isLexeme = false) :
    Shape lexeme (.phrase p) s ts a ↔
      ∃ us, ts = [.node (.phrase p) us] ∧ Shape lexeme p.body s us a := by
  constructor
  · intro h
    cases h with
    | lexeme hx => rw [hp] at hx; cases hx
    | phrase _ h => exact ⟨_, rfl, h⟩
  · rintro ⟨us, rfl, h⟩
    exact .phrase hp h

@[simp] theorem shape_seq {x y : Pattern} :
    Shape lexeme (.seq x y) s ts a ↔
      ∃ us m vs, ts = us ++ vs ∧ Shape lexeme x s us m ∧ Shape lexeme y m vs a := by
  constructor
  · intro h
    cases h with
    | lexeme hx => cases hx
    | seq hx hy => exact ⟨_, _, _, rfl, hx, hy⟩
  · rintro ⟨us, m, vs, rfl, hx, hy⟩
    exact .seq hx hy

@[simp] theorem shape_alt {x y : Pattern} :
    Shape lexeme (.alt x y) s ts a ↔ Shape lexeme x s ts a ∨ Shape lexeme y s ts a := by
  constructor
  · intro h
    cases h with
    | lexeme hx => cases hx
    | first h => exact Or.inl h
    | second h => exact Or.inr h
  · rintro (h | h)
    · exact .first h
    · exact .second h

@[simp] theorem shape_opt {x : Pattern} :
    Shape lexeme (.opt x) s ts a ↔ (ts = [] ∧ a = s) ∨ Shape lexeme x s ts a := by
  constructor
  · intro h
    cases h with
    | lexeme hx => cases hx
    | omitted => exact Or.inl ⟨rfl, rfl⟩
    | given h => exact Or.inr h
  · rintro (⟨rfl, rfl⟩ | h)
    · exact .omitted
    · exact .given h

/-- The shape of a repetition, one item at a time. -/
theorem shape_many {x : Pattern} :
    Shape lexeme (.many x) s ts a ↔ (ts = [] ∧ a = s) ∨
      ∃ us m vs, ts = us ++ vs ∧ Shape lexeme x s us m ∧ Shape lexeme (.many x) m vs a := by
  constructor
  · intro h
    cases h with
    | lexeme hx => cases hx
    | stop => exact Or.inl ⟨rfl, rfl⟩
    | step hx hr => exact Or.inr ⟨_, _, _, rfl, hx, hr⟩
  · rintro (⟨rfl, rfl⟩ | ⟨us, m, vs, rfl, hx, hr⟩)
    · exact .stop
    · exact .step hx hr

/-- The shape of a separated repetition, one separator and item at a time. -/
theorem shape_tail {t : Token} {x : Pattern} :
    Shape lexeme (.tail t x) s ts a ↔ (ts = [] ∧ a = s) ∨
      ∃ mark m us n vs, ts = mark :: us ++ vs ∧ lexeme (.token t) s mark m ∧
        Shape lexeme x m us n ∧ Shape lexeme (.tail t x) n vs a := by
  constructor
  · intro h
    cases h with
    | lexeme hx => cases hx
    | last => exact Or.inl ⟨rfl, rfl⟩
    | next hm hx hr => exact Or.inr ⟨_, _, _, _, _, rfl, hm, hx, hr⟩
  · rintro (⟨rfl, rfl⟩ | ⟨mark, m, us, n, vs, rfl, hm, hx, hr⟩)
    · exact .last
    · exact .next hm hx hr

/-! ## Shapes as a whole -/

/-- **What holds of lexemes and passes from children to their node holds of all trees of a shape.** -/
theorem Shape.forall_mem {P : ParseTree → Prop}
    (hlexeme : ∀ {x s t a}, x.isLexeme = true → lexeme x s t a → P t)
    (hphrase : ∀ p ts {s a}, (Pattern.phrase p).isLexeme = false → Shape lexeme p.body s ts a →
      (∀ t ∈ ts, P t) → P (.node (.phrase p) ts)) {x : Pattern} (h : Shape lexeme x s ts a) :
    ∀ t ∈ ts, P t := by
  induction h with
  | lexeme hx h => simpa using hlexeme hx h
  | phrase hp h ih => simpa using hphrase _ _ hp h ih
  | seq _ _ ihx ihy | step _ _ ihx ihy =>
    intro t ht
    exact (List.mem_append.1 ht).elim (ihx t) (ihy t)
  | first _ ih | second _ ih | given _ ih => exact ih
  | omitted | stop | last => simp
  | next hmark _ _ ihx ihr =>
    intro t ht
    rw [List.cons_append, List.mem_cons, List.mem_append] at ht
    rcases ht with rfl | ht | ht
    · exact hlexeme rfl hmark
    · exact ihx t ht
    · exact ihr t ht

/-- A shape is kept if its states and its trees are exchanged so that lexemes remain lexemes. -/
theorem Shape.map {τ : Type} {lexeme' : Pattern → τ → ParseTree → τ → Prop} {f : σ → τ}
    {g : ParseTree → ParseTree}
    (hlexeme : ∀ {x s t a}, x.isLexeme = true → lexeme x s t a → lexeme' x (f s) (g t) (f a))
    (hphrase : ∀ p ts, (Pattern.phrase p).isLexeme = false →
      g (.node (.phrase p) ts) = .node (.phrase p) (ts.map g)) {x : Pattern}
    (h : Shape lexeme x s ts a) : Shape lexeme' x (f s) (ts.map g) (f a) := by
  induction h with
  | lexeme hx h => exact .lexeme hx (hlexeme hx h)
  | phrase hp _ ih =>
    rw [List.map_singleton, hphrase _ _ hp]
    exact .phrase hp ih
  | seq _ _ ihx ihy =>
    rw [List.map_append]
    exact .seq ihx ihy
  | first _ ih => exact .first ih
  | second _ ih => exact .second ih
  | omitted => exact .omitted
  | given _ ih => exact .given ih
  | stop => exact .stop
  | step _ _ ihx ihr =>
    rw [List.map_append]
    exact .step ihx ihr
  | last => exact .last
  | next hmark _ _ ihx ihr =>
    rw [List.map_append, List.map_cons]
    exact .next (hlexeme rfl hmark) ihx ihr

end Inversion

/-- The lexeme is taken from one place to the other and makes this tree. -/
def LexemeAt (x : Pattern) (s : Place) (t : ParseTree) (a : Place) : Prop := Takes x s [t] a

/-- The pattern can be read from one place to the other, and the trees are the reading. -/
abbrev Reads (x : Pattern) (s : Place) (ts : List ParseTree) (a : Place) : Prop :=
  Shape LexemeAt x s ts a

/-! ## Tidy trees -/

/-- The trees without a comma that ends them. -/
def withoutLastComma : List ParseTree → List ParseTree
  | [] => []
  | [.leaf .comma _ _] => []
  | t :: rest => t :: withoutLastComma rest

/-- Either no comma ends the trees, or just the comma is left out. -/
theorem withoutLastComma_cases (ts : List ParseTree) : withoutLastComma ts = ts ∨
    ∃ start text, ts = withoutLastComma ts ++ [ParseTree.leaf .comma start text] := by
  fun_induction withoutLastComma ts with
  | case1 => exact Or.inl rfl
  | case2 start text => exact Or.inr ⟨start, text, rfl⟩
  | case3 t rest _ ih =>
    rcases ih with ih | ⟨start, text, ih⟩
    · exact Or.inl (by rw [ih])
    · exact Or.inr ⟨start, text, by rw [List.cons_append, ← ih]⟩

/-- The children of a node without a dangling comma. -/
def Label.tidied : Label → List ParseTree → List ParseTree
  | .phrase .forDeclaration, ts => withoutLastComma ts
  | _, ts => ts

mutual

/-- The tree without the dangling commas of declarations. -/
def ParseTree.tidy : ParseTree → ParseTree
  | .leaf t start text => .leaf t start text
  | .node label children => .node label (label.tidied (tidyAll children))

/-- The trees without the dangling commas of declarations. -/
def tidyAll : List ParseTree → List ParseTree
  | [] => []
  | t :: rest => t.tidy :: tidyAll rest

end

theorem tidyAll_eq_map (ts : List ParseTree) : tidyAll ts = ts.map ParseTree.tidy := by
  induction ts with
  | nil => rfl
  | cons t rest ih => rw [tidyAll, ih, List.map_cons]

@[simp] theorem tidyAll_append (ts us : List ParseTree) :
    tidyAll (ts ++ us) = tidyAll ts ++ tidyAll us := by
  simp [tidyAll_eq_map]

theorem tidied_of_ne {p : Phrase} (hp : p ≠ .forDeclaration) (ts : List ParseTree) :
    Label.tidied (.phrase p) ts = ts := by
  cases p <;> first | rfl | exact absurd rfl hp

theorem withoutLastComma_append (ts : List ParseTree) (start : Nat) (text : String) :
    withoutLastComma (ts ++ [ParseTree.leaf .comma start text]) = ts := by
  induction ts with
  | nil => rfl
  | cons t rest ih =>
    cases rest with
    | nil => cases t <;> simp [withoutLastComma]
    | cons u rest =>
      rw [List.cons_append, withoutLastComma, ih]
      simp

theorem withoutLastComma_of_node (ts : List ParseTree) (label : Label)
    (children : List ParseTree) :
    withoutLastComma (ts ++ [ParseTree.node label children])
      = ts ++ [ParseTree.node label children] := by
  induction ts with
  | nil => rfl
  | cons t rest ih =>
    rw [List.cons_append, withoutLastComma, ih]
    simp

/-- The leaf of a token is found at the place behind the trivia. -/
theorem tokenAt_eq_leaf {t : Token} {s a : Place} {leaf : ParseTree}
    (h : tokenAt t s = some (leaf, a)) : ∃ start text, leaf = .leaf t start text := by
  simp only [tokenAt, Option.map_eq_some_iff, Prod.mk.injEq] at h
  obtain ⟨n, -, rfl, -⟩ := h
  exact ⟨_, _, rfl⟩

/-- A lexeme is a leaf, or a node of a name or a sign around one. -/
theorem LexemeAt.cases {x : Pattern} (hx : x.isLexeme = true) {s a : Place} {t : ParseTree}
    (h : LexemeAt x s t a) : ∃ k start text,
    t = .leaf k start text ∨ t = .node (.phrase .identifier) [.leaf k start text] ∨
      t = .node (.phrase .assignSign) [.leaf k start text] := by
  unfold Pattern.isLexeme at hx
  split at hx
  · cases h with
    | token h =>
      obtain ⟨start, text, rfl⟩ := tokenAt_eq_leaf h
      exact ⟨_, start, text, .inl rfl⟩
  · obtain ⟨leaf, heq, -, hleaf | hleaf⟩ := takes_identifier.1 h <;>
    · obtain ⟨start, text, rfl⟩ := tokenAt_eq_leaf hleaf
      exact ⟨_, start, text, .inr (.inl (List.cons.inj heq).1)⟩
  · obtain ⟨leaf, heq, hleaf, -⟩ := takes_assignSign.1 h
    obtain ⟨start, text, rfl⟩ := tokenAt_eq_leaf hleaf
    exact ⟨_, start, text, .inr (.inr (List.cons.inj heq).1)⟩
  · cases hx

/-- A lexeme is tidy. -/
theorem LexemeAt.tidy {x : Pattern} (hx : x.isLexeme = true) {s a : Place} {t : ParseTree}
    (h : LexemeAt x s t a) : t.tidy = t := by
  obtain ⟨k, start, text, rfl | rfl | rfl⟩ := h.cases hx <;> rfl

/-! ## Danglers -/

/-- The pattern ends in the bindings of a declaration, whose comma may dangle. -/
def Pattern.trails : Pattern → Bool
  | .tail .comma (.phrase .forBinding) => true
  | .seq _ y => y.trails
  | _ => false

/-- The separators with which an expression may break off. -/
def expressionDanglers : List Token := .period :: Level.all.map Level.operator

/-- The separators with which a phrase may break off, but for the commas that tidying removes. -/
def Phrase.danglers : Phrase → List Token
  | .hierarchicalName | .arrayName | .routineName | .variableReference | .lvalue
  | .stepExpression | .call | .routineCall | .unary | .primary => [.period]
  | .chain level => .period :: (Level.all.dropWhile (· ≠ level)).map Level.operator
  | .expression | .conditionalExpression | .argument | .forBinding | .forDeclaration
  | .forStepItem | .attributeEntry | .variableAssignment | .operatorAssignment =>
    expressionDanglers
  | .arguments | .variableAssignments | .forInit | .forInitAssignments | .forInitDeclarations
  | .forStep => .comma :: expressionDanglers
  | _ => []

/-- The separators with which a pattern may break off. -/
def Pattern.danglers : Pattern → List Token
  | .token _ | .absent _ => []
  | .phrase p => p.danglers
  | .seq x y => y.danglers ++ if y.nullable then x.danglers else []
  | .alt x y => x.danglers ++ y.danglers
  | .opt x | .many x => x.danglers
  | .tail t x => (if (Pattern.tail t x).trails then [] else [t]) ++ x.danglers

/-- Whatever follows a part of the pattern excludes the danglers of that part. -/
def Pattern.isSealed : Pattern → Bool
  | .token _ | .phrase _ => true
  | .seq x y =>
    x.isSealed && y.isSealed && !x.trails &&
      x.danglers.all fun d => y.openers.all fun f => lexemeExcludes (.token d) f
  | .alt x y => x.isSealed && y.isSealed && !x.trails && !y.trails
  | .opt x => x.isSealed && !x.trails
  | .many x =>
    x.isSealed && !x.trails &&
      x.danglers.all fun d => x.openers.all fun f => lexemeExcludes (.token d) f
  | .tail t x =>
    x.isSealed && !x.trails && x.danglers.all fun d => lexemeExcludes (.token d) (.token t)
  | .absent _ => false

theorem Phrase.body_isSealed {p : Phrase} (hp : (Pattern.phrase p).isLexeme = false) :
    p.body.isSealed = true ∧ (∀ d ∈ p.body.danglers, d ∈ p.danglers) ∧
      (p.body.trails = true → p = .forDeclaration) := by
  revert p
  decide +kernel

/-- A pattern behind a dangler takes nothing if all its openers exclude the dangler. -/
theorem Takes.eq_of_dangler {y : Pattern} {s a : Place} {ts : List ParseTree}
    (h : Takes y s ts a) {ds : List Token} {d : Token} (hd : d ∈ ds) (hs : Stands d s)
    (hsealed : (ds.all fun d => y.openers.all fun f => lexemeExcludes (.token d) f) = true) :
    a = s := by
  rcases h.opened with ha | ⟨f, hf, hm⟩
  · exact ha
  · have hex := List.all_eq_true.1 (List.all_eq_true.1 hsealed d hd) f hf
    exact absurd hm (not_matches_of_excludes hex (matches_token.2 hs))

/-- The reading ends in a node if it is not empty. -/
theorem Shape.tail_last {σ : Type} {lexeme : Pattern → σ → ParseTree → σ → Prop} {t : Token}
    {p : Phrase} (hp : (Pattern.phrase p).isLexeme = false) {s a : σ} {ts : List ParseTree}
    (h : Shape lexeme (.tail t (.phrase p)) s ts a) :
    ts = [] ∨ ∃ us cs, ts = us ++ [ParseTree.node (.phrase p) cs] := by
  generalize hx : Pattern.tail t (.phrase p) = x at h
  induction h with
  | last => exact Or.inl rfl
  | @next t' x' s mark m us n vs a hm hitem hr _ ih =>
    cases hx
    obtain ⟨cs, rfl, -⟩ := (shape_phrase hp).1 hitem
    rcases ih rfl with rfl | ⟨ws, ds, rfl⟩
    · exact Or.inr ⟨[mark], cs, rfl⟩
    · exact Or.inr ⟨mark :: [ParseTree.node (.phrase p) cs] ++ ws, ds, by simp⟩
  | lexeme hl => rw [← hx] at hl; cases hl
  | _ => cases hx

/-- The reading of a declaration does not end in a comma. -/
theorem Reads.withoutLastComma {s a : Place} {ts : List ParseTree}
    (h : Reads Phrase.forDeclaration.body s ts a) : withoutLastComma ts = ts := by
  simp only [Phrase.body, Pattern.row, Pattern.separated, shape_seq] at h
  obtain ⟨us, m, vs, rfl, -, ws, n, xs, rfl, -, ys, l, zs, rfl, hb, ht⟩ := h
  obtain ⟨cs, rfl, -⟩ := (shape_phrase rfl).1 hb
  rcases ht.tail_last rfl with rfl | ⟨as, ds, rfl⟩
  · have := withoutLastComma_of_node (us ++ ws) (.phrase .forBinding) cs
    simpa using this
  · have := withoutLastComma_of_node (us ++ (ws ++ ([ParseTree.node (.phrase .forBinding) cs] ++ as)))
      (.phrase .forBinding) ds
    simpa using this

/-- The second trees are the tidy first ones, but for a comma that ends them. -/
def Tidied (x : Pattern) (ts us : List ParseTree) : Prop :=
  tidyAll ts = us ∨
    (x.trails = true ∧ ∃ start text, tidyAll ts = us ++ [ParseTree.leaf .comma start text])

theorem Tidied.eq {x : Pattern} {ts us : List ParseTree} (h : Tidied x ts us)
    (hx : x.trails = false) : tidyAll ts = us := by
  rcases h with h | ⟨ht, -⟩
  · exact h
  · rw [hx] at ht
    cases ht

section Tidied

variable {x y z : Pattern} {ts us vs ws : List ParseTree}

theorem Tidied.within (h : Tidied x ts us) (hx : x.trails = false) : Tidied y ts us :=
  Or.inl (h.eq hx)

/-- Only the last part may end in a comma that tidying removes. -/
theorem Tidied.append (hfirst : Tidied x ts us) (hx : x.trails = false) (hlast : Tidied y vs ws)
    (hz : y.trails = true → z.trails = true) : Tidied z (ts ++ vs) (us ++ ws) := by
  rcases hlast with hlast | ⟨hy, start, text, hlast⟩
  · exact Or.inl (by rw [tidyAll_append, hfirst.eq hx, hlast])
  · exact Or.inr ⟨hz hy, start, text, by
      rw [tidyAll_append, hfirst.eq hx, hlast, List.append_assoc]⟩

theorem Tidied.cons {mark : ParseTree} (hmark : mark.tidy = mark) (h : Tidied x ts us) :
    Tidied x (mark :: ts) (mark :: us) := by
  rcases h with h | ⟨hx, start, text, h⟩
  · exact Or.inl (by rw [tidyAll, hmark, h])
  · exact Or.inr ⟨hx, start, text, by rw [tidyAll, hmark, h, List.cons_append]⟩

/-- Tidying the node of a phrase removes the comma that its pattern may have left. -/
theorem Tidied.body {p : Phrase} (h : Tidied p.body ts us) {s a : Place}
    (hreads : Reads p.body s us a) (hp : p.body.trails = true → p = .forDeclaration) :
    (ParseTree.node (.phrase p) ts).tidy = .node (.phrase p) us := by
  rw [ParseTree.tidy]
  by_cases hdecl : p = .forDeclaration
  · subst hdecl
    rcases h with h | ⟨-, start, text, h⟩
    · rw [h, Label.tidied, hreads.withoutLastComma]
    · rw [h, Label.tidied, withoutLastComma_append us start text]
  · rw [tidied_of_ne hdecl, h.eq (Bool.eq_false_iff.2 fun ht => hdecl (hp ht))]

end Tidied

/-- What a pattern takes is a reading, up to tidying, unless one of its danglers stands behind. -/
theorem Takes.reads_or_dangles {x : Pattern} {s a : Place} {ts : List ParseTree}
    (h : Takes x s ts a) (hx : x.isSealed = true) :
    (∃ us, Reads x s us a ∧ Tidied x ts us) ∨ ∃ d ∈ x.danglers, Stands d a := by
  -- A dangler behind a part is excluded by whatever may follow there, so that nothing follows and
  -- it stands behind the whole.
  induction h using Takes.induct with
  | @token t s leaf b h =>
    refine Or.inl ⟨[leaf], .lexeme rfl (.token h), Or.inl ?_⟩
    simp [tidyAll, LexemeAt.tidy (x := .token t) rfl (.token h)]
  | @phrase p s ts b h ih =>
    cases hp : (Pattern.phrase p).isLexeme with
    | true =>
      refine Or.inl ⟨_, .lexeme hp (.phrase h), Or.inl ?_⟩
      simp [tidyAll, LexemeAt.tidy hp (.phrase h)]
    | false =>
      obtain ⟨hsealed, hdanglers, htrails⟩ := Phrase.body_isSealed hp
      rcases ih hsealed with ⟨us, hreads, htidy⟩ | ⟨d, hd, hstands⟩
      · refine Or.inl ⟨_, .phrase hp hreads, Or.inl ?_⟩
        simp [tidyAll, htidy.body hreads htrails]
      · exact Or.inr ⟨d, hdanglers d hd, hstands⟩
  | @seq x y s ts₁ m ts₂ b hx' hy' ihx ihy =>
    simp only [Pattern.isSealed, Bool.and_eq_true, Bool.not_eq_true'] at hx
    obtain ⟨⟨⟨hsx, hsy⟩, htx⟩, hfollow⟩ := hx
    rcases ihx hsx with ⟨us, hrx, hux⟩ | ⟨d, hd, hstands⟩
    · rcases ihy hsy with ⟨vs, hry, hvy⟩ | ⟨d, hd, hstands⟩
      · exact Or.inl ⟨us ++ vs, .seq hrx hry, hux.append htx hvy id⟩
      · exact Or.inr ⟨d, by simp [Pattern.danglers, hd], hstands⟩
    · have ha := Takes.eq_of_dangler hy' hd hstands hfollow
      subst ha
      refine Or.inr ⟨d, ?_, hstands⟩
      cases hn : y.nullable with
      | true => simp [Pattern.danglers, hn, hd]
      | false =>
        have := Takes.lt hy' hn
        omega
  | altFirst _ ihx =>
    simp only [Pattern.isSealed, Bool.and_eq_true, Bool.not_eq_true'] at hx
    rcases ihx hx.1.1.1 with ⟨us, hreads, hu⟩ | ⟨d, hd, hstands⟩
    · exact Or.inl ⟨us, .first hreads, hu.within hx.1.2⟩
    · exact Or.inr ⟨d, by simp [Pattern.danglers, hd], hstands⟩
  | altSecond _ _ ihy =>
    simp only [Pattern.isSealed, Bool.and_eq_true, Bool.not_eq_true'] at hx
    rcases ihy hx.1.1.2 with ⟨us, hreads, hu⟩ | ⟨d, hd, hstands⟩
    · exact Or.inl ⟨us, .second hreads, hu.within hx.2⟩
    · exact Or.inr ⟨d, by simp [Pattern.danglers, hd], hstands⟩
  | opt _ ihx =>
    simp only [Pattern.isSealed, Bool.and_eq_true, Bool.not_eq_true'] at hx
    rcases ihx hx.1 with ⟨us, hreads, hu⟩ | ⟨d, hd, hstands⟩
    · exact Or.inl ⟨us, .given hreads, hu.within hx.2⟩
    · exact Or.inr ⟨d, hd, hstands⟩
  | optNone => exact Or.inl ⟨[], .omitted, Or.inl rfl⟩
  | manyStop => exact Or.inl ⟨[], .stop, Or.inl rfl⟩
  | @manyStep x s ts₁ m ts₂ b hx' hr' ihx ihr =>
    have hall := hx
    simp only [Pattern.isSealed, Bool.and_eq_true, Bool.not_eq_true'] at hx
    obtain ⟨⟨hsx, htx⟩, hfollow⟩ := hx
    rcases ihx hsx with ⟨us, hrx, hux⟩ | ⟨d, hd, hstands⟩
    · rcases ihr hall with ⟨vs, hrr, hv⟩ | hd
      · exact Or.inl ⟨us ++ vs, .step hrx hrr, hux.append htx hv id⟩
      · exact Or.inr hd
    · have ha := Takes.eq_of_dangler hr' hd hstands hfollow
      subst ha
      exact Or.inr ⟨d, hd, hstands⟩
  | tailStop => exact Or.inl ⟨[], .last, Or.inl rfl⟩
  | @tailDangling t x s mark m h _ =>
    cases ht : (Pattern.tail t x).trails with
    | true =>
      -- the comma behind the bindings of a declaration is what tidying removes
      have hc : t = .comma := by
        unfold Pattern.trails at ht
        split at ht
        · next heq => cases heq; rfl
        · next heq => cases heq
        · cases ht
      subst hc
      obtain ⟨start, text, rfl⟩ := tokenAt_eq_leaf h
      exact Or.inl ⟨[], .last, Or.inr ⟨ht, start, text, rfl⟩⟩
    | false =>
      exact Or.inr ⟨t, by simp [Pattern.danglers, ht], stands_of_tokenAt h⟩
  | @tailStep t x s mark m ts₁ n ts₂ b h hx' hr' ihx ihr =>
    have hall := hx
    simp only [Pattern.isSealed, Bool.and_eq_true, Bool.not_eq_true'] at hx
    obtain ⟨⟨hsx, htx⟩, hfollow⟩ := hx
    rcases ihx hsx with ⟨us, hrx, hux⟩ | ⟨d, hd, hstands⟩
    · rcases ihr hall with ⟨vs, hrr, hv⟩ | ⟨d, hd, hstands⟩
      · have hmark := LexemeAt.tidy (x := .token t) rfl (.token h)
        exact Or.inl ⟨mark :: us ++ vs, .next (.token h) hrx hrr,
          (hux.append htx hv id).cons hmark⟩
      · exact Or.inr ⟨d, hd, hstands⟩
    · have ha := Takes.eq_of_dangler hr' hd hstands
        (by simpa [Pattern.openers] using hfollow)
      subst ha
      exact Or.inr ⟨d, by simp [Pattern.danglers, hd], hstands⟩
  | absent => cases hx

/-- What a pattern takes is a reading if something stands behind it that excludes its danglers. -/
theorem Takes.reads {x f : Pattern} {s a : Place} {ts : List ParseTree} (h : Takes x s ts a)
    (hx : x.isSealed = true) (ht : x.trails = false)
    (hf : (x.danglers.all fun d => lexemeExcludes (.token d) f) = true) (ha : Matches f a) :
    Reads x s (tidyAll ts) a := by
  rcases h.reads_or_dangles hx with ⟨us, hreads, hu⟩ | ⟨d, hd, hstands⟩
  · rw [hu.eq ht]
    exact hreads
  · have := not_matches_of_excludes (List.all_eq_true.1 hf d hd) (matches_token.2 hstands)
    exact absurd ha this

/-- What a pattern without danglers takes is a reading. -/
theorem Takes.reads_exact {x : Pattern} {s a : Place} {ts : List ParseTree} (h : Takes x s ts a)
    (hx : x.isSealed = true) (ht : x.trails = false) (hd : x.danglers = []) :
    Reads x s (tidyAll ts) a := by
  rcases h.reads_or_dangles hx with ⟨us, hreads, hu⟩ | ⟨d, hmem, -⟩
  · rw [hu.eq ht]
    exact hreads
  · rw [hd] at hmem
    cases hmem

/-- What a phrase without danglers takes is a reading. -/
theorem Takes.reads_phrase {p : Phrase} {s a : Place} {ts : List ParseTree}
    (h : Takes (.phrase p) s ts a) (hp : p.danglers = []) :
    Reads (.phrase p) s (tidyAll ts) a := h.reads_exact rfl rfl hp

end VerilogLoops.Grammar
