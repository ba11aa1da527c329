import VerilogLoops.Proofs.Glue

/-!
# Clear parse trees

Two places in the grammar ask for a keyword without having to: a declaration may begin with `var`,
and `super` may follow `this`. If an identifier glued to such a keyword stands there, the keyword is
taken and the identifier is not. A *clear* tree has no such identifier in these places. Every tree
that is taken is clear, and so is what becomes of it by tidying.
-/

namespace VerilogLoops.Grammar

open VerilogLoops.Text VerilogLoops.Lexical

/-- The text of the first leaf. -/
def ParseTree.firstText : ParseTree → String
  | .leaf _ _ text => text
  | .node _ [] => ""
  | .node _ (t :: _) => t.firstText

/-- The text of the first leaf of some trees. -/
def firstTextOf : List ParseTree → String
  | [] => ""
  | t :: _ => t.firstText

/-- The first leaf begins with the word and a dollar sign. -/
def ParseTree.startsGlued (word : String) (t : ParseTree) : Bool :=
  (word.toList ++ ['$']).isPrefixOf t.firstText.toList

/-- The trees begin with an identifier glued to `var`. -/
def varGlued : List ParseTree → Bool
  | t :: _ => t.startsGlued "var"
  | [] => false

/-- The tree is the scope `this`. -/
def ParseTree.isThis : ParseTree → Bool
  | .node (.phrase .qualifier) [.node (.phrase .classHandle) [.leaf .keywordThis _ _], _] => true
  | _ => false

/-- The trees begin with `this` and an identifier glued to `super`. -/
def superGlued : List ParseTree → Bool
  | q :: t :: _ => q.isThis && t.startsGlued "super"
  | _ => false

/-- The children of a node do not begin with an identifier that is glued to a keyword where the
keyword would be taken. -/
def Label.admits : Label → List ParseTree → Bool
  | .phrase .forDeclaration, ts => !varGlued ts
  | .phrase .arrayName, ts | .phrase .routineName, ts | .phrase .variableReference, ts =>
    !superGlued ts
  | _, _ => true

mutual

/-- No node of the tree has children that it does not admit. -/
def ParseTree.isClear : ParseTree → Bool
  | .leaf .. => true
  | .node label children => label.admits children && allClear children

/-- The trees are clear. -/
def allClear : List ParseTree → Bool
  | [] => true
  | t :: rest => t.isClear && allClear rest

end

theorem allClear_iff {ts : List ParseTree} : allClear ts = true ↔ ∀ t ∈ ts, t.isClear = true := by
  induction ts with
  | nil => simp [allClear]
  | cons t rest ih => simp [allClear, ih]

@[simp] theorem allClear_nil : allClear [] = true := rfl

@[simp] theorem allClear_cons (t : ParseTree) (ts : List ParseTree) :
    allClear (t :: ts) = (t.isClear && allClear ts) := rfl

@[simp] theorem isClear_node (label : Label) (ts : List ParseTree) :
    (ParseTree.node label ts).isClear = (label.admits ts && allClear ts) := rfl

@[simp] theorem allClear_append (ts us : List ParseTree) :
    allClear (ts ++ us) = (allClear ts && allClear us) := by
  induction ts with
  | nil => rfl
  | cons t rest ih => simp [ih, Bool.and_assoc]

theorem isClear_leaf {t : Token} {s a : Place} {leaf : ParseTree}
    (h : tokenAt t s = some (leaf, a)) : leaf.isClear = true := by
  obtain ⟨start, text, rfl⟩ := tokenAt_eq_leaf h
  rfl

/-- The phrases that admit any children. -/
theorem admits_of_ne {p : Phrase}
    (hp : p ≠ .forDeclaration ∧ p ≠ .arrayName ∧ p ≠ .routineName ∧ p ≠ .variableReference)
    (ts : List ParseTree) : Label.admits (.phrase p) ts = true := by
  obtain ⟨hd, ha, hr, hv⟩ := hp
  cases p <;> first | rfl | contradiction

/-! ## What is taken is clear -/

/-- What is taken begins with the text of its first leaf, if anything is. -/
theorem Takes.firstText {x : Pattern} {s a : Place} {ts : List ParseTree} (h : Takes x s ts a) :
    (ts = [] ∧ a = s) ∨ (ts ≠ [] ∧ ∃ rest,
      s.rest.drop (triviaLength s.rest) = (firstTextOf ts).toList ++ rest) := by
  have ofToken : ∀ {t : Token} {s a : Place} {leaf : ParseTree} (ts : List ParseTree),
      tokenAt t s = some (leaf, a) → leaf :: ts ≠ [] ∧ ∃ rest,
        s.rest.drop (triviaLength s.rest) = (firstTextOf (leaf :: ts)).toList ++ rest := by
    intro t s a leaf ts h
    obtain ⟨text, hrest, -, rfl, -⟩ := tokenAt_iff.1 h
    exact ⟨by simp, a.rest, by rw [hrest]; simp [firstTextOf, ParseTree.firstText]⟩
  -- a first part that takes nothing leaves the place to the second one
  have ofAppend : ∀ {s m b : Place} {ts us : List ParseTree},
      (ts = [] ∧ m = s) ∨ (ts ≠ [] ∧ ∃ rest,
        s.rest.drop (triviaLength s.rest) = (firstTextOf ts).toList ++ rest) →
      (us = [] ∧ b = m) ∨ (us ≠ [] ∧ ∃ rest,
        m.rest.drop (triviaLength m.rest) = (firstTextOf us).toList ++ rest) →
      (ts ++ us = [] ∧ b = s) ∨ (ts ++ us ≠ [] ∧ ∃ rest,
        s.rest.drop (triviaLength s.rest) = (firstTextOf (ts ++ us)).toList ++ rest) := by
    rintro s m b ts us (⟨rfl, rfl⟩ | ⟨hne, rest, hrest⟩) hus
    · exact hus
    · cases ts with
      | nil => exact absurd rfl hne
      | cons t ts => exact Or.inr ⟨by simp, rest, hrest⟩
  induction h using Takes.induct with
  | token h => exact Or.inr (ofToken [] h)
  | @phrase p s us b h ih =>
    rcases ih with ⟨rfl, rfl⟩ | ⟨-, rest, hrest⟩
    · have := Takes.lt h p.body_nullable
      omega
    · refine Or.inr ⟨by simp, rest, ?_⟩
      rw [hrest]
      cases us <;> rfl
  | seq _ _ ihx ihy => exact ofAppend ihx ihy
  | altFirst _ ih | altSecond _ _ ih | opt _ ih => exact ih
  | manyStep _ _ ihx ihr => exact ofAppend ihx ihr
  | tailStep h _ _ _ _ | tailDangling h _ => exact Or.inr (ofToken _ h)
  | optNone | manyStop | tailStop | absent => exact Or.inl ⟨rfl, rfl⟩

/-- A keyword stands where a tree begins that is glued to it. -/
theorem stands_of_startsGlued {k : Token} {word : String} (hk : k.spellings = [.keyword word])
    {x : Pattern} {s a : Place} {t : ParseTree} {ts : List ParseTree} (h : Takes x s (t :: ts) a)
    (ht : t.startsGlued word = true) : Stands k s := by
  rcases h.firstText with ⟨hnil, -⟩ | ⟨-, rest, hrest⟩
  · cases hnil
  · obtain ⟨more, hmore⟩ := List.isPrefixOf_iff_prefix.1 ht
    refine stands_iff.2 ⟨word.toList.length, ?_⟩
    have hfit : (Spelling.keyword word).fits (s.rest.drop (triviaLength s.rest)) = true := by
      rw [Spelling.fits_iff]
      refine ⟨'$' :: (more ++ rest), ?_, fun c hc => ?_⟩
      · rw [hrest, firstTextOf, ← hmore]
        simp [Spelling.keyword]
      · cases hc
        exact (by decide : isWordCharacter '$' = false)
    rw [Token.length?_of_isSpelled (by simp [Token.isSpelled, hk]), hk, firstFit, List.find?_cons,
      hfit]
    rfl

/-- What a declaration takes is not glued to `var`, unless `var` is taken. -/
theorem admits_forDeclaration {s a : Place} {ts : List ParseTree}
    (h : Takes Phrase.forDeclaration.body s ts a) :
    Label.admits (.phrase .forDeclaration) ts = true := by
  simp only [Phrase.body, Pattern.row, takes_seq, takes_opt, takes_token] at h
  obtain ⟨us, m, vs, rfl, ⟨leaf, rfl, hvar⟩ | ⟨hno, rfl, rfl⟩, us', m', vs', rfl, htype, -⟩ := h
  · obtain ⟨start, text, rfl, hw⟩ := isLeaf_of_tokenAt hvar
    have hform : text = "var" := hw.hasForm
    simp [hform, Label.admits, varGlued, ParseTree.startsGlued, ParseTree.firstText]
  · obtain ⟨ws, rfl, -⟩ := takes_phrase.1 htype
    have hno' : ¬Stands .keywordVar m := fun h => hno.not_matches (matches_token.2 h)
    simp only [List.nil_append, List.cons_append, Label.admits, varGlued, Bool.not_eq_true']
    cases hg : (ParseTree.node (.phrase .dataType) ws).startsGlued "var" with
    | false => rfl
    | true => exact absurd (stands_of_startsGlued rfl htype hg) hno'

theorem isThis_iff {t : ParseTree} : t.isThis = true ↔ ∃ start text u,
    t = .node (.phrase .qualifier)
      [.node (.phrase .classHandle) [.leaf .keywordThis start text], u] := by
  constructor
  · intro h
    unfold ParseTree.isThis at h
    split at h
    · exact ⟨_, _, _, rfl⟩
    · cases h
  · rintro ⟨start, text, u, rfl⟩
    rfl

/-- If the class handle of a qualifier is `this` alone, `super` does not stand behind it. -/
theorem not_stands_super {s m : Place} {q : ParseTree} (h : Takes (.phrase .qualifier) s [q] m)
    (hq : q.isThis = true) : ¬Stands .keywordSuper m := by
  intro hsuper
  obtain ⟨start, text, t, rfl⟩ := isThis_iff.1 hq
  obtain ⟨us, heq, hbody⟩ := takes_phrase.1 h
  cases heq
  simp only [Phrase.body, Pattern.row, Pattern.oneOf, takes_alt, takes_seq, takes_token] at hbody
  rcases hbody with ⟨us, c, vs, heq, hhandle, point, rfl, hpoint⟩ | ⟨-, hscope⟩
  · obtain ⟨ws, rfl, hthis⟩ := takes_phrase.1 hhandle
    cases heq
    simp only [Phrase.body, Pattern.row, Pattern.oneOf, takes_alt, takes_seq, takes_token] at hthis
    rcases hthis with ⟨_, _, _, heq, ⟨l, rfl, -⟩, _, _, _, rfl, ⟨l', rfl, -⟩, l'', rfl, -⟩ |
      ⟨hno, ⟨l, heq, hthis⟩ | ⟨-, l, heq, hl⟩⟩
    · simp at heq
    · obtain ⟨l', a, hl'⟩ := exists_of_stands hsuper
      exact hno.not_matches ⟨_, _, .seq (.token hthis) (.seq (.token hpoint) (.token hl'))⟩
    · cases heq
      obtain ⟨_, _, hleaf⟩ := tokenAt_eq_leaf hl
      cases hleaf
  · obtain ⟨ws, heq, -⟩ := takes_phrase.1 hscope
    cases heq

/-- What a name with a scope takes is not glued to `super` behind `this`. -/
theorem superGlued_of_takes {y : Pattern} {s a : Place} {ts : List ParseTree}
    (hy : ∀ m vs b, Takes y m vs b → ∃ us rest, vs = .node (.phrase .hierarchicalName) us :: rest)
    (h : Takes (.seq (.opt (.phrase .qualifier)) y) s ts a) : superGlued ts = false := by
  obtain ⟨us, m, vs, rfl, hx, hname⟩ := takes_seq.1 h
  obtain ⟨ws, rest, rfl⟩ := hy _ _ _ hname
  rcases takes_opt.1 hx with hq | ⟨-, rfl, -⟩
  · obtain ⟨qs, rfl, -⟩ := takes_phrase.1 hq
    show (_ && _) = false
    rw [Bool.and_eq_false_iff, ← Bool.not_eq_true, ← Bool.not_eq_true]
    refine Decidable.or_iff_not_imp_left.2 fun hthis hg => ?_
    exact not_stands_super hq (Decidable.not_not.1 hthis) (stands_of_startsGlued rfl hname hg)
  · cases rest <;> rfl

/-- No phrase takes children that it does not admit. -/
theorem admits_of_takes {p : Phrase} {s a : Place} {ts : List ParseTree}
    (h : Takes p.body s ts a) : Label.admits (.phrase p) ts = true := by
  have ofName : ∀ m vs b, Takes (.phrase .hierarchicalName) m vs b →
      ∃ us rest, vs = .node (.phrase .hierarchicalName) us :: rest := by
    intro m vs b hv
    obtain ⟨us, rfl, -⟩ := takes_phrase.1 hv
    exact ⟨us, [], rfl⟩
  cases p with
  | forDeclaration => exact admits_forDeclaration h
  | arrayName | routineName => simp [Label.admits, superGlued_of_takes ofName h]
  | variableReference =>
    have hglued : superGlued ts = false := by
      refine superGlued_of_takes (fun m vs b hv => ?_) h
      obtain ⟨us, n, ws, rfl, hname, -⟩ := takes_seq.1 hv
      obtain ⟨us, rest, rfl⟩ := ofName _ _ _ hname
      exact ⟨us, rest ++ ws, rfl⟩
    simp [Label.admits, hglued]
  | _ => exact admits_of_ne (by simp) ts

/-- What is taken is clear. -/
theorem Takes.allClear {x : Pattern} {s a : Place} {ts : List ParseTree} (h : Takes x s ts a) :
    allClear ts = true := by
  induction h using Takes.induct with
  | token h => simp [isClear_leaf h]
  | phrase h ih => simp [ParseTree.isClear, admits_of_takes h, ih]
  | seq _ _ ihx ihy | manyStep _ _ ihx ihy => simp [ihx, ihy]
  | altFirst _ ih | altSecond _ _ ih | opt _ ih => exact ih
  | tailDangling h _ => simp [isClear_leaf h]
  | tailStep h _ _ ihx ihr => simp [isClear_leaf h, ihx, ihr]
  | optNone | manyStop | tailStop | absent => rfl

/-! ## Tidying keeps trees clear -/

/-- Tidying leaves the first child where it is, unless it was the last. -/
theorem tidied_cons (label : Label) (t : ParseTree) (ts : List ParseTree) :
    label.tidied (t :: ts) = [] ∨ ∃ us, label.tidied (t :: ts) = t :: us := by
  unfold Label.tidied
  split
  · cases ts with
    | nil =>
      cases t with
      | leaf u start text =>
        cases u <;> first | exact Or.inl rfl | exact Or.inr ⟨_, rfl⟩
      | node => exact Or.inr ⟨_, rfl⟩
    | cons u ts => exact Or.inr ⟨withoutLastComma (u :: ts), by simp [withoutLastComma]⟩
  · exact Or.inr ⟨ts, rfl⟩

theorem mem_of_mem_withoutLastComma {ts : List ParseTree} {t : ParseTree}
    (h : t ∈ withoutLastComma ts) : t ∈ ts := by
  rcases withoutLastComma_cases ts with hts | ⟨start, text, hts⟩
  · rwa [hts] at h
  · rw [hts]
    exact List.mem_append_left _ h

theorem firstText_tidy : ∀ t : ParseTree, t.tidy.firstText = t.firstText ∨ t.tidy.firstText = ""
  | .leaf .. => Or.inl rfl
  | .node label [] => by
    cases label with
    | phrase p => cases p <;> exact Or.inl rfl
    | whole => exact Or.inl rfl
  | .node label (t :: rest) => by
    rw [ParseTree.tidy, tidyAll]
    rcases tidied_cons label t.tidy (tidyAll rest) with h | ⟨us, h⟩
    · rw [h]
      exact Or.inr rfl
    · rw [h]
      exact firstText_tidy t

theorem startsGlued_tidy {word : String} {t : ParseTree} (h : t.tidy.startsGlued word = true) :
    t.startsGlued word = true := by
  rcases firstText_tidy t with heq | heq
  · rwa [ParseTree.startsGlued, heq] at h
  · rw [ParseTree.startsGlued, heq, List.isPrefixOf_iff_prefix] at h
    simp at h

/-- A tree that is tidied into a node is such a node. -/
theorem node_of_tidy {p : Phrase} (hp : p ≠ .forDeclaration) {t : ParseTree}
    {us : List ParseTree} (h : t.tidy = .node (.phrase p) us) :
    ∃ ts, t = .node (.phrase p) ts ∧ tidyAll ts = us := by
  cases t with
  | leaf => cases h
  | node label ts =>
    rw [ParseTree.tidy] at h
    cases h
    exact ⟨ts, rfl, (tidied_of_ne hp _).symm⟩

theorem cons_of_tidyAll {ts us : List ParseTree} {u : ParseTree} (h : tidyAll ts = u :: us) :
    ∃ t rest, ts = t :: rest ∧ t.tidy = u ∧ tidyAll rest = us := by
  cases ts with
  | nil => cases h
  | cons t rest =>
    rw [tidyAll] at h
    cases h
    exact ⟨t, rest, rfl, rfl, rfl⟩

theorem varGlued_tidied (ts : List ParseTree)
    (h : varGlued (withoutLastComma (tidyAll ts)) = true) : varGlued ts = true := by
  cases ts with
  | nil => cases h
  | cons t rest =>
    rw [tidyAll] at h
    rcases tidied_cons (.phrase .forDeclaration) t.tidy (tidyAll rest) with heq | ⟨us, heq⟩ <;>
      rw [Label.tidied] at heq <;> rw [heq] at h
    · cases h
    · exact startsGlued_tidy h

theorem isThis_tidy {t : ParseTree} (h : t.tidy.isThis = true) : t.isThis = true := by
  obtain ⟨start, text, u, ht⟩ := isThis_iff.1 h
  obtain ⟨qs, rfl, hqs⟩ := node_of_tidy (by simp) ht
  obtain ⟨c, rest, rfl, hc, hrest⟩ := cons_of_tidyAll hqs
  obtain ⟨d, last, rfl, -, hlast⟩ := cons_of_tidyAll hrest
  obtain ⟨cs, rfl, hcs⟩ := node_of_tidy (by simp) hc
  obtain ⟨l, more, rfl, hl, hmore⟩ := cons_of_tidyAll hcs
  cases last with
  | cons => cases hlast
  | nil =>
    cases more with
    | cons => cases hmore
    | nil =>
      cases l with
      | node => cases hl
      | leaf =>
        cases hl
        rfl

theorem superGlued_tidyAll {ts : List ParseTree} (h : superGlued (tidyAll ts) = true) :
    superGlued ts = true := by
  cases ts with
  | nil => cases h
  | cons q ts =>
    cases ts with
    | nil => cases h
    | cons t ts =>
      simp only [tidyAll, superGlued, Bool.and_eq_true] at h ⊢
      exact ⟨isThis_tidy h.1, startsGlued_tidy h.2⟩

/-- A node admits its tidied children if it admits its children. -/
theorem admits_tidied {label : Label} {ts : List ParseTree} (h : label.admits ts = true) :
    label.admits (label.tidied (tidyAll ts)) = true := by
  cases label with
  | whole => rfl
  | phrase p =>
    cases p with
    | forDeclaration =>
      simp only [Label.admits, Label.tidied, Bool.not_eq_true', ← Bool.not_eq_true] at h ⊢
      exact fun hg => h (varGlued_tidied ts hg)
    | arrayName | routineName | variableReference =>
      simp only [Label.admits, Label.tidied, Bool.not_eq_true', ← Bool.not_eq_true] at h ⊢
      exact fun hg => h (superGlued_tidyAll hg)
    | _ => exact admits_of_ne (by simp) _

mutual

/-- A clear tree is clear when it is tidied. -/
theorem isClear_tidy : ∀ t : ParseTree, t.isClear = true → t.tidy.isClear = true
  | .leaf .., _ => rfl
  | .node label children, h => by
    simp only [ParseTree.isClear, Bool.and_eq_true] at h
    rw [ParseTree.tidy]
    simp only [ParseTree.isClear, Bool.and_eq_true]
    refine ⟨admits_tidied h.1, ?_⟩
    have hall := allClear_tidyAll children h.2
    rw [allClear_iff] at hall ⊢
    intro t ht
    refine hall t ?_
    cases label with
    | whole => exact ht
    | phrase p =>
      by_cases hp : p = .forDeclaration
      · subst hp
        rw [Label.tidied] at ht
        exact mem_of_mem_withoutLastComma ht
      · rwa [tidied_of_ne hp] at ht

/-- Clear trees are clear when they are tidied. -/
theorem allClear_tidyAll : ∀ ts : List ParseTree, allClear ts = true → allClear (tidyAll ts) = true
  | [], _ => rfl
  | t :: rest, h => by
    simp only [allClear_cons, Bool.and_eq_true] at h
    simp only [tidyAll, allClear_cons, Bool.and_eq_true]
    exact ⟨isClear_tidy t h.1, allClear_tidyAll rest h.2⟩

end

end VerilogLoops.Grammar
