import VerilogLoops.Proofs.Statement.Order

/-!
# Statements are read in one way

An ordered, clear reading of a statement is taken if what stands behind it is no part of it. The
proof goes by the length of the text: what stands further on is taken already. A statement is taken
part by part, and in front of each part the attempts that come before it in the grammar are refused.
Most of them are refused by the first lexeme. The others begin with a keyword to which an identifier
is glued, and what stands behind the keyword has been attached to it.
-/

namespace VerilogLoops.Grammar

open VerilogLoops.Text VerilogLoops.Lexical

variable {word : String} {p q : Phrase} {s b c a e m n : Place} {t u : ParseTree} {z : List Char}
  {ts us vs es : List ParseTree} {x : Pattern}

/-! ## Statements behind a glued keyword -/

/-- At a glued place nothing is read that does not begin with a dollar sign. -/
theorem Glued.not_reads (h : Glued b) (hn : x.nullable = false)
    (ho : (x.openers.all fun f => match f with
      | .token k => (k.isSpelled || k.isFree || k = .endOfInput) && !Token.opensDollar k
      | .phrase .identifier => true
      | _ => false) = true) : ¬Reads x b ts a := by
  intro hx
  obtain ⟨f, hf, hm⟩ := Reads.opener hx hn
  have hall := List.all_eq_true.1 ho f hf
  split at hall
  · next k =>
    simp only [Bool.and_eq_true, Bool.not_eq_true'] at hall
    exact h.not_stands (by simpa using hall.1) hall.2 (matches_token.1 hm)
  · obtain ⟨t, c, ht⟩ := exists_lexeme hm
    obtain ⟨leaf, -, -, hleaf | hleaf⟩ := takes_identifier.1 ht
    · exact h.not_stands rfl rfl (stands_of_tokenAt hleaf)
    · exact h.not_stands rfl rfl (stands_of_tokenAt hleaf)
  · cases hall

/-- A statement is a simple one if it has neither a label nor attributes and begins with none of the
keywords. -/
theorem simple_of_reads (hno : ∀ p ∈ [Phrase.statementLabel, .attribute, .nullStatement, .block,
      .conditional, .loop, .jump], ∀ us m, ¬Reads (.phrase p) b us m)
    (h : Reads (.phrase .statementOrNull) b ts a) :
    ∃ p us, p.isSimple = true ∧ Reads (.phrase p) b [.node (.phrase p) us] a ∧
      ts = [asStatement (.node (.phrase p) us)] := by
  obtain ⟨us, rfl, hus⟩ := (shape_phrase rfl).1 h
  rcases shape_alt.1 hus with hus | hus
  · obtain ⟨vs, rfl, hvs⟩ := (shape_phrase rfl).1 hus
    obtain ⟨ls, m, _, rfl, hlabel, hrest⟩ := shape_seq.1 hvs
    obtain ⟨as, n, is, rfl, hattrs, hitem⟩ := shape_seq.1 hrest
    rcases shape_opt.1 hlabel with ⟨rfl, rfl⟩ | hlabel
    · rcases shape_many.1 hattrs with ⟨rfl, rfl⟩ | ⟨xs, d, ys, rfl, hattr, -⟩
      · obtain ⟨ws, rfl, hws⟩ := (shape_phrase rfl).1 hitem
        have simple : ∀ {q : Phrase}, q.isSimple = true → Reads (.phrase q) n ws a →
            ∃ p us, p.isSimple = true ∧ Reads (.phrase p) n [.node (.phrase p) us] a ∧
              [ParseTree.node (.phrase .statementOrNull) [.node (.phrase .statement)
                ([] ++ ([] ++ [ParseTree.node (.phrase .statementItem) ws]))]] =
                  [asStatement (.node (.phrase p) us)] := by
          intro q hq hread
          obtain ⟨us, rfl, -⟩ := (shape_phrase
            (by rcases isSimple_cases hq with rfl | rfl | rfl <;> rfl)).1 hread
          exact ⟨q, us, hq, hread, rfl⟩
        simp only [Phrase.body, Pattern.oneOf, shape_alt] at hws
        -- of the items only the last three are left
        rcases hws with hws | hws | hws | hws | hws | hws | hws
        · exact absurd hws (hno _ (by simp) _ _)
        · exact absurd hws (hno _ (by simp) _ _)
        · exact absurd hws (hno _ (by simp) _ _)
        · exact absurd hws (hno _ (by simp) _ _)
        · exact simple rfl hws
        · exact simple rfl hws
        · exact simple rfl hws
      · exact absurd hattr (hno _ (by simp) _ _)
    · exact absurd hlabel (hno _ (by simp) _ _)
  · exact absurd hus (hno _ (by simp) _ _)

/-- A statement at a glued place is a simple one. -/
theorem simple_of_glued (hg : Glued b) (h : Reads (.phrase .statementOrNull) b ts a) :
    ∃ p us, p.isSimple = true ∧ Reads (.phrase p) b [.node (.phrase p) us] a ∧
      ts = [asStatement (.node (.phrase p) us)] := by
  refine simple_of_reads (fun p hp us m => ?_) h
  simp only [List.mem_cons, List.not_mem_nil, or_false] at hp
  rcases hp with rfl | rfl | rfl | rfl | rfl | rfl | rfl <;> exact hg.not_reads rfl (by decide)

/-- A statement that begins with an identifier glued to `else` or to `end` is a simple one if it has no
label. -/
theorem simple_of_identifier {k : Token} (hk : k = .keywordElse ∨ k = .keywordEnd)
    (hstands : Stands k b) (ht : LexemeAt (.phrase .identifier) b t c) (hcolon : ¬Stands .colon c)
    (h : Reads (.phrase .statementOrNull) b ts a) :
    ∃ p us, p.isSimple = true ∧ Reads (.phrase p) b [.node (.phrase p) us] a ∧
      ts = [asStatement (.node (.phrase p) us)] := by
  refine simple_of_reads (fun p hp us m hx => ?_) h
  have excluded : ∀ {us : List ParseTree} {m : Place}, Reads (.phrase p) b us m →
      (p.openers.all fun f => lexemeExcludes f (.token k)) = true → False := by
    intro us m hx hex
    obtain ⟨f, hf, hm⟩ := Reads.opener hx rfl
    exact not_matches_of_excludes (List.all_eq_true.1 hex f hf) hm (matches_token.2 hstands)
  simp only [List.mem_cons, List.not_mem_nil, or_false] at hp
  rcases hp with rfl | rfl | rfl | rfl | rfl | rfl | rfl
  · obtain ⟨vs, rfl, hvs⟩ := (shape_phrase rfl).1 hx
    obtain ⟨_, d, _, rfl, hid, hmark⟩ := shape_seq.1 hvs
    obtain ⟨l, rfl, hl⟩ := shape_identifier.1 hid
    obtain ⟨mark, rfl, hmark'⟩ := shape_token.1 hmark
    obtain ⟨-, rfl⟩ := Takes.unique ht hl
    exact hcolon (matches_token.1 (Takes.matches hmark'))
  all_goals exact excluded hx (by rcases hk with rfl | rfl <;> decide)

/-- A statement detaches from one keyword only. -/
theorem Detaches.unique {w : String} {ls : List Leaf} (h : Detaches word ls) (h' : Detaches w ls)
    (hword : word ∈ reservedWords) (hw : w ∈ reservedWords) : word = w := by
  obtain ⟨z, start, l, rest, rfl, -⟩ := h
  obtain ⟨z', start', l', rest', heq, -⟩ := h'
  simp only [List.cons.injEq, Leaf.mk.injEq, String.ofList_inj] at heq
  have hsame := congrArg (List.takeWhile (· ≠ '$')) heq.1.2.2
  have run : ∀ {w : String} {z : List Char}, w ∈ reservedWords →
      (w.toList ++ '$' :: z).takeWhile (· ≠ '$') = w.toList := by
    intro w z hw
    rw [List.takeWhile_append_of_pos]
    · simp
    · intro c hc
      simp only [ne_eq, decide_eq_true_eq]
      rintro rfl
      exact dollar_not_mem_reserved hw hc
  rw [run hword, run hw] at hsame
  exact String.toList_injective hsame

/-- A statement detaches only if its first leaf is an identifier. -/
theorem Detaches.token {ls : List Leaf} (h : Detaches word ls) :
    ls.head?.map Leaf.token = some .identifier := by
  obtain ⟨z, start, l, rest, rfl, -⟩ := h
  rfl

/-! ## Acceptance of statements -/

/-- Every ordered, clear reading of the phrase at the place is taken, if it is closed. -/
def Phrase.AcceptedAt (q : Phrase) (s : Place) : Prop :=
  ∀ t a, Reads (.phrase q) s [t] a → t.isClear = true → Ordered t → Closed t a →
    Accepts (.phrase q) s [t] a

/-- Statements are accepted at all places further on. -/
def AcceptedBehind (s : Place) : Prop :=
  ∀ b, b.rest.length < s.rest.length →
    Phrase.statementOrNull.AcceptedAt b ∧ Phrase.statement.AcceptedAt b

theorem AcceptedBehind.mono (h : AcceptedBehind s) (hle : b.rest.length ≤ s.rest.length) :
    AcceptedBehind b := fun d hd => h d (by omega)

/-- A tree with one tail besides its wrappers is neither open nor does it end in a block. -/
theorem closed_asStatement {p : Phrase} {us : List ParseTree} (hp : p.isTrailing = false)
    (hd : p ≠ .doWhileLoop) (hc : p ≠ .conditional) (hb : p ≠ .block) (hi : p ≠ .statementItem)
    (body : Detaches "do" (leavesOf us) → Refuses loopEnd a)
    (block : Detaches "begin" (leavesOf us) → Refuses blockEnd a) :
    Closed (asStatement (.node (.phrase p) us)) a where
  -- the tails are the two wrappers, the item and the phrase itself
  branch := by
    rintro ⟨ws, ht, -⟩
    rcases tail_asStatement hp hd ht with h | h | h | h
    · cases h
    · cases h
    · cases h
    · cases h
      exact absurd rfl hc
  body := by
    rintro ⟨ws, ht, hdet⟩
    rcases tail_asStatement hp hd ht with h | h | h | h
    · cases h
    · cases h
    · cases h
      exact body (by simpa using hdet)
    · cases h
      exact absurd rfl hi
  block := by
    rintro ⟨ws, ht, hdet⟩
    rcases tail_asStatement hp hd ht with h | h | h | h
    · cases h
    · cases h
    · cases h
      exact block (by simpa using hdet)
    · cases h
      exact absurd rfl hi
  name := by
    rintro ⟨ws, start, text, ht⟩
    rcases tail_asStatement hp hd ht with h | h | h | h
    · cases h
    · cases h
    · cases h
    · cases h
      exact absurd rfl hb

/-- The phrases of compound statements and whatever they may be part of. -/
def Phrase.isCompound : Phrase → Bool
  | .loopUnit | .doWhileLoop | .block => true
  | p => p.isTrailing

/-- There is no statement inside a phrase that is not compound. -/
theorem isTame_of_fits {r r' : Unit} (h : Shape LexemeForm x r ts r')
    (hx : (x.calls.all fun p => !p.isCompound) = true) : allTame ts = true := by
  induction h with
  | lexeme _ ht =>
    obtain ⟨_, _, _, -, rfl, -⟩ | ⟨_, _, _, -, rfl, -⟩ | ⟨_, -, rfl⟩ := ht.cases <;> rfl
  | @phrase p r ts r' hp h ih =>
    have key : ∀ p : Phrase, p.isCompound = false → (p.body.calls.all fun q => !q.isCompound) = true := by
      decide
    have hcomp : p.isCompound = false := by simpa [Pattern.calls] using hx
    have hcalls := key p hcomp
    have htame : Label.isTame (.phrase p) = true := by cases p <;> first | rfl | cases hcomp
    simp [allTame, ParseTree.isTame, htame, ih hcalls]
  | seq _ _ ihx ihy =>
    simp only [Pattern.calls, List.all_append, Bool.and_eq_true] at hx
    rw [allTame_append, ihx hx.1, ihy hx.2]
    rfl
  | first _ ih =>
    simp only [Pattern.calls, List.all_append, Bool.and_eq_true] at hx
    exact ih hx.1
  | second _ ih =>
    simp only [Pattern.calls, List.all_append, Bool.and_eq_true] at hx
    exact ih hx.2
  | given _ ih => exact ih hx
  | omitted | stop | last => rfl
  | step _ _ ihx ihr =>
    rw [allTame_append, ihx hx, ihr hx]
    rfl
  | next hm _ _ ihx ihr =>
    obtain ⟨start, text, rfl, -⟩ := hm
    simp [allTame, ParseTree.isTame, ihx hx, ihr hx]

/-- Nothing inside a phrase that is not compound takes up what stands behind it. -/
theorem ordered_of_reads (h : Reads x s ts a) (hx : (x.calls.all fun p => !p.isCompound) = true) :
    ∀ t ∈ ts, Ordered t :=
  ordered_of_allTame ts (isTame_of_fits h.fits hx)

/-- A simple statement in the place of any statement. -/
theorem reads_asStatement (hp : p.isSimple = true) (h : Reads (.phrase p) s [t] a) :
    Reads (.phrase .statementOrNull) s [asStatement t] a := by
  have hitem : Reads Phrase.statementItem.body s [t] a := by
    rcases isSimple_cases hp with rfl | rfl | rfl
    · exact .second (.second (.second (.second (.first h))))
    · exact .second (.second (.second (.second (.second (.first h)))))
    · exact .second (.second (.second (.second (.second (.second h)))))
  have hstatement : Reads Phrase.statement.body s ([] ++ ([] ++
      [ParseTree.node (.phrase .statementItem) [t]])) a :=
    .seq .omitted (.seq .stop (.phrase rfl hitem))
  exact .phrase rfl (.first (.phrase rfl hstatement))

/-- An ordered tree in the place of a statement. -/
theorem ordered_asStatement (ht : Ordered t) (hforever : ¬Detaches "forever" t.leaves)
    (hreturn : Detaches "return" t.leaves → ∃ us, t = .node (.phrase .assignmentStatement) us) :
    Ordered (asStatement t) := by
  refine .node trivial fun u hu => ?_
  cases List.mem_singleton.1 hu
  refine .node trivial fun u hu => ?_
  cases List.mem_singleton.1 hu
  refine .node ⟨by simpa using hforever, fun h => ?_⟩ fun u hu => ?_
  · obtain ⟨us, rfl⟩ := hreturn (by simpa using h)
    exact ⟨us, rfl⟩
  · cases List.mem_singleton.1 hu
    exact ht

/-- A simple statement is ordered in itself. -/
theorem ordered_simple (hp : p.isSimple = true) (h : Reads (.phrase p) s [t] a) : Ordered t :=
  ordered_of_reads h (by rcases isSimple_cases hp with rfl | rfl | rfl <;> decide) t (by simp)

/-- A simple statement is accepted as a statement if it detaches neither from the head of a loop nor
from `begin` nor from `return`. -/
theorem accepts_asStatement (hs : Phrase.statementOrNull.AcceptedAt s) (hp : p.isSimple = true)
    (h : Reads (.phrase p) s [t] a) (hc : t.isClear = true)
    (hd : ∀ w ∈ ["forever", "return", "do", "begin"], ¬Detaches w t.leaves) :
    Accepts (.phrase .statementOrNull) s [asStatement t] a := by
  obtain ⟨us, heq, -⟩ :=
    (shape_phrase (by rcases isSimple_cases hp with rfl | rfl | rfl <;> rfl)).1 h
  cases heq
  refine hs _ a (reads_asStatement hp h) ?_ ?_ ?_
  · simpa [asStatement, admits_of_ne] using hc
  · exact ordered_asStatement (ordered_simple hp h) (hd _ (by decide))
      fun h => absurd h (hd _ (by decide))
  · refine closed_asStatement ?_ ?_ ?_ ?_ ?_ (fun h => absurd h (hd "do" (by decide)))
      fun h => absurd h (hd "begin" (by decide))
    all_goals rcases isSimple_cases hp with rfl | rfl | rfl <;> simp [Phrase.isTrailing]

/-- A simple statement that detaches from `else` or from `end` is accepted as a statement. -/
theorem accepts_detaching (hs : Phrase.statementOrNull.AcceptedAt s) (hp : p.isSimple = true)
    (h : Reads (.phrase p) s [t] a) (hc : t.isClear = true) (hw : word ∈ ["else", "end"])
    (hd : Detaches word t.leaves) : Accepts (.phrase .statementOrNull) s [asStatement t] a := by
  refine accepts_asStatement hs hp h hc fun w hw' h' => ?_
  have key : ∀ v ∈ ["else", "end"], ∀ w ∈ ["forever", "return", "do", "begin"],
      v ≠ w ∧ v ∈ reservedWords ∧ w ∈ reservedWords := by decide
  obtain ⟨hne, hword, hother⟩ := key word hw w hw'
  exact hne (hd.unique h' hword hother)

/-- A simple statement that begins with a dollar sign is accepted as a statement. -/
theorem accepts_glued (hs : Phrase.statementOrNull.AcceptedAt s) (hp : p.isSimple = true)
    (h : Reads (.phrase p) s [t] a) (hc : t.isClear = true) (hg : Glued s) :
    Accepts (.phrase .statementOrNull) s [asStatement t] a := by
  refine accepts_asStatement hs hp h hc fun w hw hd => ?_
  obtain ⟨f, hf, -, l, d, rest, hl, hleaves, -⟩ := Glued.opener hg h
    (by rcases isSimple_cases hp with rfl | rfl | rfl <;> rfl)
    (by rcases isSimple_cases hp with rfl | rfl | rfl <;> decide)
  have htoken := hd.token
  simp only [List.mem_cons, List.not_mem_nil, or_false] at hf
  rcases hf with rfl | rfl | rfl <;> obtain ⟨leaf, heq, hleaf⟩ := takes_token.1 hl <;> cases heq <;>
    obtain ⟨start, text, rfl⟩ := tokenAt_eq_leaf hleaf <;>
      simp_all

/-! ## Rows that end in a statement -/

section Rows

variable {σ : Type} {lexeme : Pattern → σ → ParseTree → σ → Prop} {r r' : σ}

/-- The last of several patterns in a row. -/
theorem shape_row_append {l : List Pattern} {y : Pattern} :
    Shape lexeme (.row x (l ++ [y])) r ts r' ↔
      ∃ us k vs, ts = us ++ vs ∧ Shape lexeme (.row x l) r us k ∧ Shape lexeme y k vs r' := by
  induction l generalizing x r ts with
  | nil => exact shape_seq
  | cons w l ih =>
    rw [List.cons_append, Pattern.row, shape_seq]
    constructor
    · rintro ⟨us, k, vs, rfl, hx, hrest⟩
      obtain ⟨vs, k', ws, rfl, hrow, hy⟩ := ih.1 hrest
      exact ⟨us ++ vs, k', ws, by simp, .seq hx hrow, hy⟩
    · rintro ⟨us, k, vs, rfl, hrow, hy⟩
      obtain ⟨us, k', ws, rfl, hx, hrest⟩ := shape_seq.1 hrow
      exact ⟨us, k', ws ++ vs, by simp, hx, ih.2 ⟨ws, k, vs, rfl, hrest, hy⟩⟩

end Rows

theorem Accepts.row_append {l : List Pattern} {y : Pattern} (hx : Accepts (.row x l) s ts m)
    (hy : Accepts y m us a) : Accepts (.row x (l ++ [y])) s (ts ++ us) a := by
  induction l generalizing x s ts with
  | nil => exact hx.seq hy
  | cons w l ih =>
    obtain ⟨ts', hx, rfl⟩ := hx
    obtain ⟨us', k, vs', rfl, hfirst, hrest⟩ := takes_seq.1 hx
    rw [tidyAll_append, List.append_assoc]
    exact Accepts.seq ⟨us', hfirst, rfl⟩ (ih ⟨vs', hrest, rfl⟩)

/-- A phrase that ends in a statement is accepted if the statement is. -/
theorem accepted_of_last {k : Token} {l : List Pattern}
    (hbody : p.body = .row (.token k) (l ++ [Pattern.phrase q])) (hp : p.isTrailing = true)
    (hq : q = .statementOrNull ∨ q = .statement)
    (hx : ((Pattern.row (.token k) l).decides (some (Pattern.phrase .statementOrNull).openers)
      && (Pattern.row (.token k) l).steady) = true)
    (hn : (Pattern.row (.token k) l).nullable = false) (hs : AcceptedBehind s) :
    p.AcceptedAt s := by
  intro t a h hc ho hclosed
  have hlex : (Pattern.phrase p).isLexeme = false := by cases p <;> first | rfl | cases hp
  obtain ⟨ts, heq, hts⟩ := (shape_phrase hlex).1 h
  cases heq
  rw [hbody, shape_row_append] at hts
  obtain ⟨us, m, vs, rfl, hfront, hlast⟩ := hts
  obtain ⟨ws, rfl, -⟩ := (shape_phrase (by rcases hq with rfl | rfl <;> rfl)).1 hlast
  simp only [isClear_node, allClear_append, allClear_cons, allClear_nil, Bool.and_true,
    Bool.and_eq_true] at hc
  -- the statement behind it is what decides the front
  have hopen : Behind (some (Pattern.phrase .statementOrNull).openers) m := by
    obtain ⟨f, hf, hm⟩ := Reads.opener hlast (by rcases hq with rfl | rfl <;> rfl)
    refine behind_some.2 ⟨f, ?_, hm⟩
    rcases hq with rfl | rfl
    · exact hf
    · revert hf
      have hsub : ∀ f ∈ (Pattern.phrase .statement).openers,
          f ∈ (Pattern.phrase .statementOrNull).openers := by decide
      exact hsub f
  have hlt := Reads.lt hfront hn
  have hbehind := hs m hlt
  refine .phrase ?_ ?_
  · rintro rfl
    cases hp
  · rw [hbody]
    refine (Reads.taken hfront _ hx hc.2.1 hopen).row_append ?_
    have hlast' := ho.child (t := .node (.phrase q) ws) (by simp)
    rcases hq with rfl | rfl
    · exact hbehind.1 _ a hlast (by simp [hc.2.2]) hlast' (hclosed.last _ hp)
    · exact hbehind.2 _ a hlast (by simp [hc.2.2]) hlast' (hclosed.last _ hp)

/-- The loops that end in a statement are accepted. -/
theorem accepted_headedLoop
    (hp : p ∈ [Phrase.foreverLoop, .repeatLoop, .whileLoop, .forLoop, .foreachLoop])
    (hs : AcceptedBehind s) : p.AcceptedAt s := by
  simp only [List.mem_cons, List.not_mem_nil, or_false] at hp
  rcases hp with rfl | rfl | rfl | rfl | rfl
  · exact accepted_of_last (l := []) rfl rfl (Or.inl rfl) (by decide) rfl hs
  · exact accepted_of_last (l := [.token .openParen, .phrase .expression, .token .closeParen]) rfl
      rfl (Or.inl rfl) (by decide) rfl hs
  · exact accepted_of_last (l := [.token .openParen, .phrase .expression, .token .closeParen]) rfl
      rfl (Or.inl rfl) (by decide) rfl hs
  · exact accepted_of_last (l := [.token .openParen, .opt (.phrase .forInit), .token .semicolon,
      .opt (.phrase .expression), .token .semicolon, .opt (.phrase .forStep), .token .closeParen])
      rfl rfl (Or.inl rfl) (by decide) rfl hs
  · exact accepted_of_last (l := [.token .openParen, .phrase .arrayName, .phrase .loopVariables,
      .token .closeParen]) rfl rfl (Or.inr rfl) (by decide) rfl hs

end VerilogLoops.Grammar
