import VerilogLoops.Proofs.Reading
import VerilogLoops.Proofs.Token.Text

/-!
# The form of parse trees

A tree *fits* a pattern if it has the shape of the pattern and its leaves have texts that their
tokens may write. Where the texts stand does not matter. The tree of a reading fits its pattern
(`Reads.fits`).
-/

namespace VerilogLoops.Grammar

open VerilogLoops.Text VerilogLoops.Lexical

/-- The tree is a leaf of the token. -/
def IsLeaf (t : Token) (tree : ParseTree) : Prop :=
  ∃ start text, tree = .leaf t start text ∧ t.Writes text

/-- The text of a name: an identifier that is no reserved word, or an escaped identifier. -/
def IsNameText (t : Token) (text : String) : Prop :=
  t.Writes text ∧ ((t = .identifier ∧ text ∉ reservedWords) ∨ t = .escapedIdentifier)

/-- The tree is a lexeme. -/
def LexemeForm (x : Pattern) (_ : Unit) (tree : ParseTree) (_ : Unit) : Prop :=
  match x with
  | .token t => IsLeaf t tree
  | .phrase .identifier =>
    ∃ t start text, tree = .node (.phrase .identifier) [.leaf t start text] ∧ IsNameText t text
  | .phrase .assignSign =>
    ∃ start, tree = .node (.phrase .assignSign) [.leaf .equals start "="]
  | _ => False

/-- A lexeme is a leaf of its token, or the node of a name or of a sign around one. -/
theorem LexemeForm.cases {x : Pattern} {s a : Unit} {t : ParseTree} (h : LexemeForm x s t a) :
    (∃ k start text, x = .token k ∧ t = .leaf k start text ∧ k.Writes text) ∨
    (∃ k start text, x = .phrase .identifier ∧ t = .node (.phrase .identifier) [.leaf k start text] ∧
      IsNameText k text) ∨
    ∃ start, x = .phrase .assignSign ∧ t = .node (.phrase .assignSign) [.leaf .equals start "="] := by
  unfold LexemeForm at h
  split at h
  · obtain ⟨start, text, ht, hw⟩ := h
    exact .inl ⟨_, start, text, rfl, ht, hw⟩
  · obtain ⟨k, start, text, ht, hname⟩ := h
    exact .inr (.inl ⟨k, start, text, rfl, ht, hname⟩)
  · obtain ⟨start, ht⟩ := h
    exact .inr (.inr ⟨start, rfl, ht⟩)
  · cases h

/-- The trees have the form of the pattern. -/
abbrev Fits (x : Pattern) (ts : List ParseTree) : Prop := Shape LexemeForm x () ts ()

/-- The children of a node that fits a phrase fit its pattern, unless it is a name or a sign around one
leaf. -/
theorem Fits.node_cases {p : Phrase} {ts : List ParseTree} (h : Fits (.phrase p) [.node (.phrase p) ts]) :
    ((Pattern.phrase p).isLexeme = false ∧ Fits p.body ts) ∨
    (p = .identifier ∧ ∃ k start text, ts = [.leaf k start text] ∧ IsNameText k text) ∨
    (p = .assignSign ∧ ∃ start, ts = [.leaf .equals start "="]) := by
  cases h with
  | phrase hp hbody => exact .inl ⟨hp, hbody⟩
  | lexeme _ h =>
    obtain ⟨_, _, _, hx, -, -⟩ | ⟨k, start, text, hx, ht, hname⟩ | ⟨start, hx, ht⟩ := h.cases <;> cases hx
    · exact .inr (.inl ⟨rfl, k, start, text, (ParseTree.node.inj ht).2, hname⟩)
    · exact .inr (.inr ⟨rfl, start, (ParseTree.node.inj ht).2⟩)

/-- A token found at a place is a leaf of it. -/
theorem isLeaf_of_tokenAt {t : Token} {s a : Place} {leaf : ParseTree}
    (h : tokenAt t s = some (leaf, a)) : IsLeaf t leaf := by
  simp only [tokenAt, Option.map_eq_some_iff, Prod.mk.injEq] at h
  obtain ⟨n, hn, rfl, -⟩ := h
  have hle := Token.length?_le hn
  refine ⟨_, _, rfl, (s.skip (triviaLength s.rest)).rest.drop n, ?_⟩
  rw [String.toList_ofList, List.take_append_drop, hn, List.length_take, Nat.min_eq_left hle]

/-- An identifier taken from a text takes all its identifier characters. -/
theorem takeWhile_of_identifier? {text rest : List Char}
    (h : identifier? (text ++ rest) = some text.length) :
    (text ++ rest).takeWhile isIdentifierCharacter = text := by
  unfold identifier? at h
  split at h
  · next c more heq =>
    split at h
    · next hc =>
      have hlen : ((c :: more).takeWhile isIdentifierCharacter).length = text.length := by
        rw [List.takeWhile_cons_of_pos (isIdentifierCharacter_of_isIdentifierStart hc),
          List.length_cons, Nat.add_comm]
        exact Option.some.inj h
      rw [heq]
      have hpre := List.takeWhile_prefix isIdentifierCharacter (l := c :: more)
      have htext : text <+: c :: more := ⟨rest, heq⟩
      exact (List.prefix_of_prefix_length_le hpre htext (Nat.le_of_eq hlen)).eq_of_length hlen
    · cases h
  · cases h

/-- The words that no identifier may be are made of identifier characters. -/
theorem isIdentifierCharacter_of_reserved {word : String} (hw : word ∈ reservedWords) :
    ∀ c ∈ word.toList, isIdentifierCharacter c = true :=
  List.all_eq_true.1 (all_reservedWords (p := (·.all isIdentifierCharacter)) (by decide +kernel) hw)

/-- The words that no identifier may be begin as an identifier does. -/
theorem reserved_cons {word : String} (hw : word ∈ reservedWords) :
    ∃ c cs, word.toList = c :: cs ∧ isIdentifierStart c = true := by
  have hhead := all_reservedWords (p := (·.head?.any isIdentifierStart)) (by decide +kernel) hw
  cases hl : word.toList with
  | nil => simp [hl] at hhead
  | cons c cs => exact ⟨c, cs, rfl, by simpa [hl] using hhead⟩

/-- The words that no identifier may be have no dollar sign. -/
theorem dollar_not_mem_reserved {w : String} (hw : w ∈ reservedWords) : '$' ∉ w.toList := by
  simpa using all_reservedWords (p := (!·.contains '$')) (by decide +kernel) hw

/-- A reserved word stands where the longest run of identifier characters is one. -/
theorem stands_reservedWord_iff {s : Place} : Stands .reservedWord s ↔
    String.ofList ((s.rest.drop (triviaLength s.rest)).takeWhile isIdentifierCharacter)
      ∈ reservedWords := by
  rw [stands_iff]
  generalize s.rest.drop (triviaLength s.rest) = cs
  rw [Token.length?_of_isSpelled (t := .reservedWord) (by decide)]
  constructor
  · rintro ⟨n, hn⟩
    obtain ⟨sp, hsp, hfit, -⟩ := firstFit_eq_some hn
    obtain ⟨word, hword, rfl⟩ := List.mem_map.1 hsp
    obtain ⟨more, rfl, hbar⟩ := Spelling.fits_iff.1 hfit
    -- the barrier behind the word ends the run
    have hrun : (word.toList ++ more).takeWhile isIdentifierCharacter = word.toList := by
      rw [List.takeWhile_append_of_pos (isIdentifierCharacter_of_reserved hword)]
      cases more with
      | nil => exact List.append_nil _
      | cons c more =>
        have hc : isIdentifierCharacter c = false := hbar c rfl
        rw [List.takeWhile_cons_of_neg (by simp [hc]), List.append_nil]
    show String.ofList ((word.toList ++ more).takeWhile isIdentifierCharacter) ∈ reservedWords
    rw [hrun, String.ofList_toList]
    exact hword
  · intro hmem
    have hfit : (Spelling.wholeWord (String.ofList (cs.takeWhile isIdentifierCharacter))).fits cs
        = true := by
      refine Spelling.fits_iff.2 ⟨cs.dropWhile isIdentifierCharacter, ?_, fun c hc => ?_⟩
      · simp [Spelling.wholeWord]
      · have := List.head?_dropWhile_not isIdentifierCharacter cs
        rw [hc] at this
        simpa [Spelling.wholeWord, Barrier.bars] using this
    cases hlength : firstFit Token.reservedWord.spellings cs with
    | some m => exact ⟨m, rfl⟩
    | none =>
      simp only [firstFit, Option.map_eq_none_iff, List.find?_eq_none] at hlength
      exact absurd hfit (hlength _ (List.mem_map.2 ⟨_, hmem, rfl⟩))

/-- Where no reserved word stands, an identifier is none. -/
theorem not_reserved_of_not_stands {s a : Place} {start : Nat} {text : String}
    (h : tokenAt .identifier s = some (.leaf .identifier start text, a))
    (hr : ¬Stands .reservedWord s) : text ∉ reservedWords := by
  intro hmem
  refine hr (stands_reservedWord_iff.2 ?_)
  simp only [tokenAt, Option.map_eq_some_iff, Prod.mk.injEq, ParseTree.leaf.injEq, true_and] at h
  obtain ⟨n, hn, ⟨-, htext⟩, -⟩ := h
  rw [Place.skip_rest] at hn htext
  have hle := Token.length?_le hn
  generalize s.rest.drop (triviaLength s.rest) = cs at hn htext hle ⊢
  have hrun : (cs.take n ++ cs.drop n).takeWhile isIdentifierCharacter = cs.take n := by
    refine takeWhile_of_identifier? ?_
    rw [List.take_append_drop, List.length_take, Nat.min_eq_left hle]
    exact hn
  rw [List.take_append_drop] at hrun
  rw [hrun, htext]
  exact hmem

/-- A lexeme at a place has the form of a lexeme. -/
theorem LexemeAt.form {x : Pattern} {s a : Place} {t : ParseTree} (hx : x.isLexeme = true)
    (h : LexemeAt x s t a) : LexemeForm x () t () := by
  unfold Pattern.isLexeme at hx
  split at hx
  · cases h with
    | token h => exact isLeaf_of_tokenAt h
  · obtain ⟨leaf, heq, hr, hleaf⟩ := takes_identifier.1 h
    cases heq
    rcases hleaf with hleaf | hleaf
    · obtain ⟨start, text, rfl, hw⟩ := isLeaf_of_tokenAt hleaf
      exact ⟨_, start, text, rfl, hw, Or.inl ⟨rfl, not_reserved_of_not_stands hleaf hr⟩⟩
    · obtain ⟨start, text, rfl, hw⟩ := isLeaf_of_tokenAt hleaf
      exact ⟨_, start, text, rfl, hw, Or.inr rfl⟩
  · obtain ⟨leaf, heq, hleaf, -⟩ := takes_assignSign.1 h
    cases heq
    obtain ⟨start, text, rfl, hw⟩ := isLeaf_of_tokenAt hleaf
    have : text = "=" := hw.hasForm
    exact ⟨start, by rw [this]⟩
  · cases hx

/-- A pattern that takes something has trees. -/
theorem Shape.ne_nil {σ : Type} {lexeme : Pattern → σ → ParseTree → σ → Prop} {x : Pattern}
    {s a : σ} {ts : List ParseTree} (h : Shape lexeme x s ts a) (hx : x.nullable = false) :
    ts ≠ [] := by
  induction h with
  | seq _ _ ihx ihy =>
    simp only [Pattern.nullable, Bool.and_eq_false_iff] at hx
    rcases hx with hx | hx
    · exact fun hnil => ihx hx (List.append_eq_nil_iff.1 hnil).1
    · exact fun hnil => ihy hx (List.append_eq_nil_iff.1 hnil).2
  | first _ ih => exact ih (Bool.or_eq_false_iff.1 hx).1
  | second _ ih => exact ih (Bool.or_eq_false_iff.1 hx).2
  | omitted | given | stop | step | last => cases hx
  | _ => simp

theorem Shape.nullable_of_nil {σ : Type} {lexeme : Pattern → σ → ParseTree → σ → Prop}
    {x : Pattern} {s a : σ} (h : Shape lexeme x s [] a) : x.nullable = true := by
  cases hn : x.nullable with
  | true => rfl
  | false => exact absurd rfl (h.ne_nil hn)

/-- The trees of a reading fit the pattern. -/
theorem Reads.fits {x : Pattern} {s a : Place} {ts : List ParseTree} (h : Reads x s ts a) :
    Fits x ts := by
  have hfits : Fits x (ts.map id) :=
    Shape.map (f := fun _ => ()) (fun hx h => LexemeAt.form hx h) (fun _ us _ => by rw [List.map_id]; rfl) h
  rwa [List.map_id] at hfits

/-- A leaf whose text its token takes as a whole. -/
theorem fits_leaf {k : Token} {text : String} (h : k.length? text.toList = some text.toList.length) :
    Fits (.token k) [.leaf k 0 text] :=
  .lexeme rfl ⟨0, text, rfl, [], by rw [List.append_nil, h]⟩

theorem Fits.seq {x y : Pattern} {ts us : List ParseTree} (hx : Fits x ts) (hy : Fits y us) :
    Fits (.seq x y) (ts ++ us) :=
  Shape.seq hx hy

end VerilogLoops.Grammar
