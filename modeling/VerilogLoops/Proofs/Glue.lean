import VerilogLoops.Proofs.Form

/-!
# Keywords glued to a dollar sign

A keyword ends where a word character cannot follow, and the dollar sign is none. An identifier goes
on over the dollar sign. So `do$x` is an identifier, but it also begins with the keyword `do` and
then with the name `$x` of a system task. This is the only way in which a keyword and an identifier
stand at the same place (`exists_glued`), and it is what makes the grammar look ambiguous.

A parse tree in which no such place was read the wrong way round is *clear*, and every tree that is
taken is clear (`Takes.allClear`).
-/

namespace VerilogLoops.Grammar

open VerilogLoops.Text VerilogLoops.Lexical

/-! ## The text of a token -/

/-- What a token found at a place says about the text there. -/
theorem tokenAt_iff {t : Token} {s a : Place} {leaf : ParseTree} :
    tokenAt t s = some (leaf, a) ↔ ∃ text : List Char,
      s.rest.drop (triviaLength s.rest) = text ++ a.rest ∧
      t.length? (text ++ a.rest) = some text.length ∧
      leaf = .leaf t (s.offset + triviaLength s.rest) (String.ofList text) ∧
      a.offset = s.offset + triviaLength s.rest + text.length := by
  have hle := triviaLength_le s.rest
  simp only [tokenAt, Option.map_eq_some_iff, Prod.mk.injEq, Place.skip_rest,
    Place.skip_offset hle]
  constructor
  · rintro ⟨n, hn, rfl, rfl⟩
    have hn' := Token.length?_le hn
    have hlen : ((s.rest.drop (triviaLength s.rest)).take n).length = n := by
      rw [List.length_take, Nat.min_eq_left hn']
    refine ⟨(s.rest.drop (triviaLength s.rest)).take n, ?_, ?_, rfl, ?_⟩
    · rw [Place.skip_rest, Place.skip_rest, List.take_append_drop]
    · rw [Place.skip_rest, Place.skip_rest, List.take_append_drop, hn, hlen]
    · rw [Place.skip_offset (by simpa [Place.skip_rest] using hn'), Place.skip_offset hle, hlen]
  · rintro ⟨text, hrest, hlen, rfl, hoff⟩
    refine ⟨text.length, by rw [hrest, hlen], ?_, ?_⟩
    · rw [hrest, List.take_left]
    · cases a with
      | mk o r =>
        simp only [Place.skip, Place.mk.injEq, hrest]
        refine ⟨?_, by simp⟩
        simp only at hoff
        rw [hoff, List.take_left, List.length_take, Nat.min_eq_left hle]

/-- Where nothing in front is trivia, a token stands if it is at the head of the text. -/
theorem triviaLength_dollar (rest : List Char) : triviaLength ('$' :: rest) = 0 := by
  simp [triviaLength, triviaFrom, isBlank, comment?, lineComment?, blockComment?]

/-! ## Glued places -/

/-- A dollar sign comes next, without trivia. -/
def Glued (s : Place) : Prop := ∃ rest, s.rest = '$' :: rest

/-- The token may begin with a dollar sign. -/
def Token.opensDollar (t : Token) : Bool :=
  t = .systemName || t.spelled.any fun s => s.text.head? = some '$'

/-- At a glued place stands nothing that does not begin with a dollar sign. -/
theorem Glued.not_stands {s : Place} (h : Glued s) {t : Token}
    (ht : (t.isSpelled || t.isFree || t = .endOfInput) = true)
    (hd : Token.opensDollar t = false) : ¬Stands t s := by
  intro hs
  obtain ⟨rest, hrest⟩ := h
  obtain ⟨n, hn⟩ := stands_iff.1 hs
  rw [hrest, triviaLength_dollar, List.drop_zero] at hn
  simp only [Token.opensDollar, Token.spelled_eq, Bool.or_eq_false_iff, decide_eq_false_iff_not] at hd
  simp only [Bool.or_eq_true, decide_eq_true_eq] at ht
  rcases ht with (ht | ht) | rfl
  · rw [Token.length?_of_isSpelled ht] at hn
    obtain ⟨sp, hsp, hfit, -⟩ := firstFit_eq_some hn
    obtain ⟨more, heq, -⟩ := Spelling.fits_iff.1 hfit
    have hhead : sp.text.head? = some '$' := by
      cases htext : sp.text with
      | nil => exact absurd htext (Token.text_ne_nil t hsp)
      | cons c cs =>
        rw [htext] at heq
        cases heq
        rfl
    exact List.any_eq_false.1 hd.2 sp hsp (by simpa using hhead)
  · obtain ⟨c, more, heq, hc⟩ := freeTokenAt_of_length? ht hn
    cases heq
    exact hd.1 (Option.some.inj ((show freeTokenAt '$' = some .systemName by decide) ▸ hc)).symm
  · cases (length?_endOfInput.1 hn).1

/-- A keyword glued to a dollar sign: the identifier goes on behind the keyword. -/
structure GluedAt (word : String) (s b a : Place) (t : ParseTree) (z : List Char) : Prop where
  tree : ∃ start, t = .node (.phrase .identifier)
    [.leaf .identifier start (String.ofList (word.toList ++ '$' :: z))]
  rest : b.rest = '$' :: (z ++ a.rest)
  offset : a.offset = b.offset + 1 + z.length
  run : ∀ c ∈ z, isIdentifierCharacter c = true
  stop : ∀ c, a.rest.head? = some c → isIdentifierCharacter c = false

/-- The characters behind a run of a class do not belong to the class. -/
theorem head_of_takeWhile {p : Char → Bool} {text rest : List Char}
    (h : (text ++ rest).takeWhile p = text) : ∀ c, rest.head? = some c → p c = false := by
  intro c hc
  cases rest with
  | nil => cases hc
  | cons d rest =>
    cases hc
    cases hp : p c with
    | false => rfl
    | true =>
      have hall : ∀ x ∈ text, p x = true := by
        intro x hx
        rw [← h] at hx
        exact List.all_eq_true.1 List.all_takeWhile x hx
      rw [List.takeWhile_append_of_pos hall, List.takeWhile_cons_of_pos hp] at h
      have := congrArg List.length h
      simp at this

/-- If a keyword and an identifier stand at the same place, they are glued. -/
theorem exists_glued {k : Token} (word : String) (hk : k.spellings = [.keyword word])
    (hw : word ∈ reservedWords) {s b a : Place} {leaf t : ParseTree}
    (hb : tokenAt k s = some (leaf, b)) (ha : LexemeAt (.phrase .identifier) s t a) :
    ∃ z, GluedAt word s b a t z := by
  obtain ⟨ktext, hkrest, hklen, -, hkoff⟩ := tokenAt_iff.1 hb
  rw [Token.length?_of_isSpelled (by simp [Token.isSpelled, hk]), hk] at hklen
  obtain ⟨sp, hsp, hfit, hsplen⟩ := firstFit_eq_some hklen
  cases List.mem_singleton.1 hsp
  obtain ⟨more, hmore, hbar⟩ := Spelling.fits_iff.1 hfit
  obtain ⟨rfl, rfl⟩ := List.append_inj hmore hsplen.symm
  have hword : (Spelling.keyword word).text = word.toList := rfl
  rw [hword] at hkrest hkoff
  obtain ⟨leaf', heq, hres, hleaf⟩ := takes_identifier.1 ha
  cases heq
  obtain ⟨c, r, hl, hstart⟩ := reserved_cons hw
  rcases hleaf with hleaf | hleaf
  · obtain ⟨text, hrest, hlen, rfl, hoff⟩ := tokenAt_iff.1 hleaf
    have hrun := takeWhile_of_identifier? hlen
    rw [← hrest, hkrest] at hrun
    rw [List.takeWhile_append_of_pos (isIdentifierCharacter_of_reserved hw)] at hrun
    have hall : ∀ c ∈ b.rest.takeWhile isIdentifierCharacter, isIdentifierCharacter c = true :=
      List.all_eq_true.1 List.all_takeWhile
    have hafter : b.rest = b.rest.takeWhile isIdentifierCharacter ++ a.rest := by
      have := hkrest.symm.trans hrest
      rw [← hrun, List.append_assoc] at this
      exact List.append_cancel_left this
    cases hz : b.rest.takeWhile isIdentifierCharacter with
    | nil =>
      -- without a further character the identifier would be a reserved word
      exfalso
      rw [hz, List.append_nil] at hrun
      refine not_reserved_of_not_stands hleaf hres ?_
      rw [← hrun, String.ofList_toList]
      exact hw
    | cons c z =>
      rw [hz] at hrun hall hafter
      have hc : c = '$' := by
        by_cases hd : c = '$'
        · exact hd
        · have h1 := isWordCharacter_of_isIdentifierCharacter (hall c List.mem_cons_self) hd
          have h2 : isWordCharacter c = false := hbar c (by rw [hafter]; rfl)
          rw [h1] at h2
          cases h2
      subst hc
      refine ⟨z, ⟨_, by rw [← hrun]⟩, hafter, ?_,
        fun c hc => hall c (List.mem_cons_of_mem _ hc), ?_⟩
      · rw [hoff, hkoff, ← hrun]
        simp only [List.length_append, List.length_cons]
        omega
      · have hrun' : ('$' :: z ++ a.rest).takeWhile isIdentifierCharacter = '$' :: z := by
          rw [← hafter]
          exact hz
        exact head_of_takeWhile hrun'
  · obtain ⟨text, hrest, hlen, -, -⟩ := tokenAt_iff.1 hleaf
    rw [← hrest, hkrest, hl] at hlen
    simp only [Token.length?, escapedIdentifier?, List.cons_append] at hlen
    split at hlen
    · next heq =>
      cases heq
      cases hstart
    · cases hlen

/-- A scope glued to a keyword ends where the identifier does, and is the rest of it. -/
theorem GluedAt.scope {word : String} {s b a c : Place} {t leaf : ParseTree} {z : List Char}
    (h : GluedAt word s b a t z) {k : Token} (name : String) (hk : k.spellings = [.wholeWord ("$" ++ name)])
    (hname : ∀ x ∈ name.toList, isIdentifierCharacter x = true)
    (hc : tokenAt k b = some (leaf, c)) : c = a ∧ z = name.toList := by
  obtain ⟨text, hrest, hlen, -, hoff⟩ := tokenAt_iff.1 hc
  rw [Token.length?_of_isSpelled (by simp [Token.isSpelled, hk]), hk] at hlen
  obtain ⟨sp, hsp, hfit, hsplen⟩ := firstFit_eq_some hlen
  cases List.mem_singleton.1 hsp
  obtain ⟨more, hmore, hbar⟩ := Spelling.fits_iff.1 hfit
  obtain ⟨rfl, rfl⟩ := List.append_inj hmore hsplen.symm
  have htext : (Spelling.wholeWord ("$" ++ name)).text = '$' :: name.toList := by
    simp [Spelling.wholeWord, String.toList_append]
  rw [h.rest, triviaLength_dollar, List.drop_zero, htext, List.cons_append] at hrest
  have hsame := List.tail_eq_of_cons_eq hrest
  -- both are the longest run of identifier characters
  have hz : (z ++ a.rest).takeWhile isIdentifierCharacter = z := by
    rw [List.takeWhile_append_of_pos h.run]
    cases ha : a.rest with
    | nil => simp
    | cons x xs =>
      have := h.stop x (by rw [ha]; rfl)
      simp [this]
  have hn : (name.toList ++ c.rest).takeWhile isIdentifierCharacter = name.toList := by
    rw [List.takeWhile_append_of_pos hname]
    cases hr : c.rest with
    | nil => simp
    | cons x xs =>
      have : isIdentifierCharacter x = false := hbar x (by rw [hr]; rfl)
      simp [this]
  have heq : z = name.toList := by rw [← hz, hsame, hn]
  subst heq
  refine ⟨?_, rfl⟩
  have hoff' : c.offset = a.offset := by
    rw [hoff, h.rest, triviaLength_dollar, h.offset, htext, List.length_cons]
    omega
  cases c
  cases a
  simp_all

theorem GluedAt.glued {word : String} {s b a : Place} {t : ParseTree} {z : List Char}
    (h : GluedAt word s b a t z) : Glued b := ⟨_, h.rest⟩

end VerilogLoops.Grammar
