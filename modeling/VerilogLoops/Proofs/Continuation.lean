import VerilogLoops.Proofs.Extension
import VerilogLoops.Proofs.Spans
import VerilogLoops.Proofs.Token.Border

/-!
# Text behind a complete loop statement

Text behind a loop statement that is complete does not change the statement, so a parser of a larger
language can go on where the statement ended. The text has to begin with white space, and it must not
go on with what a statement may end in: an `else` for a conditional, a colon for the name of a block.
A reserved word with a dollar sign behind it is another matter: `do$x();` is the call of a task as long
as no `while` stands behind it.

> `parsePrefix_append`: a complete loop statement is found at the start of every text that goes on.
-/

namespace VerilogLoops.Grammar

open VerilogLoops.Text VerilogLoops.Lexical

variable {s a m : Place} {t u : ParseTree} {ls : List Leaf} {k : Token} {text rest front : List Char}

/-! ## Identifiers are words -/

/-- A reserved word stands in the text as a word, and a dollar sign comes next. -/
def GluesWord (text : List Char) : Prop :=
  ∃ before after, ∃ word ∈ reservedWords,
    text = before ++ word.toList ++ '$' :: after ∧ EndsBeside before

/-- The text has no dollar sign at the given place, or what stands in front of the sign does not end in a
reserved word. -/
def isUnglued (text : List Char) (n : Nat) : Bool :=
  text[n]? != some '$' || reservedWords.all fun word => !word.toList.isSuffixOf (text.take n)

/-- No reserved word is in front of a dollar sign, if there is none in front of any. -/
theorem not_gluesWord (h : (List.range text.length).all (isUnglued text) = true) : ¬GluesWord text := by
  rintro ⟨before, after, word, hword, rfl, -⟩
  have hn : (before ++ word.toList).length < (before ++ word.toList ++ '$' :: after).length := by
    simp
  have hat := List.all_eq_true.1 h _ (List.mem_range.2 hn)
  simp only [isUnglued, List.getElem?_append_right (Nat.le_refl _), Nat.sub_self,
    List.getElem?_cons_zero, bne_self_eq_false, Bool.false_or, List.take_left', List.all_eq_true] at hat
  have hnot : word.toList.isSuffixOf (before ++ word.toList) = false := by simpa using hat word hword
  have hsuffix : word.toList <:+ before ++ word.toList := List.suffix_append _ _
  rw [List.isSuffixOf_iff_suffix.2 hsuffix] at hnot
  cases hnot

/-- An identifier does not begin directly behind an identifier character. -/
def WordEnds (front : List Char) (s : Place) : Prop :=
  ∀ c d, front.getLast? = some c → isIdentifierCharacter c = true → s.rest.head? = some d →
    isIdentifierStart d = false

/-- An identifier stands behind trivia as a word of the text. -/
theorem endsBeside_identifier {leaf : ParseTree} (h : tokenAt .identifier s = some (leaf, a))
    (hfront : WordEnds front s) : EndsBeside (front ++ s.rest.take (triviaLength s.rest)) := by
  obtain ⟨c, more, hdrop, hc⟩ := mayBegin_of_tokenAt rfl h
  by_cases hnil : s.rest.take (triviaLength s.rest) = []
  · -- directly behind what stands in front, which ends no word here
    rw [hnil, List.append_nil]
    have hrest : s.rest = c :: more := by
      have := List.take_append_drop (triviaLength s.rest) s.rest
      rw [hnil, hdrop] at this
      exact this.symm
    have hstart : isIdentifierStart c = true := by
      obtain ⟨n, hn⟩ := stands_iff.1 (stands_of_tokenAt h)
      rw [hdrop] at hn
      simp only [Token.length?, identifier?] at hn
      split at hn
      · assumption
      · cases hn
    intro d hd
    by_contra hword
    have := hfront d c hd (by simpa using hword) (by rw [hrest]; rfl)
    rw [hstart] at this
    cases this
  · have hlt : triviaLength s.rest < s.rest.length := by
      have := congrArg List.length hdrop
      rw [List.length_drop, List.length_cons] at this
      omega
    exact (endsBeside_of_isGap ((isGap_trivia s.rest).1 hlt)).append hnil front

/-- The identifiers among leaves that lie in a text are words of the text. -/
theorem Lays.words (h : Lays s ls a) (hls : ∀ l ∈ ls, (l.token.isSpelled || l.token.isFree) = true)
    (hmeets : ls.IsChain Leaf.Meets)
    (hfront : ∀ l, ls.head? = some l → l.token = .identifier → WordEnds front s) :
    ∀ l ∈ ls, l.token = .identifier → ∃ before after,
      front ++ s.rest = before ++ l.text.toList ++ after ∧ EndsBeside before := by
  induction ls generalizing s front with
  | nil => simp
  | cons l ls ih =>
    obtain ⟨m, hm, hrest⟩ := h
    obtain ⟨text, hdrop, hlen, heq, -⟩ := tokenAt_iff.1 hm
    have htext : l.text.toList = text := by
      rw [ParseTree.leaf.injEq] at heq
      rw [heq.2.2, String.toList_ofList]
    -- in front of the leaf stands trivia, behind it the places of the other leaves
    have hwhole : s.rest = s.rest.take (triviaLength s.rest) ++ (text ++ m.rest) := by
      rw [← hdrop, List.take_append_drop]
    intro l' hl' hidentifier
    rcases List.mem_cons.1 hl' with rfl | hmem
    · rw [hidentifier] at hm
      refine ⟨front ++ s.rest.take (triviaLength s.rest), m.rest, ?_,
        endsBeside_identifier hm (hfront _ rfl hidentifier)⟩
      rw [htext, List.append_assoc, List.append_assoc, ← hwhole]
    · have hk := hls l (by simp)
      -- only behind a number can an identifier begin without a border, and there the leaves do not meet
      have hnext : ∀ n, ls.head? = some n → n.token = .identifier →
          WordEnds (front ++ s.rest.take (triviaLength s.rest) ++ text) m := by
        intro n hn hword c d hc hcharacter hd
        have hnumber : l.token ≠ .number := by
          intro hnumber
          cases ls with
          | nil => cases hn
          | cons n' ls =>
            cases hn
            have := (List.isChain_cons_cons.1 hmeets).1
            rw [Leaf.Meets, hnumber, hword] at this
            exact this (by decide)
        have hne : text ≠ [] := by
          have hpos := (Token.length?_within (by intro h; rw [h] at hk; cases hk) hlen).1
          exact List.ne_nil_of_length_pos hpos
        rw [List.getLast?_append, List.getLast?_eq_some_getLast hne, Option.some_or,
          ← List.getLast?_eq_some_getLast hne] at hc
        exact not_isIdentifierStart_behind hk hnumber hlen hc hcharacter hd
      obtain ⟨before, after, hsplit, hbeside⟩ := ih hrest
        (fun k hk => hls k (List.mem_cons_of_mem _ hk)) (List.isChain_cons.1 hmeets).2 hnext l' hmem
          hidentifier
      refine ⟨before, after, ?_, hbeside⟩
      calc front ++ s.rest
          = front ++ (s.rest.take (triviaLength s.rest) ++ (text ++ m.rest)) := by rw [← hwhole]
        _ = before ++ l'.text.toList ++ after := by
            rw [← hsplit]
            simp only [List.append_assoc]

/-! ## Closed statements -/

/-- The leaves of a tail are leaves of the statement. -/
theorem Tail.leaves_subset {further : Bool} (h : Tail further t u) : ∀ l ∈ u.leaves, l ∈ t.leaves := by
  induction h with
  | here => exact fun _ hl => hl
  | last _ _ ih | body _ _ ih | branch _ _ _ ih =>
    intro l hl
    have := ih l hl
    simp [this]

/-- A statement that ends in one that detaches from a reserved word has an identifier in it that goes on
behind the word. -/
theorem Exposes.exists_leaf {further : Bool} {word : String} (h : Exposes further word t) :
    ∃ l ∈ t.leaves, l.token = .identifier ∧ ∃ z, l.text.toList = word.toList ++ '$' :: z := by
  obtain ⟨ts, htail, z, start, l, more, hleaves, -⟩ := h
  refine ⟨⟨.identifier, start, String.ofList (word.toList ++ '$' :: z)⟩,
    htail.leaves_subset _ ?_, rfl, z, String.toList_ofList⟩
  rw [leaves_node, hleaves]
  exact List.mem_cons_self

/-- Where a token with a single spelling stands, its text does. -/
theorem prefix_of_stands {sp : Spelling} (hk : k.spellings = [sp]) (h : Stands k s) :
    sp.text <+: s.rest.drop (triviaLength s.rest) := by
  obtain ⟨n, hn⟩ := stands_iff.1 h
  rw [Token.length?_of_isSpelled (by simp [Token.isSpelled, hk])] at hn
  obtain ⟨s', hs', hfits, -⟩ := firstFit_eq_some hn
  rw [hk] at hs'
  cases List.mem_singleton.1 hs'
  obtain ⟨more, heq, -⟩ := Spelling.fits_iff.1 hfits
  exact ⟨more, heq.symm⟩

/-- The text may stand behind a complete statement: it begins with white space, and behind trivia with
neither `else` nor a colon. -/
structure MayFollow (rest : List Char) : Prop where
  white : BeginsWhite rest
  noElse : ¬"else".toList <+: rest.drop (triviaLength rest)
  noColon : ¬":".toList <+: rest.drop (triviaLength rest)

/-- In front of a text that may follow a statement is closed, if it has no identifier that goes on behind a
reserved word. -/
theorem closed_of_mayFollow (h : MayFollow a.rest)
    (hwords : ∀ l ∈ t.leaves, l.token = .identifier → ∀ word ∈ reservedWords,
      ∀ z, l.text.toList ≠ word.toList ++ '$' :: z) : Closed t a where
  branch := fun _ => .noFirst (.noToken (tokenAt_of_not_stands fun hs =>
    h.noElse (prefix_of_stands rfl hs)))
  body := fun hexposes => by
    obtain ⟨l, hl, hidentifier, z, hz⟩ := hexposes.exists_leaf
    exact absurd hz (hwords l hl hidentifier "do" (by decide) z)
  block := fun hexposes => by
    obtain ⟨l, hl, hidentifier, z, hz⟩ := hexposes.exists_leaf
    exact absurd hz (hwords l hl hidentifier "begin" (by decide) z)
  name := fun _ => by
    refine ⟨fun hs => h.noColon (prefix_of_stands rfl hs), ?_⟩
    rintro ⟨more, hmore⟩
    obtain ⟨c, r, hrest, hc⟩ := h.white
    rw [hmore, List.cons.injEq] at hrest
    rw [← hrest.1] at hc
    exact absurd hc (by decide)

/-- A loop statement that ends with the text is taken in front of what may follow. -/
theorem takes_extend (h : Takes (.phrase .loop) (.first text) [t] a) (ha : a.rest = [])
    (hwords : ¬GluesWord text) (hr : MayFollow rest) :
    ∃ u, Takes (.phrase .loop) (.first (text ++ rest)) [u] (a.extend rest) ∧ u.tidy = t.tidy := by
  have hreads : Reads (.phrase .loop) (.first text) [t.tidy] a := h.reads_phrase rfl
  have hplain : ∀ l ∈ leavesOf [t.tidy], (l.token.isSpelled || l.token.isFree) = true :=
    tokens_of_fits hreads.fits (by decide)
  have hwords' : ∀ l ∈ t.tidy.leaves, l.token = .identifier → ∀ word ∈ reservedWords,
      ∀ z, l.text.toList ≠ word.toList ++ '$' :: z := by
    intro l hl hidentifier word hword z hz
    obtain ⟨before, after, hsplit, hbeside⟩ : ∃ before after,
        [] ++ text = before ++ l.text.toList ++ after ∧ EndsBeside before :=
      Lays.words (Reads.lays hreads) hplain (by simpa using chain_leaves hreads.fits)
        (fun _ _ _ c _ hc => by cases hc) l (by simpa using hl) hidentifier
    refine hwords ⟨before, z ++ after, word, hword, ?_, hbeside⟩
    rw [List.nil_append, hz] at hsplit
    rw [hsplit]
    simp
  have hclear : t.tidy.isClear = true := by
    simpa [tidyAll] using allClear_tidyAll _ (Takes.allClear h)
  have hextend := hreads.extend (by decide) hr.white fun hn => absurd hn (by decide)
  have hfollow : MayFollow (a.extend rest).rest := by
    rw [show (a.extend rest).rest = rest by rw [Place.extend, ha, List.nil_append]]
    exact hr
  obtain ⟨us, hus, htidy⟩ := accepts_loop hextend hclear (ordered_of_takes h _ (by simp [tidyAll]))
    (closed_of_mayFollow hfollow hwords')
  obtain ⟨vs, rfl, -⟩ := takes_phrase.1 hus
  exact ⟨_, hus, by simpa [tidyAll] using htidy⟩

end VerilogLoops.Grammar

namespace VerilogLoops

open VerilogLoops.Text VerilogLoops.Grammar VerilogLoops.Ast

/-- **Text behind a complete loop statement does not change it.** If a text is a loop statement and
nothing else, and no reserved word in it is directly followed by a dollar sign, then the same statement,
positions included, is found at the start of the text with any other text behind it that begins with
white space and, behind its trivia, neither with `else` nor with a colon; and the other text is what is
left. -/
theorem parsePrefix_append {origin code rest : String} {v : Value}
    (h : parsePrefix origin code = .ok (v, "")) (hwords : ¬GluesWord code.toList)
    (hrest : rest = "" ∨ MayFollow rest.toList) : parsePrefix origin (code ++ rest) = .ok (v, rest) := by
  rcases hrest with rfl | hrest
  · rw [String.append_empty]
    exact h
  obtain ⟨t, a, ht, hb, hnil⟩ := parsePrefix_eq_ok.1 h
  have hb : buildTree (placed origin code.toList) t = .ok (.one v) := buildIn_eq_ok.1 hb
  have hstop := stop_of_loop ht
  obtain ⟨hle, harest⟩ := ht.ahead.inText (Place.in_first code.toList)
  -- the statement ends with the text
  have ha : a.rest = [] := by
    rw [hstop, ← harest] at hnil
    have hlist : (String.ofList a.rest).toList = [] := by
      rw [← hnil]
      rfl
    rwa [String.toList_ofList] at hlist
  have hoffset : a.offset = code.toList.length := by
    have := congrArg List.length harest
    rw [ha, List.length_nil, List.length_drop] at this
    omega
  -- it is taken of the longer text
  obtain ⟨u, hu, htidy⟩ := takes_extend ht ha hwords hrest
  have hstopu : u.stop = a.offset := (stop_of_loop hu :)
  -- it stands for the same there
  have hbuilt : buildTree (placed origin (code ++ rest).toList) u = .ok (.one v) := by
    obtain ⟨b, hb', htidyb⟩ := exists_buildTree (placed origin code.toList) rfl ht
    rw [hb] at hb'
    cases hb'
    refine (buildTree_of_tidy u ?_).1
    rw [htidy, ← htidyb]
    have hlays : Lays (.first code.toList) t.tidy.leaves a := by
      simpa [tidyAll] using Reads.lays (ht.reads_phrase rfl)
    refine buildTree_congr ?_ _ fun l hl => ?_
    · rw [String.toList_append, placed_append _ _ _ (Nat.zero_le _)]
    · have := Lays.start_le hlays l hl
      rw [String.toList_append, placed_append _ _ _ (by omega)]
  refine parsePrefix_eq_ok.2 ⟨u, a.extend rest.toList, ?_, buildIn_eq_ok.2 hbuilt, ?_⟩
  · rw [String.toList_append]
    exact hu
  · rw [hstopu, hoffset, String.toList_append, List.drop_left, String.ofList_toList]

/-- What follows the loop may begin as an operator does; a conditional without `else` is complete. -/
theorem parsePrefix_append_operators :
    ∃ v, parsePrefix "a.sv" "forever if (a) $stop;" = .ok (v, "") ∧
      ¬GluesWord "forever if (a) $stop;".toList ∧ MayFollow "\n++ 'h1 /* else".toList ∧
      parsePrefix "a.sv" ("forever if (a) $stop;" ++ "\n++ 'h1 /* else") = .ok (v, "\n++ 'h1 /* else") := by
  obtain ⟨⟨v, rest⟩, h, hrest⟩ : ∃ found, parsePrefix "a.sv" "forever if (a) $stop;" = .ok found ∧
      found.2 = "" := by
    rw [parsePrefix_afresh String.toList_ofList]
    exact exists_of_any (by decide +kernel)
  cases hrest
  have hwords : ¬GluesWord "forever if (a) $stop;".toList := not_gluesWord (by decide +kernel)
  have hfollow : MayFollow "\n++ 'h1 /* else".toList :=
    ⟨⟨'\n', _, rfl, by decide⟩, by decide +kernel, by decide +kernel⟩
  exact ⟨v, h, hwords, hfollow, parsePrefix_append h hwords (.inr hfollow)⟩

end VerilogLoops
