import VerilogLoops.Proofs.Completeness.Phrases
import VerilogLoops.Proofs.Layout

/-!
# What stands behind a keyword glued to a dollar sign

If an identifier goes on behind a keyword, the rest of it makes a token with the dollar sign: the
name of a system task or function, `$unit` or `$root`, or none at all. This token ends where the
identifier does. So the same text can be read in two ways, as a name that begins with the identifier
and as a keyword with a name behind it, and the two names differ in their first token only.
-/

namespace VerilogLoops.Grammar

open VerilogLoops.Text VerilogLoops.Lexical

variable {word : String} {s b c a m n : Place} {t leaf : ParseTree} {z : List Char}
  {ts us qs ns vs : List ParseTree}

/-! ## The token behind the keyword -/

/-- The rest of the identifier is the longest run of its characters behind the dollar sign. -/
theorem GluedAt.takeWhile (h : GluedAt word s b c t z) :
    (z ++ c.rest).takeWhile isIdentifierCharacter = z := by
  rw [List.takeWhile_append_of_pos h.run]
  cases ha : c.rest with
  | nil => simp
  | cons x xs =>
    have := h.stop x (by rw [ha]; rfl)
    simp [this]

/-- The rest of the identifier is the name of a system task or function. -/
def IsTaskName (z : List Char) : Prop := z ≠ [] ∧ ∀ name ∈ scopeNames, name.toList ≠ z

theorem systemName?_glued (h : GluedAt word s b c t z) :
    systemName? b.rest = if z = [] then none else
      if scopeNames.any (·.toList = z) then none else some (1 + z.length) := by
  rw [h.rest, systemName?, h.takeWhile]
  cases z <;> rfl

/-- A place is told by its offset and its rest. -/
theorem Place.eq_of_append {s m c : Place} {xs ys : List Char} (h : xs ++ m.rest = ys ++ c.rest)
    (hlen : xs.length = ys.length) (hm : m.offset = s.offset + xs.length)
    (hc : c.offset = s.offset + ys.length) : m = c := by
  obtain ⟨-, hrest⟩ := List.append_inj h hlen
  cases m
  cases c
  simp_all

/-- The name of a system task or function ends where the identifier does. -/
theorem GluedAt.systemName (h : GluedAt word s b c t z)
    (hm : tokenAt .systemName b = some (leaf, m)) : m = c ∧ IsTaskName z := by
  obtain ⟨text, hrest, hlen, -, hoff⟩ := tokenAt_iff.1 hm
  have htrivia : triviaLength b.rest = 0 := by rw [h.rest, triviaLength_dollar]
  rw [htrivia, List.drop_zero] at hrest
  rw [← hrest] at hlen
  have hlen : systemName? b.rest = some text.length := hlen
  rw [systemName?_glued h] at hlen
  split at hlen
  · cases hlen
  · next hz =>
    split at hlen
    · cases hlen
    · next hscope =>
      have hlength := Option.some.inj hlen
      refine ⟨?_, hz, fun name hname heq => hscope ?_⟩
      · have hsame : text ++ _ = ('$' :: z) ++ _ := hrest.symm.trans h.rest
        refine Place.eq_of_append (s := b) hsame ?_ ?_ ?_
        · rw [← hlength, List.length_cons, Nat.add_comm]
        · rw [hoff, htrivia]
          rfl
        · rw [h.offset, List.length_cons]
          omega
      · exact List.any_eq_true.2 ⟨name, hname, by simpa using heq⟩

/-- A task name behind the dollar sign is taken up to the end of the identifier. -/
theorem GluedAt.exists_systemName (h : GluedAt word s b c t z) (hz : IsTaskName z) :
    ∃ leaf, tokenAt .systemName b = some (leaf, c) := by
  have htrivia : triviaLength b.rest = 0 := by rw [h.rest, triviaLength_dollar]
  refine ⟨_, tokenAt_iff.2 ⟨'$' :: z, ?_, ?_, rfl, ?_⟩⟩
  · rw [htrivia, List.drop_zero, h.rest]
    rfl
  · show systemName? ('$' :: z ++ c.rest) = _
    rw [List.cons_append, ← h.rest, systemName?_glued h, if_neg hz.1, if_neg, List.length_cons,
      Nat.add_comm]
    intro hany
    obtain ⟨name, hname, heq⟩ := List.any_eq_true.1 hany
    exact hz.2 name hname (by simpa using heq)
  · rw [h.offset, htrivia, List.length_cons]
    omega

/-- A scope behind the dollar sign is taken up to the end of the identifier. -/
theorem GluedAt.exists_scope {k : Token} (name : String)
    (hk : k.spellings = [.wholeWord ("$" ++ name)]) (h : GluedAt word s b c t name.toList) :
    ∃ leaf, tokenAt k b = some (leaf, c) := by
  have htrivia : triviaLength b.rest = 0 := by rw [h.rest, triviaLength_dollar]
  have htext : (Spelling.wholeWord ("$" ++ name)).text = '$' :: name.toList := by
    simp [Spelling.wholeWord, String.toList_append]
  refine ⟨_, tokenAt_iff.2 ⟨'$' :: name.toList, ?_, ?_, rfl, ?_⟩⟩
  · rw [htrivia, List.drop_zero, h.rest]
    rfl
  · have hfit : (Spelling.wholeWord ("$" ++ name)).fits ('$' :: name.toList ++ c.rest) = true :=
      Spelling.fits_iff.2 ⟨c.rest, by rw [htext], h.stop⟩
    rw [Token.length?_of_isSpelled (by simp [Token.isSpelled, hk]), hk, firstFit, List.find?_cons,
      hfit]
    simp [htext]
  · rw [h.offset, htrivia, List.length_cons]
    omega

/-- An identifier goes on behind a keyword that is glued to a dollar sign. -/
theorem exists_gluedAt {k : Token} (word : String) (hk : k.spellings = [.keyword word])
    (hw : word ∈ reservedWords) (hb : tokenAt k s = some (leaf, b)) (hg : Glued b) :
    ∃ t c z, LexemeAt (.phrase .identifier) s t c ∧ GluedAt word s b c t z := by
  obtain ⟨rest, hrest⟩ := hg
  obtain ⟨text, htext, hlen, -, hoff⟩ := tokenAt_iff.1 hb
  rw [Token.length?_of_isSpelled (by simp [Token.isSpelled, hk]), hk] at hlen
  obtain ⟨sp, hsp, hfit, hsplen⟩ := firstFit_eq_some hlen
  cases List.mem_singleton.1 hsp
  obtain ⟨more, hmore, -⟩ := Spelling.fits_iff.1 hfit
  obtain ⟨rfl, rfl⟩ := List.append_inj hmore hsplen.symm
  have hword : (Spelling.keyword word).text = word.toList := rfl
  rw [hword] at htext hoff
  rw [hrest] at htext
  obtain ⟨x, xs, hx, hstart⟩ := reserved_cons hw
  -- the identifier is the longest run of its characters
  have hrun : (word.toList ++ '$' :: rest).takeWhile isIdentifierCharacter =
      word.toList ++ '$' :: rest.takeWhile isIdentifierCharacter := by
    rw [List.takeWhile_append_of_pos (isIdentifierCharacter_of_reserved hw),
      List.takeWhile_cons_of_pos (by decide)]
  generalize hz : rest.takeWhile isIdentifierCharacter = z at hrun
  have hsplit : rest = z ++ rest.drop z.length := by
    have := List.prefix_iff_eq_append.1 (List.takeWhile_prefix isIdentifierCharacter (l := rest))
    rw [hz] at this
    exact this.symm
  refine ⟨_, ⟨s.offset + triviaLength s.rest + (word.toList ++ '$' :: z).length,
    rest.drop z.length⟩, z, takes_identifier.2 ⟨_, rfl, ?_, Or.inl (tokenAt_iff.2
      ⟨word.toList ++ '$' :: z, ?_, ?_, rfl, rfl⟩)⟩, ⟨_, rfl⟩, ?_, ?_, ?_, ?_⟩
  · rw [stands_reservedWord_iff, htext, hrun]
    intro hmem
    exact dollar_not_mem_reserved hmem (by simp)
  · rw [htext, hsplit]
    simp
  · show identifier? _ = _
    rw [List.append_assoc, List.cons_append, ← hsplit, hx, List.cons_append, identifier?,
      if_pos hstart, List.cons_append, List.length_cons, Nat.add_comm]
    rw [hx, List.cons_append, List.takeWhile_cons_of_pos
      (isIdentifierCharacter_of_isIdentifierStart hstart), List.cons_append,
      List.cons.injEq] at hrun
    rw [hrun.2]
  · rw [hrest, ← hsplit]
  · simp only [hoff, List.length_append, List.length_cons]
    omega
  · intro y hy
    rw [← hz] at hy
    exact List.all_eq_true.1 List.all_takeWhile y hy
  · rw [hsplit] at hz
    exact head_of_takeWhile hz

/-- The three tokens that stand at a glued place. -/
theorem GluedAt.cases (h : GluedAt word s b c t z) {f : Pattern}
    (hf : f ∈ [Pattern.token .systemName, Pattern.token .unitScope, Pattern.token .rootScope])
    (hm : LexemeAt f b leaf m) :
    m = c ∧ ((f = .token .systemName ∧ IsTaskName z) ∨ (f = .token .unitScope ∧ z = "unit".toList) ∨
      (f = .token .rootScope ∧ z = "root".toList)) := by
  simp only [List.mem_cons, List.not_mem_nil, or_false] at hf
  rcases hf with rfl | rfl | rfl <;> obtain ⟨l, -, hl⟩ := takes_token.1 hm
  · obtain ⟨hmc, hz⟩ := h.systemName hl
    exact ⟨hmc, Or.inl ⟨rfl, hz⟩⟩
  · have hname : ("unit".toList.all isIdentifierCharacter) = true := by decide
    obtain ⟨hmc, hz⟩ := h.scope "unit" rfl (List.all_eq_true.1 hname) hl
    exact ⟨hmc, Or.inr (Or.inl ⟨rfl, hz⟩)⟩
  · have hname : ("root".toList.all isIdentifierCharacter) = true := by decide
    obtain ⟨hmc, hz⟩ := h.scope "root" rfl (List.all_eq_true.1 hname) hl
    exact ⟨hmc, Or.inr (Or.inr ⟨rfl, hz⟩)⟩

/-- Of the openers of a pattern, only those that begin with a dollar sign match at a glued place. -/
theorem Glued.opener {x : Pattern} (h : Glued b) (hx : Reads x b ts a) (hn : x.nullable = false)
    (ho : (x.openers.all fun f => match f with
      | .token k => (k.isSpelled || k.isFree || k = .endOfInput)
        && (!Token.opensDollar k || [Token.systemName, .unitScope, .rootScope].contains k)
      | .phrase .identifier => true
      | _ => false) = true) :
    ∃ f ∈ [Pattern.token .systemName, Pattern.token .unitScope, Pattern.token .rootScope],
      f ∈ x.openers ∧ BeginsWith f b ts a := by
  obtain ⟨f, hf, hbegins⟩ := Reads.begins hx hn
  have hall := List.all_eq_true.1 ho f hf
  obtain ⟨t, m, rest, ht, -, -⟩ := id hbegins
  split at hall
  · next k =>
    simp only [Bool.and_eq_true, Bool.or_eq_true, Bool.not_eq_true', List.contains_iff_mem] at hall
    rcases hall.2 with hd | hk
    · obtain ⟨leaf, -, hleaf⟩ := takes_token.1 ht
      exact absurd (stands_of_tokenAt hleaf) (h.not_stands (by simpa using hall.1) hd)
    · refine ⟨_, ?_, hf, hbegins⟩
      simpa using hk
  · obtain ⟨leaf, -, -, hleaf | hleaf⟩ := takes_identifier.1 ht
    · exact absurd (stands_of_tokenAt hleaf) (h.not_stands rfl rfl)
    · exact absurd (stands_of_tokenAt hleaf) (h.not_stands rfl rfl)
  · cases hall

end VerilogLoops.Grammar
