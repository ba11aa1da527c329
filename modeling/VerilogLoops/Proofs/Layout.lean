import VerilogLoops.Proofs.Tiling

/-!
# Leaves that lie in a text

A reading is a tree together with a text in which the leaves of the tree lie, one behind the other.
So a reading says which token stands where (`Reads.lays`), with which lexeme it begins
(`Reads.first`), and where its trees start and stop (`Reads.head`, `Reads.stop`).
-/

namespace VerilogLoops.Grammar

open VerilogLoops.Text VerilogLoops.Lexical

/-- The leaves are what is found from one place to another, token by token. -/
def Lays : Place → List Leaf → Place → Prop
  | s, [], a => a = s
  | s, l :: ls, a =>
    ∃ m, tokenAt l.token s = some (.leaf l.token l.start l.text, m) ∧ Lays m ls a

variable {s m a : Place} {ls ls' : List Leaf}

theorem Lays.append (h : Lays s ls m) (h' : Lays m ls' a) : Lays s (ls ++ ls') a := by
  induction ls generalizing s with
  | nil =>
    cases h
    exact h'
  | cons l ls ih =>
    obtain ⟨b, hb, hrest⟩ := h
    exact ⟨b, hb, ih hrest⟩

theorem Lays.ahead (h : Lays s ls a) : s.Ahead a := by
  induction ls generalizing s with
  | nil =>
    cases h
    exact .refl a
  | cons l ls ih =>
    obtain ⟨m, hm, hls⟩ := h
    exact (tokenAt_ahead hm).trans (ih hls)

/-- A token that is found lies there. -/
theorem lays_of_tokenAt {t : Token} {leaf : ParseTree} (h : tokenAt t s = some (leaf, a)) :
    Lays s leaf.leaves a := by
  obtain ⟨start, text, rfl⟩ := tokenAt_eq_leaf h
  exact ⟨a, h, rfl⟩

/-- A lexeme is one leaf, under a node of its own if it is a phrase. -/
theorem LexemeAt.exists_leaf {x : Pattern} {t : ParseTree} (h : LexemeAt x s t a)
    (hx : x.isLexeme = true) : ∃ k leaf, tokenAt k s = some (leaf, a) ∧
      (t = leaf ∨ ∃ p, t = .node (.phrase p) [leaf]) := by
  unfold Pattern.isLexeme at hx
  split at hx
  · obtain ⟨leaf, heq, hleaf⟩ := takes_token.1 h
    cases heq
    exact ⟨_, _, hleaf, Or.inl rfl⟩
  · obtain ⟨leaf, heq, -, hleaf | hleaf⟩ := takes_identifier.1 h <;> cases heq <;>
      exact ⟨_, leaf, hleaf, Or.inr ⟨_, rfl⟩⟩
  · obtain ⟨leaf, heq, hleaf, -⟩ := takes_assignSign.1 h
    cases heq
    exact ⟨_, leaf, hleaf, Or.inr ⟨_, rfl⟩⟩
  · cases hx

/-- The leaves of a lexeme lie where it is taken. -/
theorem LexemeAt.lays {x : Pattern} {t : ParseTree} (hx : x.isLexeme = true)
    (h : LexemeAt x s t a) : Lays s t.leaves a := by
  obtain ⟨k, leaf, hleaf, heq | ⟨p, heq⟩⟩ := h.exists_leaf hx <;> rw [heq]
  · exact lays_of_tokenAt hleaf
  · simpa using lays_of_tokenAt hleaf

/-- The leaves of a reading lie between its places. -/
theorem Reads.lays {x : Pattern} {ts : List ParseTree} (h : Reads x s ts a) :
    Lays s (leavesOf ts) a := by
  induction h with
  | lexeme hx h => simpa using LexemeAt.lays hx h
  | phrase _ _ ih => simpa using ih
  | seq _ _ ihx ihy | step _ _ ihx ihy =>
    rw [leavesOf_append]
    exact ihx.append ihy
  | first _ ih | second _ ih | given _ ih => exact ih
  | omitted | stop | last => rfl
  | next hm _ _ ihx ihr =>
    rw [List.cons_append, leavesOf_cons, leavesOf_append]
    exact (LexemeAt.lays rfl hm).append (ihx.append ihr)

/-- The reading begins with a lexeme, and the other leaves lie behind it. -/
def BeginsWith (f : Pattern) (s : Place) (ts : List ParseTree) (a : Place) : Prop :=
  ∃ t m rest, LexemeAt f s t m ∧ leavesOf ts = t.leaves ++ rest ∧ Lays m rest a

theorem BeginsWith.append {f : Pattern} {ts us : List ParseTree} (h : BeginsWith f s ts m)
    (h' : Lays m (leavesOf us) a) : BeginsWith f s (ts ++ us) a := by
  obtain ⟨t, b, rest, ht, heq, hrest⟩ := h
  exact ⟨t, b, rest ++ leavesOf us, ht, by rw [leavesOf_append, heq, List.append_assoc],
    hrest.append h'⟩

theorem beginsWith_lexeme {x : Pattern} {t : ParseTree} (h : LexemeAt x s t a) :
    BeginsWith x s [t] a :=
  ⟨t, a, [], h, by simp, rfl⟩

/-- A reading is empty or begins with one of the openers of its pattern. -/
theorem Reads.first {x : Pattern} {ts : List ParseTree} (h : Reads x s ts a) :
    (ts = [] ∧ a = s) ∨ ∃ f ∈ x.openers, BeginsWith f s ts a := by
  induction h with
  | @lexeme x s t a hx h =>
    refine Or.inr ⟨x, ?_, beginsWith_lexeme h⟩
    unfold Pattern.isLexeme at hx
    split at hx
    · simp [Pattern.openers]
    · simp [Pattern.openers, Phrase.openers]
    · simp [Pattern.openers, Phrase.openers]
    · cases hx
  | @phrase p s ts a hp h ih =>
    rcases ih with ⟨rfl, -⟩ | ⟨f, hf, hm⟩
    · exact absurd rfl (h.ne_nil p.body_nullable)
    · obtain ⟨t, m, rest, ht, heq, hrest⟩ := hm
      exact Or.inr ⟨f, Phrase.openers_body hp hf, t, m, rest, ht, by simpa using heq, hrest⟩
  | @seq x y s ts m us a hx hy ihx ihy =>
    rcases ihx with ⟨rfl, rfl⟩ | ⟨f, hf, hm⟩
    · -- the first part is empty, so it can be left out
      have hnull : x.nullable = true := hx.nullable_of_nil
      rcases ihy with hus | ⟨f, hf, hm⟩
      · exact Or.inl hus
      · exact Or.inr ⟨f, by simp [Pattern.openers, hnull, hf], hm⟩
    · exact Or.inr ⟨f, by simp [Pattern.openers, hf], hm.append (Reads.lays hy)⟩
  | first _ ih | second _ ih =>
    rcases ih with hnone | ⟨f, hf, hm⟩
    · exact Or.inl hnone
    · exact Or.inr ⟨f, by simp [Pattern.openers, hf], hm⟩
  | omitted | stop | last => exact Or.inl ⟨rfl, rfl⟩
  | given _ ih => exact ih
  | @step x s ts m us a hx hr ihx ihr =>
    rcases ihx with ⟨rfl, rfl⟩ | ⟨f, hf, hm⟩
    · exact ihr
    · exact Or.inr ⟨f, hf, hm.append (Reads.lays hr)⟩
  | @next t x s mark m ts n us a hm hx hr _ _ =>
    refine Or.inr ⟨.token t, by simp [Pattern.openers], ?_⟩
    have hrest : Lays m (leavesOf (ts ++ us)) a := by
      rw [leavesOf_append]
      exact (Reads.lays hx).append (Reads.lays hr)
    exact (beginsWith_lexeme hm).append hrest

/-- A reading of a pattern that cannot match nothing begins with one of its openers. -/
theorem Reads.begins {x : Pattern} {ts : List ParseTree} (h : Reads x s ts a)
    (hn : x.nullable = false) : ∃ f ∈ x.openers, BeginsWith f s ts a := by
  rcases Reads.first h with ⟨rfl, -⟩ | hf
  · exact absurd rfl (h.ne_nil hn)
  · exact hf

/-! ## Where trees start and stop -/

/-- Only an empty reading ends where it begins. -/
theorem Reads.eq_of_nil {x : Pattern} (h : Reads x s [] a) : a = s := Reads.lays h

/-- The tree starts with the first token behind the trivia, which is empty only at the end of the
input. -/
structure HeadsText (s : Place) (t : ParseTree) : Prop where
  start : t.start = s.offset + triviaLength s.rest
  text : ∃ rest, s.rest.drop (triviaLength s.rest) = t.firstText.toList ++ rest
  empty : t.firstText = "" → Stands .endOfInput s

theorem headsText_of_tokenAt {k : Token} {leaf : ParseTree} (h : tokenAt k s = some (leaf, a)) :
    HeadsText s leaf := by
  obtain ⟨text, hrest, hlen, rfl, -⟩ := tokenAt_iff.1 h
  refine ⟨rfl, ⟨a.rest, by simpa [ParseTree.firstText] using hrest⟩, fun hempty => ?_⟩
  have hnil : text = [] := String.ofList_eq_empty_iff.1 hempty
  by_cases hk : k = .endOfInput
  · exact hk ▸ stands_of_tokenAt h
  · have hpos := (Token.length?_within hk hlen).1
    rw [hnil] at hpos
    cases hpos

/-- A reading starts with the first token behind the trivia. -/
theorem Reads.head {x : Pattern} {ts : List ParseTree} (h : Reads x s ts a) :
    ∀ t ∈ ts.head?, HeadsText s t := by
  have ofLexeme : ∀ {x : Pattern} {s a : Place} {t : ParseTree}, x.isLexeme = true →
      LexemeAt x s t a → HeadsText s t := by
    intro x s a t hx h
    obtain ⟨k, leaf, hleaf, heq | ⟨p, heq⟩⟩ := h.exists_leaf hx <;> rw [heq]
    · exact headsText_of_tokenAt hleaf
    · obtain ⟨hstart, htext, hempty⟩ := headsText_of_tokenAt hleaf
      exact ⟨hstart, htext, hempty⟩
  induction h with
  | lexeme hx h =>
    intro t ht
    cases ht
    exact ofLexeme hx h
  | @phrase p s ts a _ h ih =>
    intro t ht
    cases ht
    cases ts with
    | nil => exact absurd rfl (h.ne_nil p.body_nullable)
    | cons u us =>
      obtain ⟨hstart, htext, hempty⟩ := ih u rfl
      exact ⟨hstart, htext, hempty⟩
  | @seq x y s ts m us a hx hy ihx ihy | @step x s ts m us a hx hy ihx ihy =>
    cases ts with
    | nil =>
      -- an empty first part does not move on
      cases Reads.eq_of_nil hx
      exact ihy
    | cons u ts => exact ihx
  | first _ ih | second _ ih | given _ ih => exact ih
  | omitted | stop | last => simp
  | next hm _ _ _ _ =>
    intro t ht
    cases ht
    exact ofLexeme rfl hm

theorem stopOfLast_append (ts : List ParseTree) {us : List ParseTree} (h : us ≠ []) :
    ParseTree.stop.stopOfLast (ts ++ us) = ParseTree.stop.stopOfLast us := by
  induction ts with
  | nil => rfl
  | cons t rest ih =>
    rw [← ih]
    have hne : rest ++ us ≠ [] := by simp [h]
    obtain ⟨u, vs, heq⟩ := List.exists_cons_of_ne_nil hne
    rw [List.cons_append, heq, ParseTree.stop.stopOfLast]

/-- The leaf of a token ends where the token does. -/
theorem stop_of_tokenAt {t : Token} {leaf : ParseTree} (h : tokenAt t s = some (leaf, a)) :
    leaf.stop = a.offset := by
  obtain ⟨text, -, -, rfl, hoff⟩ := tokenAt_iff.1 h
  rw [hoff]
  simp [ParseTree.stop]

/-- A reading stops with its last tree. -/
theorem Reads.stop {x : Pattern} {ts : List ParseTree} (h : Reads x s ts a) (hts : ts ≠ []) :
    ParseTree.stop.stopOfLast ts = a.offset := by
  have ofLexeme : ∀ {x : Pattern} {s a : Place} {t : ParseTree}, x.isLexeme = true →
      LexemeAt x s t a → t.stop = a.offset := by
    intro x s a t hx h
    obtain ⟨k, leaf, hleaf, heq | ⟨p, heq⟩⟩ := h.exists_leaf hx <;> rw [heq]
    · exact stop_of_tokenAt hleaf
    · exact (stop_of_tokenAt hleaf :)
  -- an empty second part ends where it starts
  have ofAppend : ∀ {ts us : List ParseTree} {m a : Place}, ts ++ us ≠ [] → (us = [] → a = m) →
      (ts ≠ [] → ParseTree.stop.stopOfLast ts = m.offset) →
        (us ≠ [] → ParseTree.stop.stopOfLast us = a.offset) →
          ParseTree.stop.stopOfLast (ts ++ us) = a.offset := by
    intro ts us m a hne hnil hts hus
    by_cases h : us = []
    · subst h
      rw [List.append_nil] at hne ⊢
      rw [hts hne, hnil rfl]
    · rw [stopOfLast_append _ h, hus h]
  induction h with
  | lexeme hx h => exact ofLexeme hx h
  | @phrase p s ts a _ h ih => exact ih (h.ne_nil p.body_nullable)
  | seq _ hy ihx ihy | step _ hy ihx ihy =>
    refine ofAppend hts (fun hnil => ?_) ihx ihy
    subst hnil
    exact Reads.eq_of_nil hy
  | first _ ih | second _ ih | given _ ih => exact ih hts
  | omitted | stop | last => exact absurd rfl hts
  | @next t x s mark m ts n us a hm hx hr ihx ihr =>
    refine ofAppend (m := n) hts (fun hnil => ?_) (fun _ => ?_) ihr
    · subst hnil
      exact Reads.eq_of_nil hr
    · rw [← List.singleton_append]
      refine ofAppend (m := m) (by simp) (fun hnil => ?_) (fun _ => ofLexeme rfl hm) ihx
      subst hnil
      exact Reads.eq_of_nil hx

end VerilogLoops.Grammar
