import VerilogLoops.Proofs.NearestIf

/-!
# The parts of a phrase

What is left of the children of a node, when some are taken away, has no more the form that its phrase asks
for. But each child that is left is still of one of the tokens or phrases in it. So the values that are made
of them can be counted: the members of a family, a word, or all of them.

> `length_membersOf`: so many values are of the family as are children of the phrase.
> `count_text`: so many values are the word as are children of the token.
> `length_valuesOf`: there are as many values as children.
-/

namespace VerilogLoops.Grammar

open VerilogLoops.Lexical

/-- The tokens of a pattern, without those of its phrases. -/
def Pattern.ownTokens : Pattern → List Token
  | .token t => [t]
  | .phrase _ => []
  | .seq x y | .alt x y => x.ownTokens ++ y.ownTokens
  | .opt x | .many x | .absent x => x.ownTokens
  | .tail t x => t :: x.ownTokens

end VerilogLoops.Grammar

namespace VerilogLoops.Ast

open VerilogLoops.Lexical VerilogLoops.Grammar

/-- The piece is of a token or a phrase of the pattern. -/
def PartOf (x : Pattern) (piece : Piece) : Prop :=
  (∃ t pos text, t ∈ x.ownTokens ∧ t.HasForm text ∧ piece = tokenPiece t pos text) ∨
    ∃ q values text, q ∈ x.calls ∧ Sorts q values text ∧ piece = ⟨.phrase q, values, text⟩

section Parts

variable {x : Pattern} {q : Phrase} {f : Family} {t : Token} {word : String} {piece : Piece}
  {ps qs : List Piece}

theorem PartOf.imp {y : Pattern} (h : PartOf x piece) (hn : x.ownTokens ⊆ y.ownTokens)
    (hc : x.calls ⊆ y.calls) : PartOf y piece :=
  Or.imp (fun ⟨t, pos, text, ht, h⟩ => ⟨t, pos, text, hn ht, h⟩)
    (fun ⟨q, values, text, hq, h⟩ => ⟨q, values, text, hc hq, h⟩) h

/-- Pieces of the form of a pattern are parts of it. -/
theorem partOf_of_forms (h : Forms Sorts x ps) : ∀ piece ∈ ps, PartOf x piece := by
  induction x generalizing ps with
  | token t =>
    rw [forms_token] at h
    -- a token with one spelling writes that; any other one writes the text that was read
    split at h
    · next word hw =>
      subst h
      have hform : t.HasForm word := by
        cases t with
        | number | string | systemName | endOfInput => cases hw
        | _ => simp only [Token.HasForm, hw]
      simp only [List.mem_singleton, forall_eq]
      exact .inl ⟨t, .unknown, word, by simp [Pattern.ownTokens], hform,
        (tokenPiece_of_word hw hform _).symm⟩
    · obtain ⟨text, pos, rfl, hform⟩ := h
      simp only [List.mem_singleton, forall_eq]
      exact .inl ⟨t, pos, text, by simp [Pattern.ownTokens], hform, rfl⟩
  | phrase q =>
    obtain ⟨values, text, rfl, hs⟩ := h
    simp only [List.mem_singleton, forall_eq]
    exact .inr ⟨q, values, text, by simp [Pattern.calls], hs, rfl⟩
  | seq x y ihx ihy =>
    obtain ⟨qs, rs, rfl, hx, hy⟩ := h
    intro piece hp
    rcases List.mem_append.1 hp with hp | hp
    · -- the parts of either are parts of both
      exact (ihx hx piece hp).imp (by simp [Pattern.ownTokens]) (by simp [Pattern.calls])
    · exact (ihy hy piece hp).imp (by simp [Pattern.ownTokens]) (by simp [Pattern.calls])
  | alt x y ihx ihy =>
    rcases h with h | h
    · exact fun piece hp => (ihx h piece hp).imp (by simp [Pattern.ownTokens]) (by simp [Pattern.calls])
    · exact fun piece hp => (ihy h piece hp).imp (by simp [Pattern.ownTokens]) (by simp [Pattern.calls])
  | opt x ih =>
    rcases h with rfl | h
    · simp
    · exact ih h
  | many x ih =>
    obtain ⟨groups, rfl, hall⟩ := h
    intro piece hp
    obtain ⟨group, hgroup, hp⟩ := List.mem_flatten.1 hp
    exact ih (hall group hgroup) piece hp
  | tail t x ih =>
    obtain ⟨groups, rfl, hall⟩ := h
    intro piece hp
    obtain ⟨group, hgroup, hp⟩ := List.mem_flatten.1 hp
    obtain ⟨text, pos, rs, rfl, hform, hx⟩ := hall group hgroup
    rcases List.mem_cons.1 hp with rfl | hp
    · exact .inl ⟨t, pos, text, by simp [Pattern.ownTokens], hform, rfl⟩
    · exact (ih hx piece hp).imp (by simp [Pattern.ownTokens]) fun _ hq => hq
  | absent x =>
    cases h
    simp

theorem mem_calls_of_parts (h : ∀ piece ∈ qs, PartOf x piece) (hq : .phrase q ∈ qs.map Piece.symbol) :
    q ∈ x.calls := by
  obtain ⟨piece, hp, hsymbol⟩ := List.mem_map.1 hq
  rcases h piece hp with ⟨t, pos, text, -, -, rfl⟩ | ⟨r, values, text, hr, -, rfl⟩
  · cases hsymbol
  · cases hsymbol
    exact hr

/-- Among what is made of the parts, the members of the family are what is made of the phrase. -/
def countsMembers (x : Pattern) (q : Phrase) (f : Family) : Bool :=
  (x.ownTokens.all fun t => t ≠ .number && t ≠ .string) &&
    x.calls.all fun r => if r = q then isSingle r && (familyOf r).within f else (familyOf r).apart f

/-- So many children are of the family as are matches of the phrase. -/
theorem length_membersOf (hx : countsMembers x q f = true) (h : ∀ piece ∈ qs, PartOf x piece) :
    (membersOf f (valuesOf qs)).length = (qs.map Piece.symbol).count (.phrase q) := by
  simp only [countsMembers, Bool.and_eq_true, List.all_eq_true, decide_eq_true_eq] at hx
  obtain ⟨hnamed, hcalls⟩ := hx
  -- a match of the phrase makes one member of the family, and any other part makes none
  induction qs with
  | nil => rfl
  | cons piece qs ih =>
    have ih := ih fun u hu => h u (List.mem_cons_of_mem _ hu)
    rw [valuesOf_cons, membersOf_append, List.length_append, ih, List.map_cons, List.count_cons, Nat.add_comm]
    congr 1
    rcases h piece List.mem_cons_self with ⟨t, pos, text, ht, -, rfl⟩ | ⟨r, values, text, hr, hs, rfl⟩
    · have hother := hnamed t ht
      cases t <;> first | rfl | simp at hother
    · have hr := hcalls r hr
      split at hr
      · next heq =>
        subst heq
        simp only [Bool.and_eq_true] at hr
        obtain ⟨v, rfl, hv, -⟩ := hs.single hr.1
        simp [isA_eq_true hv hr.2]
      · next hne =>
        have hnone : membersOf f values = [] := by
          rw [membersOf, List.filter_eq_nil_iff]
          intro v hv
          rcases hs.isA hv with hv | ⟨-, s, rfl⟩
          · simp [isA_eq_false hv hr]
          · simp
        simp [hnone, hne]

theorem length_expressions (hx : countsMembers x .expression .expression = true)
    (h : ∀ piece ∈ qs, PartOf x piece) :
    (membersOf .expression (valuesOf qs)).length = (qs.map Piece.symbol).count (.phrase .expression) :=
  length_membersOf hx h

theorem length_statements (hx : countsMembers x .statementOrNull .statementOrNull = true)
    (h : ∀ piece ∈ qs, PartOf x piece) :
    (membersOf .statementOrNull (valuesOf qs)).length =
      (qs.map Piece.symbol).count (.phrase .statementOrNull) :=
  length_membersOf hx h

/-- The word is written by the token, and by no other part. -/
def marksWord (x : Pattern) (t : Token) (word : String) : Bool :=
  t.word? = some word && (x.ownTokens.all fun u => u.word?.isSome && (u = t || u.word? ≠ some word)) &&
    x.calls.all fun q => q ≠ .comment && q ≠ .assignSign

/-- So many children are the word as are leaves of the token. -/
theorem count_text (t : Token) (word : String) (hx : marksWord x t word = true)
    (h : ∀ piece ∈ qs, PartOf x piece) :
    (valuesOf qs).count (.text word) = (qs.map Piece.symbol).count (.token t) := by
  simp only [marksWord, Bool.and_eq_true, Bool.or_eq_true, List.all_eq_true, decide_eq_true_eq] at hx
  obtain ⟨⟨ht, hnamed⟩, hcalls⟩ := hx
  induction qs with
  | nil => rfl
  | cons piece qs ih =>
    have ih := ih fun u hu => h u (List.mem_cons_of_mem _ hu)
    rw [valuesOf_cons, List.count_append, ih, List.map_cons, List.count_cons, Nat.add_comm]
    congr 1
    rcases h piece List.mem_cons_self with ⟨u, pos, text, hu, hform, rfl⟩ | ⟨r, values, text, hr, hs, rfl⟩
    · obtain ⟨hsome, hu⟩ := hnamed u hu
      obtain ⟨w, hw⟩ := Option.isSome_iff_exists.1 hsome
      rw [tokenPiece_of_word hw hform]
      -- two tokens of the phrase do not share the word
      rcases hu with rfl | hne
      · rw [ht] at hw
        cases hw
        simp
      · have hut : u ≠ t := by
          rintro rfl
          exact hne ht
        have hword : w ≠ word := by
          rintro rfl
          exact hne hw
        simp [hut, hword]
    · have hr := hcalls r hr
      have hnone : Value.text word ∉ values := fun hv => by
        rcases hs.isA hv with hv | ⟨hsign, -⟩
        · cases hv
        · rcases hsign with rfl | rfl <;> simp at hr
      simp [List.count_eq_zero.2 hnone]

/-- The phrases whose values are spliced into the phrase around them. -/
def isSpliced : Phrase → Bool
  | .arguments | .forStep | .variableAssignments => true
  | _ => false

theorem Sorts.one (hq : isSpliced q = false) {values : List Value} {text : String}
    (h : Sorts q values text) : ∃ v, values = [v] := by
  cases q with
  | arguments | forStep | variableAssignments => cases hq
  | comment | assignSign =>
    obtain ⟨s, rfl⟩ := h
    exact ⟨_, rfl⟩
  | _ =>
    obtain ⟨v, rfl, -⟩ := h
    exact ⟨v, rfl⟩

/-- Every part makes a single value. -/
def isUnits (x : Pattern) : Bool :=
  x.ownTokens.all (· ≠ .endOfInput) &&
    x.calls.all fun q => !isSpliced q

theorem length_valuesOf (hx : isUnits x = true) (h : ∀ piece ∈ qs, PartOf x piece) :
    (valuesOf qs).length = qs.length := by
  simp only [isUnits, Bool.and_eq_true, List.all_eq_true, decide_eq_true_eq] at hx
  obtain ⟨hnamed, hcalls⟩ := hx
  induction qs with
  | nil => rfl
  | cons piece qs ih =>
    have ih := ih fun u hu => h u (List.mem_cons_of_mem _ hu)
    rw [valuesOf_cons, List.length_append, ih, List.length_cons, Nat.add_comm]
    congr 1
    rcases h piece List.mem_cons_self with ⟨t, pos, text, ht, -, rfl⟩ | ⟨r, values, text, hr, hs, rfl⟩
    · have ht := hnamed t ht
      cases t <;> first | rfl | exact absurd rfl ht
    · obtain ⟨v, rfl⟩ := hs.one (by simpa using hcalls r hr)
      rfl

/-- What a part makes is not nothing, unless it is the end of the input. -/
theorem PartOf.values_ne_nil (h : PartOf x piece) (hx : .endOfInput ∉ x.ownTokens) : piece.values ≠ [] := by
  rcases h with ⟨t, pos, text, ht, -, rfl⟩ | ⟨q, values, text, -, hs, rfl⟩
  · have hne : t ≠ .endOfInput := by
      rintro rfl
      exact hx ht
    cases t <;> first | exact List.cons_ne_nil _ _ | exact absurd rfl hne
  · cases hq : isSpliced q with
    | false =>
      obtain ⟨v, rfl⟩ := hs.one hq
      exact List.cons_ne_nil _ _
    | true =>
      cases q with
      | arguments | forStep | variableAssignments => exact hs.1
      | _ => cases hq

end Parts

end VerilogLoops.Ast
