import VerilogLoops.Proofs.Composition
import VerilogLoops.Proofs.Making.Loops

/-!
# How statements are composed

Attributes, blocks, the other statements, and the loop statements with their headers.
-/

namespace VerilogLoops.Ast

open VerilogLoops.Lexical VerilogLoops.Grammar

attribute [local simp] assemble theMember childAt lastChild firstOrNull tokenPiece
  buildLeaf Built.values Spelling.wholeWord Spelling.keyword Spelling.plain
  Spelling.notBefore Kind.admits Kind.types FieldType.holds Kind.agrees Kind.callers
  Kind.heading leadOf Family.kinds isBareCall_node

/-! ## Attributes -/

theorem grows_attributeEntry : Grows .attributeEntry := by
  intro pos ps h
  simp only [Phrase.body, Pattern.row, forms_phrase_seq, forms_opt, forms_phrase] at h
  obtain ⟨_, name, _, rfl, ⟨v, rfl, hv, hb⟩, rfl |
    ⟨_, sign, _, rfl, ⟨w, rfl⟩, _, text, rfl, u, rfl, hu, hub⟩⟩ := h
  · simp only [familyOf] at hv
    refine grown_node .attrSpec [v, .null] ⟨_, rfl, rfl, by simp⟩ ?_
      (by simp) (by simp) (by simp [hv, heads_of_isA hv, hb]) (by simp)
    simp [isA_eq_false hv (g := .expression) (by decide)]
  · simp only [familyOf] at hv hu
    refine grown_node .attrSpec [v, u] ⟨_, rfl, rfl, by simp⟩ ?_ (by simp)
      (by simp) (by simp [hv, hu, heads_of_isA hv, heads_of_isA hu, hb, hub]) (by simp)
    simp [isA_eq_false hv (g := .expression) (by decide), hu]

theorem grows_attribute : Grows .attribute := by
  intro pos ps h
  simp only [Phrase.body, Pattern.row, forms_token_seq] at h
  obtain ⟨_, rfl, qs, rs, rfl, hlist, hclose⟩ := h
  simp only [forms_token] at hclose
  subst hclose
  obtain ⟨vs, hl⟩ := enumerates_of_forms rfl rfl hlist
  have hspecs := hl.sorted.all_isA (g := .only .attrSpec) (by decide)
  refine grown_node .attributeInstance [.seq vs] ⟨_, rfl, rfl, by simp⟩ ?_
    (by simp) ?_ ?_ (by simp)
  · simp (disch := decide) [hl.members, hl.sorted.members]
  · simp [hl.heads, hl.sorted.heads]
  · simp [hl.sorted.heads, hl.ne_nil, hspecs, hl.sorted.notBare]

/-! ## Statements -/

theorem grows_nullStatement : Grows .nullStatement := by
  intro pos ps h
  simp only [Phrase.body, Pattern.row, forms_many_phrase_seq, forms_token] at h
  obtain ⟨attrs, _, rfl, h, rfl⟩ := h
  have hall := allSorted_of_pieces rfl h
  have hattrs := hall.all_isA (g := .only .attributeInstance) (by decide)
  refine grown_node .nullStatement [.seq (valuesOf attrs)]
    ⟨_, rfl, rfl, by simp⟩ ?_ (by simp) (by simp) ?_ (by simp)
  · simp (disch := decide) [hall.members]
  · simp [hall.heads, hattrs, hall.notBare]

/-- The first of some attributes and an item is no name. -/
theorem first_ne_identifier {attrs : List Value} {v : Value} (h : AllSorted .attribute attrs)
    (hv : v.isA .statementItem = true) :
    ∃ first : Value, (attrs ++ [v])[0]? = some first ∧ first.isA (.only .identifier) = false := by
  cases attrs with
  | nil => exact ⟨v, rfl, isA_eq_false hv (by decide)⟩
  | cons u attrs => exact ⟨u, rfl, isA_eq_false (h.isA u List.mem_cons_self) (by decide)⟩

theorem grows_statement : Grows .statement := by
  intro pos ps h
  simp only [Phrase.body, Pattern.row, forms_opt_seq, forms_phrase_seq, forms_many_phrase_seq,
    forms_phrase] at h
  rcases h with ⟨attrs, _, rfl, h, _, text, rfl, v, rfl, hv, hb⟩ |
    ⟨_, label, _, rfl, ⟨u, rfl, hu, hub⟩, attrs, _, rfl, h, _, text, rfl, v, rfl, hv, hb⟩
  · have hall := allSorted_of_pieces rfl h
    have hattrs := hall.all_isA (g := .only .attributeInstance) (by decide)
    simp only [familyOf] at hv
    obtain ⟨first, hfirst, hname⟩ := first_ne_identifier hall hv
    refine grown_node .statement [.null, .seq (valuesOf attrs), v]
      ⟨_, rfl, rfl, by simp⟩ ?_ (by simp) (by simp) ?_ (by simp)
    · simp only [valuesOf_append, valuesOf_cons, valuesOf_nil, List.append_nil, assemble, childAt,
        hfirst]
      simp (disch := decide) [hname, hall.members, hall.members_nil, isA_eq_true hv,
        isA_eq_false hv]
    · simp [hall.heads, hattrs, hall.notBare, hv, heads_of_isA hv, hb]
  · have hall := allSorted_of_pieces rfl h
    have hattrs := hall.all_isA (g := .only .attributeInstance) (by decide)
    simp only [familyOf] at hv hu
    refine grown_node .statement [u, .seq (valuesOf attrs), v]
      ⟨_, rfl, rfl, by simp⟩ ?_ (by simp) (by simp) ?_ (by simp)
    · simp only [valuesOf_append, valuesOf_cons, valuesOf_nil, List.append_nil, assemble, childAt,
        List.cons_append, List.nil_append, List.getElem?_cons_zero, ok_bind]
      simp (disch := decide) [hall.members, hall.members_nil, isA_eq_true hv, isA_eq_false hv,
        isA_eq_true hu, isA_eq_false hu]
    · simp [hall.heads, hattrs, hall.notBare, hv, hu, heads_of_isA hv, heads_of_isA hu, hb, hub]

theorem grows_statementItem : Grows .statementItem := by
  intro pos ps h
  simp only [Phrase.body, Pattern.oneOf, forms_alt, forms_phrase] at h
  rcases h with ⟨_, text, rfl, v, rfl, hv, hb⟩ | ⟨_, text, rfl, v, rfl, hv, hb⟩ |
    ⟨_, text, rfl, v, rfl, hv, hb⟩ | ⟨_, text, rfl, v, rfl, hv, hb⟩ |
    ⟨_, text, rfl, v, rfl, hv, hb⟩ | ⟨_, text, rfl, v, rfl, hv, hb⟩ |
    ⟨_, text, rfl, v, rfl, hv, hb⟩ <;>
  · have hv : v.isA .statementItem = true := isA_eq_true hv (by decide)
    exact grown_pick ⟨v, rfl, hv, hb⟩ (by simp [hv]) (by simp)

theorem grows_statementOrNull : Grows .statementOrNull := by
  intro pos ps h
  simp only [Phrase.body, Pattern.oneOf, forms_alt, forms_phrase] at h
  rcases h with ⟨_, text, rfl, v, rfl, hv, hb⟩ | ⟨_, text, rfl, v, rfl, hv, hb⟩ <;>
  · have hv : v.isA .statementOrNull = true := isA_eq_true hv (by decide)
    exact grown_pick ⟨v, rfl, hv, hb⟩ (by simp [hv]) (by simp)

theorem grows_conditional : Grows .conditional := by
  intro pos ps h
  simp only [Phrase.body, Pattern.row, forms_token_seq, forms_phrase_seq, forms_opt,
    forms_phrase] at h
  obtain ⟨_, rfl, _, rfl, _, cond, _, rfl, ⟨c, rfl, hc, hcb⟩, _, rfl, _, yes, _, rfl,
    ⟨y, rfl, hy, hyb⟩, rfl | ⟨_, rfl, _, no, rfl, n, rfl, hn, hnb⟩⟩ := h
  · simp only [familyOf] at hc hy
    refine grown_node .conditionalStatement [c, y, .null]
      ⟨_, rfl, rfl, by simp⟩ ?_ (by simp) (by simp)
      (by simp [hc, hy, heads_of_isA hc, heads_of_isA hy, hcb, hyb]) (by simp)
    simp (disch := decide) [hc, hy, isA_eq_false hc, isA_eq_false hy]
  · simp only [familyOf] at hc hy hn
    refine grown_node .conditionalStatement [c, y, n]
      ⟨_, rfl, rfl, by simp⟩ ?_ (by simp) (by simp)
      (by simp [hc, hy, hn, heads_of_isA hc, heads_of_isA hy, heads_of_isA hn, hcb, hyb, hnb])
      (by simp)
    simp (disch := decide) [hc, hy, hn, isA_eq_false hc, isA_eq_false hy, isA_eq_false hn]

theorem grows_jump : Grows .jump := by
  intro pos ps h
  simp only [Phrase.body, Pattern.row, Pattern.oneOf, forms_alt, forms_token_seq, forms_opt_seq,
    forms_phrase_seq, forms_token] at h
  rcases h with ⟨_, rfl, rfl | ⟨_, text, _, rfl, ⟨v, rfl, hv, hb⟩, rfl⟩⟩ | ⟨_, rfl, rfl⟩ |
    ⟨_, rfl, rfl⟩
  · exact grown_node .jumpStatement [.text "return", .null]
      ⟨_, rfl, rfl, by simp⟩ (by simp) (by simp) (by simp) (by simp) (by simp)
  · simp only [familyOf] at hv
    exact grown_node .jumpStatement [.text "return", v]
      ⟨_, rfl, rfl, by simp⟩ (by simp [hv]) (by simp) (by simp)
      (by simp [hv, heads_of_isA hv, hb]) (by simp)
  · exact grown_node .jumpStatement [.text "break", .null]
      ⟨_, rfl, rfl, by simp⟩ (by simp) (by simp) (by simp) (by simp) (by simp)
  · exact grown_node .jumpStatement [.text "continue", .null]
      ⟨_, rfl, rfl, by simp⟩ (by simp) (by simp) (by simp) (by simp) (by simp)

theorem grows_assignmentStatement : Grows .assignmentStatement := by
  intro pos ps h
  simp only [Phrase.body, Pattern.row, forms_phrase_seq, forms_token] at h
  obtain ⟨_, text, _, rfl, ⟨v, rfl, hv, hb⟩, rfl⟩ := h
  simp only [familyOf] at hv
  exact grown_node .blockingAssignment [v] ⟨_, rfl, rfl, by simp⟩
    (by simp [hv]) (by simp) (by simp) (by simp [hv, heads_of_isA hv, hb]) (by simp)

theorem grows_stepStatement : Grows .stepStatement := by
  intro pos ps h
  simp only [Phrase.body, Pattern.row, forms_phrase_seq, forms_token] at h
  obtain ⟨_, text, _, rfl, ⟨v, rfl, hv, hb⟩, rfl⟩ := h
  simp only [familyOf] at hv
  exact grown_node .incOrDecStatement [v] ⟨_, rfl, rfl, by simp⟩
    (by simp [hv]) (by simp) (by simp) (by simp [hv, heads_of_isA hv, hb]) (by simp)

/-- In a call statement the call may go without parentheses. -/
theorem grows_callStatement : Grows .callStatement := by
  intro pos ps h
  simp only [Phrase.body, Pattern.row, forms_phrase_seq, forms_token] at h
  obtain ⟨_, text, _, rfl, ⟨v, rfl, hv⟩, rfl⟩ := h
  simp only [familyOf] at hv
  exact grown_node .subroutineCallStatement [v] ⟨_, rfl, rfl, by simp⟩
    (by simp [hv]) (by simp) (by simp) (by simp [hv]) (by simp)

/-! ## Blocks -/

/-- A part that may be left out: a value of the sort of the phrase, or none. -/
structure MaybeSorted (q : Phrase) (v : Value) : Prop where
  isA : v = .null ∨ v.isA (familyOf q) = true
  notBare : (v.heads.all fun u => !u.isBareCall) = true

theorem maybeSorted_null (q : Phrase) : MaybeSorted q .null := ⟨Or.inl rfl, rfl⟩

theorem maybeSorted_of_isA {q : Phrase} {v : Value} (hv : v.isA (familyOf q) = true)
    (hb : v.isBareCall = false) : MaybeSorted q v :=
  ⟨Or.inr hv, by simp [heads_of_isA hv, hb]⟩

theorem MaybeSorted.heads_optional {q : Phrase} {v : Value} (h : MaybeSorted q v) :
    headsOf (optional v) = v.heads := by
  unfold optional
  rcases h.isA with rfl | hv
  · rfl
  · simp [ne_null_of_isA hv]

theorem MaybeSorted.heads_labelled {q : Phrase} {v : Value} (h : MaybeSorted q v) :
    headsOf (labelled v) = v.heads := by
  unfold labelled
  rcases h.isA with rfl | hv
  · rfl
  · simp [ne_null_of_isA hv]

theorem maybe_of_forms {q : Phrase} (hq : isSingle q = true) {ps : List Piece}
    (h : Forms Sorts (.opt (.phrase q)) ps) : ∃ v, MaybeSorted q v ∧ valuesOf ps = optional v := by
  rcases h with rfl | ⟨_, text, rfl, hs⟩
  · exact ⟨.null, maybeSorted_null q, rfl⟩
  · obtain ⟨v, rfl, hv, hb⟩ := hs.single hq
    exact ⟨v, maybeSorted_of_isA hv hb, by simp [optional, ne_null_of_isA hv]⟩

/-- A colon and a name, or nothing. -/
theorem label_of_forms {ps : List Piece}
    (h : Forms Sorts (.opt (.seq (.token .colon) (.phrase .identifier))) ps) :
    ∃ name, MaybeSorted .identifier name ∧ valuesOf ps = labelled name := by
  simp only [forms_opt, forms_token_seq, forms_phrase] at h
  rcases h with rfl | ⟨_, rfl, _, text, rfl, v, rfl, hv, hb⟩
  · exact ⟨.null, maybeSorted_null _, rfl⟩
  · exact ⟨v, maybeSorted_of_isA hv hb, by simp [labelled, ne_null_of_isA hv]⟩

theorem grows_block : Grows .block := by
  intro pos ps h
  simp only [Phrase.body, Pattern.row, forms_token_seq] at h
  obtain ⟨_, rfl, head, _, rfl, hhead, h⟩ := h
  obtain ⟨items, _, rfl, hitems, h⟩ := forms_many_phrase_seq.1 h
  simp only [forms_token_seq] at h
  obtain ⟨foot, rfl, hfoot⟩ := h
  obtain ⟨name, hn, hname⟩ := label_of_forms hhead
  obtain ⟨last, hl, hlast⟩ := label_of_forms hfoot
  have hall := allSorted_of_pieces rfl hitems
  have hisA := hall.all_isA (g := .statementOrNull) (by decide)
  have hnames := hn.isA
  have hlasts := hl.isA
  simp only [familyOf] at hnames hlasts
  refine grown_node .seqBlock [name, .seq (valuesOf items), last] ⟨_, rfl, rfl, by simp⟩ ?_
    (by simp) ?_ ?_ (by simp)
  · have hblock := assemble_block hnames hlasts hall.isA pos
    rw [← hname, ← hlast] at hblock
    simpa [-assemble] using hblock
  · simp [hname, hlast, hn.heads_labelled, hl.heads_labelled]
  · simp [hnames, hlasts, hisA, hall.heads, hall.notBare, hn.notBare, hl.notBare]

end VerilogLoops.Ast
