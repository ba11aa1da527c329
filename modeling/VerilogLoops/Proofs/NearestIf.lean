import VerilogLoops.Proofs.Inked
import VerilogLoops.Proofs.Neighbours
import VerilogLoops.Proofs.Typing
import VerilogLoops.Proofs.Statement.Taken

/-!
# An `else` belongs to the nearest `if`

A statement is *open* if an `else` behind it would belong to it. In a parse tree the open statements are
told by how they end (`IsOpen`), and no first branch in front of an `else` ends so, since the tree is
ordered; in a syntax tree they are told by their fields (`Value.isOpen`). What is built from a parse tree
is open only if the parse tree is, for a statement hands on, or puts last in a node of its own, what is
built from the last of its parts.

> `else_binds_nearest`: in every tree that parsing gives, the first branch of a conditional with `else` is
> not open.
-/

namespace VerilogLoops.Grammar

open VerilogLoops.Text VerilogLoops.Lexical

/-! ## Statements at the end of a phrase -/

/-- A tree that ends in a conditional without `else` is of a phrase that may end in a statement. -/
theorem IsOpen.symbol {t : ParseTree} (h : IsOpen t) :
    ∃ p : Phrase, t.symbol = .phrase p ∧ p.isTrailing = true := by
  obtain ⟨ts, h, -⟩ := h
  cases h with
  | here => exact ⟨.conditional, rfl, rfl⟩
  | last hp h => exact ⟨_, rfl, hp⟩
  | body hf => cases hf
  | branch hf => cases hf

/-- Statements that end in statements have them at their end only, apart from conditionals. -/
theorem last_of_fits {p q : Phrase} (hp : p.isTrailing = true) (hc : p ≠ .conditional)
    {children : List ParseTree} (h : Fits p.body children) {t : ParseTree} (ht : t ∈ children)
    (hsymbol : t.symbol = .phrase q) (hq : q.isTrailing = true) : ∃ us, children = us ++ [t] := by
  -- in the grammar nothing is written behind such a statement
  have key : ∀ p : Phrase, p.isTrailing = true → p ≠ .conditional → ∀ n ∈ p.body.neighbours,
      ∀ q : Phrase, q.isTrailing = true → n.1 ≠ .phrase q := by decide +kernel
  obtain ⟨us, rest, rfl⟩ := List.append_of_mem ht
  cases rest with
  | nil => exact ⟨us, rfl⟩
  | cons u rest =>
    have hchain := (List.isChain_append.1 (strung_of_fits h).chain).2.1
    have hpair := (List.isChain_cons_cons.1 hchain).1
    exact absurd hsymbol (key p hp hc _ hpair q hq)

/-- Only the keyword, a reserved word as such and an identifier may be written as `if`. -/
theorem token_of_writes_if {t : Token} (h : t.Writes "if") :
    t = .keywordIf ∨ t = .reservedWord ∨ t = .identifier := by
  have hwords : ∀ t : Token, "if" ∈ t.words → t = .keywordIf ∨ t = .reservedWord := by
    simp only [Token.words, ← Token.spelled_eq]
    decide +kernel
  by_cases hs : t.isSpelled = true
  · exact (hwords t (h.mem_words hs)).imp_right .inl
  · obtain ⟨rest, h⟩ := h
    by_cases hf : t.isFree = true
    · obtain ⟨c, more, heq, hc⟩ := freeTokenAt_of_length? hf h
      cases heq
      exact .inr (.inr (Option.some.inj (hc.symm.trans (by decide))))
    · cases t with
      | lineComment | blockComment | endOfInput => cases h
      | _ => first | exact absurd rfl hf | exact absurd (by decide) hs

/-- Only conditionals begin with a leaf that is written as `if`. -/
theorem conditional_of_fits {p : Phrase} (hp : p ≠ .identifier) {t : Token} {start : Nat}
    {rest : List ParseTree} (h : Fits p.body (.leaf t start "if" :: rest)) : p = .conditional := by
  have key : ∀ p : Phrase, p ≠ .identifier →
      (∃ t ∈ [Token.keywordIf, .reservedWord, .identifier], .token t ∈ p.body.starts) → p = .conditional := by
    decide +kernel
  have hstart : Pattern.token t ∈ p.body.starts := (strung_of_fits h).start _ rfl
  have hwrites : t.Writes "if" := writes_of_fits h ⟨t, start, "if"⟩ (by simp)
  refine key p hp ⟨t, ?_, hstart⟩
  simpa using token_of_writes_if hwrites

end VerilogLoops.Grammar

namespace VerilogLoops.Ast

open VerilogLoops.Lexical VerilogLoops.Grammar

/-! ## Open statements -/

/-- An `else` behind the statement would belong to it: its item is a conditional without `else`, a
conditional with an open statement behind its `else`, or a loop with an open body at its end. -/
def Value.isOpen : Value → Bool
  | .node .statement _ [_, _, item] => item.isOpen
  | .node .conditionalStatement _ [_, _, other] => other = .null || other.isOpen
  | .node .loopForever _ [body] => body.isOpen
  | .node .loopRepeat _ [_, body] => body.isOpen
  | .node .loopWhile _ [_, body] => body.isOpen
  | .node .loopFor _ [_, _, _, body] => body.isOpen
  | .node .loopForeach _ [_, _, body] => body.isOpen
  | _ => false

/-- The kinds of statements that can be open. -/
def Kind.openable : List Kind :=
  [.statement, .conditionalStatement, .loopForever, .loopRepeat, .loopWhile, .loopFor, .loopForeach]

theorem kind_of_isOpen {v : Value} (h : v.isOpen = true) :
    ∃ kind pos fields, v = .node kind pos fields ∧ kind ∈ Kind.openable := by
  unfold Value.isOpen at h
  split at h <;> first | exact ⟨_, _, _, rfl, by decide⟩ | cases h

theorem not_isOpen_of_isA {v : Value} {f : Family} (hv : v.isA f = true)
    (hf : (Kind.openable.all fun k => !f.kinds.contains k) = true) : v.isOpen = false := by
  rw [← Bool.not_eq_true]
  intro ho
  obtain ⟨kind, pos, fields, rfl, hkind⟩ := kind_of_isOpen ho
  have hout := List.all_eq_true.1 hf kind hkind
  rw [isA_node] at hv
  rw [hv] at hout
  cases hout

/-! ## What a phrase makes -/

section Assemble

variable {p : Phrase} {f : Family} {pos : Position} {vs : List Value} {v : Value} {b : Built}

/-- What a phrase makes is of its family, or a text if it is a sign or a comment. -/
theorem Sorts.isA {text : String} (h : Sorts p vs text) (hv : v ∈ vs) :
    v.isA (familyOf p) = true ∨ (p = .comment ∨ p = .assignSign) ∧ ∃ s, v = .text s := by
  cases p with
  | comment | assignSign =>
    obtain ⟨s, rfl⟩ := h
    exact .inr ⟨by simp, s, List.mem_singleton.1 hv⟩
  | arguments | forStep | variableAssignments => exact .inl (h.2 v hv).1
  | call | routineCall | lvalue | lvalueConcatenation =>
    obtain ⟨u, rfl, hu⟩ := h
    cases List.mem_singleton.1 hv
    first | exact .inl hu | exact .inl hu.1
  | _ =>
    obtain ⟨u, rfl, hu, -⟩ := h
    cases List.mem_singleton.1 hv
    exact .inl hu

/-- What a phrase other than a conditional makes is open only if the phrase may end in a statement and
something that it is made of is open. -/
theorem open_of_assemble (hb : assemble p pos vs = .ok b) (hs : Sorts p b.values "") (hc : p ≠ .conditional)
    (hu : p ≠ .loopUnit) (hv : v ∈ b.values) (ho : v.isOpen = true) :
    p.isTrailing = true ∧ ∃ w ∈ vs, w.isOpen = true := by
  cases p with
  | conditional => exact absurd rfl hc
  | loopUnit => exact absurd rfl hu
  | statementOrNull | statementItem | loop =>
    simp only [assemble, bind_eq_ok, pure_eq_ok, Except.ok.injEq] at hb
    obtain ⟨w, hw, rfl⟩ := hb
    cases List.mem_singleton.1 hv
    exact ⟨rfl, _, theMember_mem hw, ho⟩
  | statement =>
    simp only [assemble, bind_eq_ok, pure_eq_ok, Except.ok.injEq] at hb
    obtain ⟨first, -, item, hitem, rfl⟩ := hb
    cases List.mem_singleton.1 hv
    exact ⟨rfl, item, theMember_mem hitem, by simpa [Value.isOpen] using ho⟩
  | foreverLoop =>
    simp only [assemble, bind_eq_ok, pure_eq_ok, Except.ok.injEq] at hb
    obtain ⟨body, hbody, rfl⟩ := hb
    cases List.mem_singleton.1 hv
    exact ⟨rfl, body, theMember_mem hbody, by simpa [Value.isOpen] using ho⟩
  | repeatLoop | whileLoop =>
    simp only [assemble, bind_eq_ok, pure_eq_ok, Except.ok.injEq] at hb
    obtain ⟨condition, -, body, hbody, rfl⟩ := hb
    cases List.mem_singleton.1 hv
    exact ⟨rfl, body, theMember_mem hbody, by simpa [Value.isOpen] using ho⟩
  | foreachLoop =>
    simp only [assemble, bind_eq_ok, pure_eq_ok, Except.ok.injEq] at hb
    obtain ⟨array, -, slots, -, body, hbody, rfl⟩ := hb
    cases List.mem_singleton.1 hv
    exact ⟨rfl, body, theMember_mem hbody, by simpa [Value.isOpen] using ho⟩
  | forLoop =>
    simp only [assemble] at hb
    split at hb
    · simp only [bind_eq_ok, pure_eq_ok, Except.ok.injEq] at hb
      obtain ⟨body, hbody, rfl⟩ := hb
      cases List.mem_singleton.1 hv
      exact ⟨rfl, body, List.mem_of_mem_drop (theMember_mem hbody), by simpa [Value.isOpen] using ho⟩
    · cases hb
  -- from here on the statement ends in something else
  | doWhileLoop =>
    simp only [assemble, bind_eq_ok, pure_eq_ok, Except.ok.injEq] at hb
    obtain ⟨body, -, condition, -, rfl⟩ := hb
    cases List.mem_singleton.1 hv
    simp [Value.isOpen] at ho
  | jump | assignmentStatement | stepStatement | callStatement =>
    simp only [assemble, bind_eq_ok, pure_eq_ok, Except.ok.injEq] at hb
    obtain ⟨first, -, rfl⟩ := hb
    cases List.mem_singleton.1 hv
    simp [Value.isOpen] at ho
  | block =>
    simp only [assemble] at hb
    split at hb
    · cases hb
    · simp only [bind_eq_ok] at hb
      obtain ⟨second, -, hb⟩ := hb
      split at hb <;> simp only [bind_eq_ok, pure_eq_ok, Except.ok.injEq] at hb <;>
        obtain ⟨name, -, rfl⟩ := hb <;> cases List.mem_singleton.1 hv <;> simp [Value.isOpen] at ho
  | _ =>
    rcases hs.isA hv with hisA | ⟨-, s, rfl⟩
    · rw [not_isOpen_of_isA hisA rfl] at ho
      cases ho
    · cases ho

end Assemble

/-! ## From trees to values -/

section Trees

variable {locate : Nat → Position} {children : List ParseTree}

/-- The first branch of each conditional with `else` among the nodes is not open. -/
def BindsNearest (nodes : List Value) : Prop :=
  ∀ pos fields, Value.node .conditionalStatement pos fields ∈ nodes →
    ∃ condition first other, fields = [condition, first, other] ∧ (other ≠ .null → first.isOpen = false)

/-- What is built from a conditional: a node of what is built from its condition and its branches. -/
theorem values_conditional (h : Forms Sorts Phrase.conditional.body (children.map (pieceOf locate)))
    {pos : Position} {b : Built}
    (hb : assemble .conditional pos (valuesOf (children.map (pieceOf locate))) = .ok b) :
    ∃ i o e c t condition first, valuesFrom locate e = [condition] ∧ valuesFrom locate t = [first] ∧
      ((children = [i, o, e, c, t] ∧ b = .one (.node .conditionalStatement pos [condition, first, .null])) ∨
        ∃ k u other, children = [i, o, e, c, t, k, u] ∧ valuesFrom locate u = [other] ∧ other ≠ .null ∧
          b = .one (.node .conditionalStatement pos [condition, first, other])) := by
  generalize hps : children.map (pieceOf locate) = ps at h hb
  simp only [Phrase.body, Pattern.row, forms_token_seq, forms_phrase_seq, forms_opt, forms_phrase] at h
  obtain ⟨_, rfl, _, rfl, _, _, _, rfl, ⟨condition, rfl, hcondition, -⟩, _, rfl, _, _, _, rfl,
    ⟨first, rfl, hfirst, -⟩, rfl | ⟨_, rfl, _, _, rfl, other, rfl, hother, -⟩⟩ := h
  · simp only [familyOf] at hcondition hfirst
    simp only [List.map_eq_cons_iff, List.map_eq_nil_iff] at hps
    obtain ⟨i, _, rfl, -, o, _, rfl, -, e, _, rfl, he, c, _, rfl, -, t, _, rfl, ht, rfl⟩ := hps
    refine ⟨i, o, e, c, t, condition, first, congrArg Piece.values he, congrArg Piece.values ht, .inl ⟨rfl, ?_⟩⟩
    simp (disch := decide) [assemble, theMember, firstOrNull, hcondition, hfirst, isA_eq_false hcondition,
      isA_eq_false hfirst] at hb
    exact hb.symm
  · simp only [familyOf] at hcondition hfirst hother
    simp only [List.map_eq_cons_iff, List.map_eq_nil_iff] at hps
    obtain ⟨i, _, rfl, -, o, _, rfl, -, e, _, rfl, he, c, _, rfl, -, t, _, rfl, ht, k, _, rfl, -, u, _, rfl,
      hu, rfl⟩ := hps
    refine ⟨i, o, e, c, t, condition, first, congrArg Piece.values he, congrArg Piece.values ht,
      .inr ⟨k, u, other, rfl, congrArg Piece.values hu, ne_null_of_isA hother, ?_⟩⟩
    simp (disch := decide) [assemble, theMember, firstOrNull, hcondition, hfirst, hother,
      isA_eq_false hcondition, isA_eq_false hfirst, isA_eq_false hother] at hb
    exact hb.symm

/-- What is built from the tree is open only if the tree is, and binds every `else` to the nearest `if`. A
loop with the end of the input behind it does not end as the loop does. -/
structure Nested (locate : Nat → Position) (t : ParseTree) : Prop where
  isOpen : t.symbol ≠ .phrase .loopUnit → ∀ v ∈ valuesFrom locate t, v.isOpen = true → IsOpen t
  nearest : BindsNearest (nodesOfAll (valuesFrom locate t))

/-- A lexeme is built as a text or as a node of a text. -/
theorem values_lexeme {x : Pattern} {t : ParseTree} (h : LexemeForm x () t ()) :
    ∀ v ∈ valuesFrom locate t, (∃ s, v = .text s) ∨ ∃ kind pos s, v = .node kind pos [.text s] ∧
      kind ∉ Kind.openable := by
  obtain ⟨k, start, text, -, rfl, -⟩ | ⟨k, start, text, -, rfl, -, ⟨rfl, -⟩ | rfl⟩ | ⟨start, -, rfl⟩ := h.cases
  · intro v hv
    cases k with
    | number | string =>
      cases List.mem_singleton.1 hv
      exact .inr ⟨_, _, _, rfl, by decide⟩
    | endOfInput => cases hv
    | _ => exact .inl ⟨_, List.mem_singleton.1 hv⟩
  · intro v hv
    cases List.mem_singleton.1 hv
    exact .inr ⟨_, _, _, rfl, by decide⟩
  · intro v hv
    cases List.mem_singleton.1 hv
    exact .inr ⟨_, _, _, rfl, by decide⟩
  · intro v hv
    exact .inl ⟨_, List.mem_singleton.1 hv⟩

theorem nested_lexeme {x : Pattern} {t : ParseTree} (h : LexemeForm x () t ()) : Nested locate t where
  isOpen _ v hv ho := by
    rcases values_lexeme h v hv with ⟨s, rfl⟩ | ⟨kind, pos, s, rfl, hkind⟩
    · cases ho
    · obtain ⟨kind', pos', fields', heq, hopen⟩ := kind_of_isOpen ho
      cases heq
      exact absurd hopen hkind
  nearest pos fields hn := by
    obtain ⟨v, hv, hn⟩ := mem_nodesOfAll.1 hn
    rcases values_lexeme h v hv with ⟨s, rfl⟩ | ⟨kind, pos', s, rfl, hkind⟩
    · cases hn
    · cases List.mem_singleton.1 hn
      exact absurd (by decide) hkind

theorem symbol_ne_loopUnit {p : Phrase} (h : Fits p.body children) {t : ParseTree} (ht : t ∈ children) :
    t.symbol ≠ .phrase .loopUnit := by
  have key : ∀ p : Phrase, .loopUnit ∉ p.body.calls := by decide
  exact fun hsymbol => key p (mem_calls_of_fits h t ht _ hsymbol)

/-- The nodes of a node are itself and those of its fields. -/
theorem bindsNearest_node {kind : Kind} {pos : Position} {fields : List Value}
    (h : ∀ v ∈ fields, BindsNearest v.nodes) (hnode : BindsNearest [.node kind pos fields]) :
    BindsNearest (nodesOfAll [.node kind pos fields]) := by
  intro pos' fields' hn
  simp only [nodesOfAll, Value.nodes, List.append_nil, List.mem_cons] at hn
  rcases hn with heq | hn
  · exact hnode pos' fields' (heq ▸ List.mem_singleton_self _)
  · obtain ⟨v, hv, hn⟩ := mem_nodesOfAll.1 hn
    exact h v hv pos' fields' hn

/-- A conditional is nested if its parts are, and if its first branch is not open in front of an `else`. -/
theorem nested_conditional (hbody : Fits Phrase.conditional.body children)
    (hmade : ∀ t ∈ children, IsMade Sorts locate t) (horders : (Label.phrase .conditional).Orders children)
    (hchildren : ∀ t ∈ children, Nested locate t) : Nested locate (.node (.phrase .conditional) children) := by
  have hforms := forms_of_fits hbody hmade
  obtain ⟨b, hb, -, -⟩ :=
    grows .conditional (by simp) (locate (ParseTree.node (.phrase .conditional) children).start) _ hforms
  have hvalues : valuesFrom locate (.node (.phrase .conditional) children) = b.values := by
    rw [valuesFrom, buildTree_phrase (buildAll_of_isMade hmade), hb]
  have hnodes : ∀ t ∈ children, ∀ v, valuesFrom locate t = [v] → BindsNearest v.nodes := fun t ht v hv => by
    have := (hchildren t ht).nearest
    rwa [hv, nodesOfAll, nodesOfAll, List.append_nil] at this
  obtain ⟨i, o, e, c, t, condition, first, he, ht, ⟨rfl, rfl⟩ | ⟨k, u, other, rfl, hu, hne, rfl⟩⟩ :=
    values_conditional hforms hb
  · -- without an `else` the conditional itself is what is open
    refine ⟨fun _ _ _ _ => ⟨_, .here, rfl⟩, ?_⟩
    rw [hvalues]
    refine bindsNearest_node ?_ fun pos fields hn => ?_
    · simp only [List.forall_mem_cons]
      exact ⟨hnodes e (by simp) _ he, hnodes t (by simp) _ ht, by simp [BindsNearest, Value.nodes], by simp⟩
    · cases List.mem_singleton.1 hn
      exact ⟨condition, first, .null, rfl, fun h => absurd rfl h⟩
  · -- an open first branch would have taken the `else` for itself
    have hfirst : first.isOpen = false := by
      rw [← Bool.not_eq_true]
      exact fun ho => horders i o e c t k u rfl
        ((hchildren t (by simp)).isOpen (symbol_ne_loopUnit hbody (by simp)) first (by simp [ht]) ho)
    refine ⟨fun _ v hv ho => ?_, ?_⟩
    · rw [hvalues] at hv
      cases List.mem_singleton.1 hv
      have hother : other.isOpen = true := by simpa [Value.isOpen, hne] using ho
      obtain ⟨ts, htail, hlen⟩ :=
        (hchildren u (by simp)).isOpen (symbol_ne_loopUnit hbody (by simp)) other (by simp [hu]) hother
      exact ⟨ts, @Tail.last _ .conditional [i, o, e, c, t, k] u _ rfl htail, hlen⟩
    · rw [hvalues]
      refine bindsNearest_node ?_ fun pos fields hn => ?_
      · simp only [List.forall_mem_cons]
        exact ⟨hnodes e (by simp) _ he, hnodes t (by simp) _ ht, hnodes u (by simp) _ hu, by simp⟩
      · cases List.mem_singleton.1 hn
        exact ⟨condition, first, other, rfl, fun _ => hfirst⟩

/-- A phrase other than a conditional is nested if its parts are. -/
theorem nested_node {p : Phrase} (hp : p ≠ .identifier) (hc : p ≠ .conditional) (hbody : Fits p.body children)
    (hspread : ∀ t ∈ children, IsSpread [] locate t) (hchildren : ∀ t ∈ children, Nested locate t) :
    Nested locate (.node (.phrase p) children) := by
  have hmade : ∀ t ∈ children, IsMade Sorts locate t := fun t ht => (hspread t ht).isMade
  obtain ⟨b, hb, hgrown, hsorts⟩ :=
    grows p hp (locate (ParseTree.node (.phrase p) children).start) _ (forms_of_fits hbody hmade)
  have hvalues : valuesFrom locate (.node (.phrase p) children) = b.values := by
    rw [valuesFrom, buildTree_phrase (buildAll_of_isMade hmade), hb]
  refine ⟨fun hunit v hv ho => ?_, fun pos fields hn => ?_⟩
  · rw [hvalues] at hv
    have hu : p ≠ .loopUnit := fun heq => hunit (by rw [heq]; rfl)
    -- what is open is made of the last statement of the phrase, where the tail goes on
    obtain ⟨htrails, w, hw, hopen⟩ := open_of_assemble hb hsorts hc hu hv ho
    obtain ⟨t, ht, hw⟩ := mem_valuesOf.1 hw
    have htree : IsOpen t := (hchildren t ht).isOpen (symbol_ne_loopUnit hbody ht) w hw hopen
    obtain ⟨q, hsymbol, hq⟩ := htree.symbol
    obtain ⟨us, rfl⟩ := last_of_fits htrails hc hbody ht hsymbol hq
    obtain ⟨ts, htail, hlen⟩ := htree
    exact ⟨ts, .last htrails htail, hlen⟩
  · rw [hvalues] at hn
    rcases hgrown.nodes hn with hn | ⟨kind, fields', heq, hlead⟩
    · obtain ⟨v, hv, hn⟩ := mem_nodesOfAll.1 hn
      obtain ⟨t, ht, hv⟩ := mem_valuesOf.1 hv
      exact (hchildren t ht).nearest pos fields (mem_nodesOfAll.2 ⟨v, hv, hn⟩)
    · -- a node of a conditional begins with `if`, which no other phrase does
      cases heq
      have hif := hlead "if" rfl
      cases children with
      | nil => cases hif
      | cons t rest =>
        cases t with
        | leaf k start text =>
          cases hif
          exact absurd (conditional_of_fits hp hbody) hc
        | node label ts =>
          cases label with
          | phrase q => cases hif
          | whole => exact absurd rfl ((hspread _ List.mem_cons_self).ne_whole ts)

/-- Ordered trees that fit a pattern are nested. -/
theorem nested_of_fits {x : Pattern} {s a : Unit} {ts : List ParseTree} (h : Shape LexemeForm x s ts a)
    (ho : ∀ t ∈ ts, Ordered t) : ∀ t ∈ ts, Nested locate t := by
  have hnested : ∀ t ∈ ts, Ordered t → Nested locate t := by
    refine h.forall_mem (fun _ ht _ => nested_lexeme ht) fun p children _ _ hp hbody ih hordered => ?_
    have hspread : ∀ t ∈ children, IsSpread [] locate t := isSpread_of_fits hbody
    have hchildren : ∀ t ∈ children, Nested locate t := fun t ht => ih t ht (hordered.child ht)
    by_cases hc : p = .conditional
    · subst hc
      exact nested_conditional hbody (fun t ht => (hspread t ht).isMade) hordered.orders hchildren
    · refine nested_node ?_ hc hbody hspread hchildren
      rintro rfl
      cases hp
  exact fun t ht => hnested t ht (ho t ht)

/-- In what is built from a loop statement, every `else` belongs to the nearest `if`. -/
theorem bindsNearest_of_takes {p : Phrase} (hp : p = .loop ∨ p = .loopUnit) {code : List Char}
    {tree : ParseTree} {a : Place} (ht : Takes (.phrase p) (.first code) [tree] a) {v : Value}
    (hb : buildTree locate tree = .ok (.one v)) : BindsNearest v.nodes := by
  obtain ⟨-, hvalues, -⟩ := exists_spread hp ht hb
  have hreads := ht.reads_phrase (by rcases hp with rfl | rfl <;> rfl)
  have hnested : Nested locate tree.tidy :=
    nested_of_fits hreads.fits (ordered_of_takes ht) tree.tidy List.mem_cons_self
  have hnearest := hnested.nearest
  rwa [hvalues, nodesOfAll, nodesOfAll, List.append_nil] at hnearest

end Trees

end VerilogLoops.Ast

namespace VerilogLoops

open VerilogLoops.Ast VerilogLoops.Grammar

/-- **An `else` belongs to the nearest `if`.** In the tree of every text that is a loop statement, or begins
with one, the first branch of a conditional with `else` is not open: it does not end in a conditional
without `else`, however many loops, labels, attributes and further conditionals are around it. -/
theorem else_binds_nearest (origin code : String) :
    (∀ v, parse origin code = .ok v → BindsNearest v.nodes) ∧
      ∀ v rest, parsePrefix origin code = .ok (v, rest) → BindsNearest v.nodes := by
  refine ⟨fun v h => ?_, fun v rest h => ?_⟩
  · obtain ⟨tree, a, ht, hb⟩ := parse_eq_ok.1 h
    exact bindsNearest_of_takes (Or.inr rfl) ht (buildIn_eq_ok.1 hb)
  · obtain ⟨tree, a, ht, hb, -⟩ := parsePrefix_eq_ok.1 h
    exact bindsNearest_of_takes (Or.inl rfl) ht (buildIn_eq_ok.1 hb)

/-- Six conditionals, four of them with `else`: around a block that closes a conditional, inside a loop with a
label and an attribute, in front of the third, and in a loop inside that one. -/
theorem else_binds_nearest_nested :
    let code := "forever if (a) begin if (b) x = 1; end else while (c) l: (* k *) if (d) ; " ++
      "else if (e) repeat (2) if (f) ; else ; else if (g) ;"
    let hasElse (n : Value) : Bool := match n with
      | .node .conditionalStatement _ [_, _, other] => other ≠ .null
      | _ => false
    ∃ v, parse "a.sv" code = .ok v ∧ v.nodes.countP hasElse = 4 ∧ BindsNearest v.nodes := by
  intro code hasElse
  have hcode : code.toList = _ :=
    String.toList_append.trans (congr (congrArg _ String.toList_ofList) String.toList_ofList)
  obtain ⟨v, h, hcount⟩ : ∃ v, parse "a.sv" code = .ok v ∧ v.nodes.countP hasElse = 4 := by
    rw [parse_afresh hcode]
    exact exists_of_any (by decide +kernel)
  exact ⟨v, h, hcount, (else_binds_nearest _ _).1 v h⟩

end VerilogLoops
