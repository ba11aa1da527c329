import VerilogLoops.Ast.Build
import VerilogLoops.Proofs.Polish

/-!
# Pieces: children with their values and their ink

What a phrase makes of its children depends on three things about each child: what it is a match
of, the values built from it, and its ink when it is polished. A *piece* is these three. The pieces
of a phrase have the form of its pattern (`Forms`), where a parameter says which values and which
ink each phrase among them may have.
-/

namespace VerilogLoops.Ast

open VerilogLoops.Lexical VerilogLoops.Grammar

/-! ## Families -/

/-- The families have no kind in common. -/
def Family.apart (f g : Family) : Bool := f.kinds.all fun k => !g.kinds.contains k

/-- The first family is part of the second. -/
def Family.within (f g : Family) : Bool := f.kinds.all fun k => g.kinds.contains k

theorem isA_eq_false {v : Value} {f g : Family} (h : v.isA f = true) (hd : f.apart g = true) :
    v.isA g = false := by
  cases v with
  | node k p fs =>
    simp only [Value.isA, List.contains_iff_mem] at h
    simpa [Value.isA] using List.all_eq_true.1 hd k h
  | _ => rfl

theorem isA_eq_true {v : Value} {f g : Family} (h : v.isA f = true) (hd : f.within g = true) :
    v.isA g = true := by
  cases v with
  | node k p fs =>
    simp only [Value.isA, List.contains_iff_mem] at h
    simpa [Value.isA] using List.all_eq_true.1 hd k h
  | _ => cases h

@[simp] theorem isA_text (s : String) (f : Family) : (Value.text s).isA f = false := rfl

@[simp] theorem isA_null (f : Family) : Value.null.isA f = false := rfl

@[simp] theorem isA_node (k : Kind) (p : Position) (fs : List Value) (f : Family) :
    (Value.node k p fs).isA f = f.kinds.contains k := rfl

theorem ne_text_of_isA {v : Value} {f : Family} (h : v.isA f = true) (s : String) :
    v ≠ .text s := by
  rintro rfl
  cases h

theorem ne_null_of_isA {v : Value} {f : Family} (h : v.isA f = true) : v ≠ .null := by
  rintro rfl
  cases h

theorem isText_of_isA {v : Value} {f : Family} (h : v.isA f = true) : v.isText = false := by
  cases v <;> first | rfl | cases h

theorem isTruthy_of_isA {v : Value} {f : Family} (h : v.isA f = true) : v.isTruthy = true := by
  cases v <;> first | rfl | cases h

@[simp] theorem isTruthy_null : Value.null.isTruthy = false := rfl

@[simp] theorem isTruthy_bool (b : Bool) : (Value.bool b).isTruthy = b := rfl

@[simp] theorem isTruthy_text (s : String) : (Value.text s).isTruthy = !s.isEmpty := rfl

@[simp] theorem isTruthy_node (k : Kind) (p : Position) (fs : List Value) :
    (Value.node k p fs).isTruthy = true := rfl

@[simp] theorem isText_text (s : String) : (Value.text s).isText = true := rfl

@[simp] theorem isText_null : Value.null.isText = false := rfl

/-! ## Members -/

@[simp] theorem membersOf_nil (f : Family) : membersOf f [] = [] := rfl

@[simp] theorem membersOf_cons (f : Family) (v : Value) (vs : List Value) :
    membersOf f (v :: vs) = if v.isA f = true then v :: membersOf f vs else membersOf f vs := by
  simp [membersOf, List.filter_cons]

@[simp] theorem membersOf_append (f : Family) (vs ws : List Value) :
    membersOf f (vs ++ ws) = membersOf f vs ++ membersOf f ws := by
  simp [membersOf]

/-- The members among values of a family within. -/
theorem membersOf_eq_self {f g : Family} {vs : List Value} (h : ∀ v ∈ vs, v.isA f = true)
    (hd : f.within g = true) : membersOf g vs = vs := by
  rw [membersOf, List.filter_eq_self]
  exact fun v hv => isA_eq_true (h v hv) hd

/-- There are no members among values of a family apart. -/
theorem membersOf_eq_nil {f g : Family} {vs : List Value} (h : ∀ v ∈ vs, v.isA f = true)
    (hd : f.apart g = true) : membersOf g vs = [] := by
  rw [membersOf, List.filter_eq_nil_iff]
  intro v hv
  simp [isA_eq_false (h v hv) hd]

/-! ## Computations that succeed -/

@[simp] theorem ok_bind {ε α β : Type} (a : α) (f : α → Except ε β) :
    (Except.ok a >>= f) = f a := rfl

@[simp] theorem pure_eq_ok {ε α : Type} (a : α) : (pure a : Except ε α) = .ok a := rfl

theorem bind_eq_ok {ε α β : Type} {x : Except ε α} {f : α → Except ε β} {b : β} :
    (x >>= f) = .ok b ↔ ∃ a, x = .ok a ∧ f a = .ok b := by
  cases x <;> simp [bind, Except.bind]

/-! ## Texts -/

/-- The values are rendered as these texts. -/
abbrev RenderAll (vs : List Value) (texts : List String) : Prop :=
  textsOf (writeAll vs) = .ok texts

@[simp] theorem renderAll_nil : RenderAll [] [] := rfl

theorem RenderAll.cons {v : Value} {vs : List Value} {text : String} {texts : List String}
    (h : v.render = .ok text) (hs : RenderAll vs texts) : RenderAll (v :: vs) (text :: texts) := by
  simp only [RenderAll] at hs
  simp [RenderAll, writeAll, textsOf, Thunk.get, h, hs, bind, Except.bind, pure, Except.pure]

/-! ## Pieces -/

/-- A child of a phrase: what it is a match of, the values built from it and its ink. -/
structure Piece where
  symbol : Pattern
  values : List Value
  text : String

/-- The piece of a leaf. -/
def tokenPiece (t : Token) (position : Position) (text : String) : Piece :=
  ⟨.token t, (buildLeaf t position text).values, text⟩

/-- The values of some pieces, one behind the other. -/
def valuesOf (ps : List Piece) : List Value := ps.flatMap Piece.values

/-- What some pieces match, and their ink. -/
def linesOf (ps : List Piece) : List (Pattern × String) := ps.map fun p => (p.symbol, p.text)

@[simp] theorem valuesOf_nil : valuesOf [] = [] := rfl

@[simp] theorem valuesOf_cons (p : Piece) (ps : List Piece) :
    valuesOf (p :: ps) = p.values ++ valuesOf ps := rfl

@[simp] theorem valuesOf_append (ps qs : List Piece) :
    valuesOf (ps ++ qs) = valuesOf ps ++ valuesOf qs := by
  simp [valuesOf]

@[simp] theorem linesOf_nil : linesOf [] = [] := rfl

@[simp] theorem linesOf_cons (p : Piece) (ps : List Piece) :
    linesOf (p :: ps) = (p.symbol, p.text) :: linesOf ps := rfl

@[simp] theorem linesOf_append (ps qs : List Piece) :
    linesOf (ps ++ qs) = linesOf ps ++ linesOf qs := by
  simp [linesOf]

/-- The pieces have the form of the pattern, where `makes` says which values and which ink a phrase
may have. -/
def Forms (makes : Phrase → List Value → String → Prop) : Pattern → List Piece → Prop
  | .token t, ps =>
    match t.word? with
    | some word => ps = [⟨.token t, [.text word], word⟩]
    | none => ∃ text pos, ps = [tokenPiece t pos text] ∧ t.HasForm text
  | .phrase q, ps => ∃ values text, ps = [⟨.phrase q, values, text⟩] ∧ makes q values text
  | .seq x y, ps => ∃ qs rs, ps = qs ++ rs ∧ Forms makes x qs ∧ Forms makes y rs
  | .alt x y, ps => Forms makes x ps ∨ Forms makes y ps
  | .opt x, ps => ps = [] ∨ Forms makes x ps
  | .many x, ps =>
    ∃ groups : List (List Piece), ps = groups.flatten ∧ ∀ qs ∈ groups, Forms makes x qs
  | .tail t x, ps =>
    ∃ groups : List (List Piece), ps = groups.flatten ∧
      ∀ qs ∈ groups, ∃ text pos rs,
        qs = tokenPiece t pos text :: rs ∧ t.HasForm text ∧ Forms makes x rs
  | .absent _, ps => ps = []

/-- A token that has only one word is built as that word. -/
theorem tokenPiece_of_word {t : Token} {word text : String} (h : t.word? = some word)
    (hf : t.HasForm text) (pos : Position) : tokenPiece t pos text = ⟨.token t, [.text word], word⟩ := by
  cases t with
  | number | string | systemName | endOfInput => cases h
  | _ =>
    simp only [Token.HasForm, h] at hf
    rw [hf]
    rfl

section Forms

variable {makes : Phrase → List Value → String → Prop} {ps : List Piece}

theorem forms_token {t : Token} :
    Forms makes (.token t) ps ↔
      match t.word? with
      | some word => ps = [⟨.token t, [.text word], word⟩]
      | none => ∃ text pos, ps = [tokenPiece t pos text] ∧ t.HasForm text := Iff.rfl

theorem forms_phrase {q : Phrase} :
    Forms makes (.phrase q) ps ↔
      ∃ values text, ps = [⟨.phrase q, values, text⟩] ∧ makes q values text := Iff.rfl

theorem forms_alt {x y : Pattern} :
    Forms makes (.alt x y) ps ↔ Forms makes x ps ∨ Forms makes y ps := Iff.rfl

theorem forms_opt {x : Pattern} :
    Forms makes (.opt x) ps ↔ ps = [] ∨ Forms makes x ps := Iff.rfl

/-- A token and what follows it. -/
theorem forms_token_seq {t : Token} {y : Pattern} :
    Forms makes (.seq (.token t) y) ps ↔
      match t.word? with
      | some word => ∃ rest, ps = ⟨.token t, [.text word], word⟩ :: rest ∧ Forms makes y rest
      | none =>
        ∃ text pos rest, ps = tokenPiece t pos text :: rest ∧ t.HasForm text ∧
          Forms makes y rest := by
  simp only [Forms]
  split
  · constructor
    · rintro ⟨_, rs, rfl, rfl, hy⟩
      exact ⟨rs, rfl, hy⟩
    · rintro ⟨rest, rfl, hy⟩
      exact ⟨_, rest, rfl, rfl, hy⟩
  · constructor
    · rintro ⟨_, rs, rfl, ⟨text, pos, rfl, ht⟩, hy⟩
      exact ⟨text, pos, rs, rfl, ht, hy⟩
    · rintro ⟨text, pos, rest, rfl, ht, hy⟩
      exact ⟨_, rest, rfl, ⟨text, pos, rfl, ht⟩, hy⟩

/-- A phrase and what follows it. -/
theorem forms_phrase_seq {q : Phrase} {y : Pattern} :
    Forms makes (.seq (.phrase q) y) ps ↔
      ∃ values text rest, ps = ⟨.phrase q, values, text⟩ :: rest ∧ makes q values text ∧
        Forms makes y rest := by
  constructor
  · rintro ⟨_, rs, rfl, ⟨values, text, rfl, hm⟩, hy⟩
    exact ⟨values, text, rs, rfl, hm, hy⟩
  · rintro ⟨values, text, rest, rfl, hm, hy⟩
    exact ⟨_, rest, rfl, ⟨values, text, rfl, hm⟩, hy⟩

/-- Something optional and what follows it. -/
theorem forms_opt_seq {x y : Pattern} :
    Forms makes (.seq (.opt x) y) ps ↔ Forms makes y ps ∨ Forms makes (.seq x y) ps := by
  constructor
  · rintro ⟨qs, rs, rfl, rfl | hx, hy⟩
    · exact Or.inl hy
    · exact Or.inr ⟨qs, rs, rfl, hx, hy⟩
  · rintro (hy | ⟨qs, rs, rfl, hx, hy⟩)
    · exact ⟨[], ps, rfl, Or.inl rfl, hy⟩
    · exact ⟨qs, rs, rfl, Or.inr hx, hy⟩

/-- A choice and what follows it. -/
theorem forms_alt_seq {x y z : Pattern} :
    Forms makes (.seq (.alt x y) z) ps ↔
      Forms makes (.seq x z) ps ∨ Forms makes (.seq y z) ps := by
  constructor
  · rintro ⟨qs, rs, rfl, hx | hy, hz⟩
    · exact Or.inl ⟨qs, rs, rfl, hx, hz⟩
    · exact Or.inr ⟨qs, rs, rfl, hy, hz⟩
  · rintro (⟨qs, rs, rfl, hx, hz⟩ | ⟨qs, rs, rfl, hy, hz⟩)
    · exact ⟨qs, rs, rfl, Or.inl hx, hz⟩
    · exact ⟨qs, rs, rfl, Or.inr hy, hz⟩

/-- A sequence inside a sequence. -/
theorem forms_seq_seq {x y z : Pattern} :
    Forms makes (.seq (.seq x y) z) ps ↔ Forms makes (.seq x (.seq y z)) ps := by
  constructor
  · rintro ⟨_, rs, rfl, ⟨as, bs, rfl, hx, hy⟩, hz⟩
    exact ⟨as, bs ++ rs, by simp, hx, bs, rs, rfl, hy, hz⟩
  · rintro ⟨as, _, rfl, hx, bs, rs, rfl, hy, hz⟩
    exact ⟨as ++ bs, rs, by simp, ⟨as, bs, rfl, hx, hy⟩, hz⟩

/-- A repetition of a phrase is a list of its pieces. -/
theorem forms_many_phrase {q : Phrase} :
    Forms makes (.many (.phrase q)) ps ↔
      ∀ piece ∈ ps, ∃ values text, piece = ⟨.phrase q, values, text⟩ ∧ makes q values text := by
  constructor
  · rintro ⟨groups, rfl, hall⟩ piece hp
    obtain ⟨qs, hqs, hp⟩ := List.mem_flatten.1 hp
    obtain ⟨values, text, rfl, hm⟩ := hall qs hqs
    exact ⟨values, text, List.mem_singleton.1 hp, hm⟩
  · intro h
    refine ⟨ps.map fun p => [p], ?_, ?_⟩
    · induction ps with
      | nil => rfl
      | cons p ps ih =>
        simpa using ih fun piece hp => h piece (List.mem_cons_of_mem p hp)
    · intro qs hqs
      obtain ⟨piece, hp, rfl⟩ := List.mem_map.1 hqs
      obtain ⟨values, text, rfl, hm⟩ := h piece hp
      exact ⟨values, text, rfl, hm⟩

/-- A repetition of a phrase and what follows it. -/
theorem forms_many_phrase_seq {q : Phrase} {y : Pattern} :
    Forms makes (.seq (.many (.phrase q)) y) ps ↔
      ∃ qs rs, ps = qs ++ rs ∧
        (∀ piece ∈ qs, ∃ values text, piece = ⟨.phrase q, values, text⟩ ∧ makes q values text) ∧
          Forms makes y rs := by
  show (∃ qs rs, ps = qs ++ rs ∧ Forms makes (.many (.phrase q)) qs ∧ Forms makes y rs) ↔ _
  simp only [forms_many_phrase]

end Forms

/-! ## From trees to pieces -/

theorem buildAll_cons {locate : Nat → Position} {t : ParseTree} {rest : List ParseTree}
    {vs : List Value} : buildAll locate (t :: rest) = .ok vs ↔
      ∃ b us, buildTree locate t = .ok b ∧ buildAll locate rest = .ok us ∧ vs = b.values ++ us := by
  simp only [buildAll, bind_eq_ok, pure_eq_ok, Except.ok.injEq]
  constructor
  · rintro ⟨b, hb, us, hus, rfl⟩
    exact ⟨b, us, hb, hus, rfl⟩
  · rintro ⟨b, us, hb, hus, rfl⟩
    exact ⟨b, hb, us, hus, rfl⟩

/-- A phrase is assembled from the values of its children. -/
theorem buildTree_phrase {locate : Nat → Position} {p : Phrase} {children : List ParseTree}
    {vs : List Value} (h : buildAll locate children = .ok vs) :
    buildTree locate (.node (.phrase p) children) =
      assemble p (locate (ParseTree.node (.phrase p) children).start) vs := by
  rw [buildTree, h, ok_bind]

/-- Trees one behind the other are built as their values are. -/
theorem buildAll_append {locate : Nat → Position} {ts us : List ParseTree} {vs : List Value} :
    buildAll locate (ts ++ us) = .ok vs ↔
      ∃ vs₁ vs₂, buildAll locate ts = .ok vs₁ ∧ buildAll locate us = .ok vs₂ ∧ vs = vs₁ ++ vs₂ := by
  induction ts generalizing vs with
  | nil =>
    constructor
    · intro h
      exact ⟨[], vs, rfl, h, rfl⟩
    · rintro ⟨_, _, hnil, h, rfl⟩
      cases hnil
      exact h
  | cons t ts ih =>
    rw [List.cons_append, buildAll_cons]
    constructor
    · rintro ⟨b, ws, hb, hws, rfl⟩
      obtain ⟨vs₁, vs₂, h₁, h₂, rfl⟩ := ih.1 hws
      exact ⟨_, vs₂, buildAll_cons.2 ⟨b, vs₁, hb, h₁, rfl⟩, h₂, by rw [List.append_assoc]⟩
    · rintro ⟨_, vs₂, h₁, h₂, rfl⟩
      obtain ⟨b, vs₁, hb, h₁', rfl⟩ := buildAll_cons.1 h₁
      exact ⟨b, _, hb, ih.2 ⟨vs₁, vs₂, h₁', h₂, rfl⟩, by rw [List.append_assoc]⟩

/-- A node is built from the values of its children. -/
theorem buildAll_node {locate : Nat → Position} {p : Phrase} {ts : List ParseTree} {vs : List Value} :
    buildAll locate [.node (.phrase p) ts] = .ok vs ↔
      ∃ ws b, buildAll locate ts = .ok ws ∧
        assemble p (locate (ParseTree.node (.phrase p) ts).start) ws = .ok b ∧ vs = b.values := by
  rw [buildAll_cons]
  constructor
  · rintro ⟨b, _, hb, hnil, rfl⟩
    cases hnil
    rw [buildTree] at hb
    obtain ⟨ws, hws, hb⟩ := bind_eq_ok.1 hb
    exact ⟨ws, b, hws, hb, List.append_nil _⟩
  · rintro ⟨ws, b, hws, hb, rfl⟩
    refine ⟨b, [], ?_, rfl, (List.append_nil _).symm⟩
    rw [buildTree]
    exact bind_eq_ok.2 ⟨ws, hws, hb⟩

/-- The values built from a tree; none if building fails. -/
def valuesFrom (locate : Nat → Position) (t : ParseTree) : List Value :=
  match buildTree locate t with
  | .ok b => b.values
  | .error _ => []

/-- The piece of a tree. -/
def pieceOf (locate : Nat → Position) (t : ParseTree) : Piece :=
  ⟨t.symbol, valuesFrom locate t, t.polish.ink⟩

/-- The tree is built, and what it makes is as promised. -/
def IsMade (makes : Phrase → List Value → String → Prop) (locate : Nat → Position)
    (t : ParseTree) : Prop :=
  (∃ b, buildTree locate t = .ok b) ∧
    ∀ p, t.symbol = .phrase p → makes p (valuesFrom locate t) t.polish.ink

theorem buildAll_of_isMade {makes : Phrase → List Value → String → Prop}
    {locate : Nat → Position} {ts : List ParseTree} (h : ∀ t ∈ ts, IsMade makes locate t) :
    buildAll locate ts = .ok (valuesOf (ts.map (pieceOf locate))) := by
  induction ts with
  | nil => rfl
  | cons t rest ih =>
    obtain ⟨⟨b, hb⟩, -⟩ := h t List.mem_cons_self
    have hrest := ih fun u hu => h u (List.mem_cons_of_mem t hu)
    exact buildAll_cons.2 ⟨b, _, hb, hrest, by simp [pieceOf, valuesFrom, hb]⟩

/-- The piece of a leaf is the piece of its token. -/
theorem pieceOf_leaf (locate : Nat → Position) {t : Token} {tree : ParseTree}
    (h : IsLeaf t tree) :
    ∃ text pos, pieceOf locate tree = tokenPiece t pos text ∧ t.HasForm text := by
  obtain ⟨start, text, rfl, hw⟩ := h
  exact ⟨text, locate start, rfl, hw.hasForm⟩

/-- The pieces of trees that fit a pattern have the form of the pattern. -/
theorem forms_of_fits {makes : Phrase → List Value → String → Prop} {locate : Nat → Position}
    {x : Pattern} {ts : List ParseTree} {s a : Unit} (h : Shape LexemeForm x s ts a)
    (hm : ∀ t ∈ ts, IsMade makes locate t) : Forms makes x (ts.map (pieceOf locate)) := by
  have ofPhrase : ∀ {p : Phrase} {cs : List ParseTree},
      IsMade makes locate (.node (.phrase p) cs) →
        Forms makes (.phrase p) [pieceOf locate (.node (.phrase p) cs)] :=
    fun hmade => ⟨_, _, rfl, hmade.2 _ rfl⟩
  induction h with
  | lexeme _ h =>
    obtain ⟨k, _, _, rfl, -, -⟩ | ⟨_, _, _, rfl, rfl, -⟩ | ⟨_, rfl, rfl⟩ := h.cases
    · obtain ⟨text, pos, heq, hform⟩ := pieceOf_leaf locate h
      rw [List.map_singleton, heq, forms_token]
      split
      · next word hword => rw [tokenPiece_of_word hword hform]
      · exact ⟨text, pos, rfl, hform⟩
    · exact ofPhrase (hm _ List.mem_cons_self)
    · exact ofPhrase (hm _ List.mem_cons_self)
  | phrase hp _ _ => exact ofPhrase (hm _ List.mem_cons_self)
  | seq _ _ ihx ihy =>
    rw [List.map_append]
    exact ⟨_, _, rfl, ihx fun t ht => hm t (List.mem_append_left _ ht),
      ihy fun t ht => hm t (List.mem_append_right _ ht)⟩
  | first _ ih => exact Or.inl (ih hm)
  | second _ ih => exact Or.inr (ih hm)
  | omitted => exact Or.inl rfl
  | given _ ih => exact Or.inr (ih hm)
  | stop => exact ⟨[], rfl, by simp⟩
  -- every round is a group of pieces, and so is every separator with its item
  | step _ _ ihx ihr =>
    obtain ⟨groups, heq, hall⟩ := ihr fun t ht => hm t (List.mem_append_right _ ht)
    have hx := ihx fun t ht => hm t (List.mem_append_left _ ht)
    refine ⟨_ :: groups, by rw [List.map_append, heq, List.flatten_cons], ?_⟩
    intro qs hqs
    rcases List.mem_cons.1 hqs with rfl | hqs
    · exact hx
    · exact hall qs hqs
  | last => exact ⟨[], rfl, by simp⟩
  | next hmark _ _ ihx ihr =>
    obtain ⟨groups, heq, hall⟩ := ihr fun t ht => hm t (by simp [ht])
    have hx := ihx fun t ht => hm t (by simp [ht])
    obtain ⟨text, pos, hpiece, hform⟩ := pieceOf_leaf locate hmark
    refine ⟨(_ :: _) :: groups, by
      rw [List.map_append, List.map_cons, heq, List.flatten_cons], ?_⟩
    intro qs hqs
    rcases List.mem_cons.1 hqs with rfl | hqs
    · exact ⟨text, pos, _, by rw [hpiece], hform, hx⟩
    · exact hall qs hqs

end VerilogLoops.Ast
