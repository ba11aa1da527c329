import VerilogLoops.Proofs.Clear

/-!
# Separators that dangle

Where the text goes on behind a phrase, a separator may stand there that no item follows. It is given
back, but its leaf stays at the end of the node. A tree is *shed* of all these leaves. Then it is a
reading, whatever stands behind it. Among the separators are the operators: an operation *breaks off*
if its last operator dangles.

> `Takes.sheds`: what a pattern takes is a reading when it is shed;
> `Takes.stands_of_breaksOff`: behind an operation that breaks off, one of the operators stands.
-/

namespace VerilogLoops.Grammar

open VerilogLoops.Text VerilogLoops.Lexical

variable {x y : Pattern} {s m a : Place} {k : Token} {t : ParseTree} {ts us vs : List ParseTree}

/-! ## Shedding -/

/-- The tree is a leaf of the token. -/
def ParseTree.isMark (k : Token) : ParseTree → Bool
  | .leaf u _ _ => u = k
  | .node .. => false

/-- A leaf of the token ends the trees. -/
def endsMarked (k : Token) (ts : List ParseTree) : Bool := ts.getLast?.any (ParseTree.isMark k)

/-- The trees without a leaf of the token that ends them. -/
def withoutMark (k : Token) (ts : List ParseTree) : List ParseTree :=
  if endsMarked k ts then ts.dropLast else ts

/-- The separator between the last parts of a pattern, if it ends in a separated repetition. -/
def Pattern.separator? : Pattern → Option Token
  | .seq _ y => y.separator?
  | .tail k _ => some k
  | _ => none

/-- The trees of a pattern without a separator that ends them. -/
def Pattern.shorn (x : Pattern) (ts : List ParseTree) : List ParseTree :=
  match x.separator? with
  | some k => withoutMark k ts
  | none => ts

/-- The children of a node without a separator that ends them. The first child is none. -/
def Label.shorn : Label → List ParseTree → List ParseTree
  | .phrase p, first :: rest => first :: p.body.shorn rest
  | _, ts => ts

mutual

/-- The tree without the separators that dangle in it. -/
def ParseTree.shed : ParseTree → ParseTree
  | .leaf k start text => .leaf k start text
  | .node label children => .node label (label.shorn (shedAll children))

/-- The trees without the separators that dangle in them. -/
def shedAll : List ParseTree → List ParseTree
  | [] => []
  | t :: rest => t.shed :: shedAll rest

end

theorem shedAll_eq_map (ts : List ParseTree) : shedAll ts = ts.map ParseTree.shed := by
  induction ts with
  | nil => rfl
  | cons t rest ih => rw [shedAll, ih, List.map_cons]

@[simp] theorem shedAll_append (ts us : List ParseTree) :
    shedAll (ts ++ us) = shedAll ts ++ shedAll us := by
  simp [shedAll_eq_map]

theorem isMark_shed (k : Token) (t : ParseTree) : t.shed.isMark k = t.isMark k := by
  cases t <;> rfl

theorem endsMarked_shedAll (k : Token) (ts : List ParseTree) :
    endsMarked k (shedAll ts) = endsMarked k ts := by
  rw [endsMarked, endsMarked, shedAll_eq_map, List.getLast?_map, Option.any_map]
  exact congrArg (fun f => Option.any f ts.getLast?) (funext (isMark_shed k))

theorem shorn_of_none (hx : x.separator? = none) (ts : List ParseTree) : x.shorn ts = ts := by
  rw [Pattern.shorn, hx]

theorem withoutMark_eq_self_iff : withoutMark k ts = ts ↔ endsMarked k ts = false := by
  unfold withoutMark
  split
  · next h =>
    cases ts with
    | nil => cases h
    | cons t ts =>
      have hlen : (t :: ts).dropLast ≠ t :: ts := fun heq => by
        have := congrArg List.length heq
        simp at this
      simp [h, hlen]
  · next h => simpa using h

/-- Only what ends the trees is left out. -/
theorem withoutMark_append (h : vs ≠ [] ∨ endsMarked k us = false) :
    withoutMark k (us ++ vs) = us ++ withoutMark k vs := by
  cases vs with
  | nil =>
    rcases h with h | h
    · exact absurd rfl h
    · rw [List.append_nil, withoutMark_eq_self_iff.2 h]
      exact (List.append_nil us).symm
  | cons v vs =>
    have hlast : endsMarked k (us ++ v :: vs) = endsMarked k (v :: vs) := by
      simp [endsMarked, List.getLast?_append, List.getLast?_cons]
    rw [withoutMark, withoutMark, hlast]
    split
    · exact List.dropLast_append_of_ne_nil (List.cons_ne_nil v vs)
    · rfl

theorem shorn_append (h : vs ≠ [] ∨ ∀ k, endsMarked k us = false) :
    x.shorn (us ++ vs) = us ++ x.shorn vs := by
  unfold Pattern.shorn
  split
  · exact withoutMark_append (h.imp_right fun h => h _)
  · rfl

/-- The first child is no separator if it is not the only one or if something is left. -/
theorem label_shorn {p : Phrase} (h : p.body.shorn ts ≠ []) :
    Label.shorn (.phrase p) ts = p.body.shorn ts := by
  cases ts with
  | nil => exact absurd (by unfold Pattern.shorn; split <;> rfl) h
  | cons t ts =>
    have hsplit : p.body.shorn ([t] ++ ts) = [t] ++ p.body.shorn ts := by
      cases ts with
      | nil =>
        unfold Pattern.shorn at h ⊢
        split
        · next k hk =>
          rw [hk] at h
          refine withoutMark_append (.inr (Bool.eq_false_iff.2 fun hmark => h ?_))
          show withoutMark k [t] = []
          rw [withoutMark, hmark]
          rfl
        · rfl
      | cons u us => exact shorn_append (.inl (List.cons_ne_nil u us))
    exact hsplit.symm

/-! ## What is taken is a reading -/

/-- A phrase, as an item of a repetition is. -/
def Pattern.isPhrase : Pattern → Bool
  | .phrase _ => true
  | _ => false

/-- A separator that dangles in a part of the pattern does so at its end, and then it ends the trees. -/
def Pattern.isTrim : Pattern → Bool
  | .token _ | .phrase _ => true
  | .seq x y =>
    x.isTrim && y.isTrim && (y.separator? = none || !y.nullable || x.isPhrase) &&
      x.separator?.all fun k => !y.nullable && y.openers.all fun f => lexemeExcludes (.token k) f
  | .alt x y => x.isTrim && y.isTrim && x.separator? = none && y.separator? = none
  | .opt x | .many x => x.isTrim && x.separator? = none
  | .tail _ x => x.isPhrase
  | .absent _ => false

theorem Phrase.body_isTrim {p : Phrase} (hp : (Pattern.phrase p).isLexeme = false) :
    p.body.isTrim = true := by
  revert p
  decide +kernel

/-- A lexeme has nothing to shed. -/
theorem LexemeAt.shed (hx : x.isLexeme = true) (h : LexemeAt x s t a) : t.shed = t := by
  obtain ⟨k, start, text, rfl | rfl | rfl⟩ := h.cases hx <;> rfl

theorem exists_phrase (hx : x.isPhrase = true) : ∃ p, x = .phrase p := by
  cases x with
  | phrase p => exact ⟨p, rfl⟩
  | _ => cases hx

/-- **What a pattern takes is a reading when it is shed.** If a separator ended its trees, it stands
behind them. -/
theorem Takes.sheds (h : Takes x s ts a) (hx : x.isTrim = true) :
    Reads x s (x.shorn (shedAll ts)) a ∧
      (x.shorn (shedAll ts) = shedAll ts ∨ ∃ k, x.separator? = some k ∧ Stands k a) := by
  -- on what is taken, part by part: a separator may dangle behind the last part only
  induction h using Takes.induct with
  | @token k s leaf b h =>
    rw [shorn_of_none rfl, shedAll, shedAll, LexemeAt.shed (x := .token k) rfl (.token h)]
    exact ⟨.lexeme rfl (.token h), .inl rfl⟩
  | @phrase p s ts b h ih =>
    rw [shorn_of_none rfl]
    refine ⟨?_, .inl rfl⟩
    cases hp : (Pattern.phrase p).isLexeme with
    | true =>
      rw [shedAll, shedAll, LexemeAt.shed hp (.phrase h)]
      exact .lexeme hp (.phrase h)
    | false =>
      obtain ⟨hreads, -⟩ := ih (Phrase.body_isTrim hp)
      rw [shedAll, shedAll, ParseTree.shed, label_shorn (hreads.ne_nil p.body_nullable)]
      exact .phrase hp hreads
  | @seq x y s ts m us b hx' hy' ihx ihy =>
    simp only [Pattern.isTrim, Bool.and_eq_true] at hx
    obtain ⟨⟨⟨htx, hty⟩, hends⟩, hfollow⟩ := hx
    obtain ⟨hreadx, hsx⟩ := ihx htx
    obtain ⟨hready, hsy⟩ := ihy hty
    -- no separator ends the trees of the first part, since the second part excludes it
    have hsame : x.shorn (shedAll ts) = shedAll ts := by
      rcases hsx with hsame | ⟨k, hk, hstands⟩
      · exact hsame
      · simp only [hk, Option.all_some, Bool.and_eq_true, Bool.not_eq_true'] at hfollow
        have ha := Takes.eq_of_dangler hy' (List.mem_singleton_self k) hstands
          (by simpa using hfollow.2)
        have := Takes.lt hy' hfollow.1
        rw [ha] at this
        omega
    have hsplit : y.shorn (shedAll ts ++ shedAll us) = shedAll ts ++ y.shorn (shedAll us) := by
      simp only [Bool.or_eq_true, decide_eq_true_eq, Bool.not_eq_true'] at hends
      rcases hends with (hnone | hn) | hphrase
      · rw [shorn_of_none hnone, shorn_of_none hnone]
      · refine shorn_append (.inl fun hnil => hready.ne_nil hn ?_)
        rw [hnil]
        unfold Pattern.shorn
        split <;> rfl
      · obtain ⟨p, rfl⟩ := exists_phrase hphrase
        obtain ⟨ws, rfl, -⟩ := takes_phrase.1 hx'
        exact shorn_append (.inr fun _ => rfl)
    rw [shedAll_append]
    show Reads _ _ (y.shorn _) _ ∧ (y.shorn _ = _ ∨ _)
    rw [hsplit]
    refine ⟨.seq (hsame ▸ hreadx) hready, hsy.imp_left fun hsame => by rw [hsame]⟩
  | altFirst _ ihx =>
    simp only [Pattern.isTrim, Bool.and_eq_true, decide_eq_true_eq] at hx
    have hreads := (ihx hx.1.1.1).1
    rw [shorn_of_none hx.1.2] at hreads
    exact ⟨.first hreads, .inl rfl⟩
  | altSecond _ _ ihy =>
    simp only [Pattern.isTrim, Bool.and_eq_true, decide_eq_true_eq] at hx
    have hreads := (ihy hx.1.1.2).1
    rw [shorn_of_none hx.2] at hreads
    exact ⟨.second hreads, .inl rfl⟩
  | opt _ ihx =>
    simp only [Pattern.isTrim, Bool.and_eq_true, decide_eq_true_eq] at hx
    have hreads := (ihx hx.1).1
    rw [shorn_of_none hx.2] at hreads
    exact ⟨.given hreads, .inl rfl⟩
  | optNone => exact ⟨.omitted, .inl rfl⟩
  | manyStop => exact ⟨.stop, .inl rfl⟩
  | manyStep _ _ ihx ihr =>
    have hitem := hx
    simp only [Pattern.isTrim, Bool.and_eq_true, decide_eq_true_eq] at hitem
    have hreads := (ihx hitem.1).1
    rw [shorn_of_none hitem.2] at hreads
    rw [shorn_of_none rfl, shedAll_append]
    exact ⟨.step hreads (ihr hx).1, .inl rfl⟩
  | tailStop => exact ⟨.last, .inl rfl⟩
  | @tailDangling k x s mark m h _ =>
    -- the separator is what is shed, and it was given back
    obtain ⟨start, text, rfl⟩ := tokenAt_eq_leaf h
    have hnil : (Pattern.tail k x).shorn (shedAll [.leaf k start text]) = [] := by
      simp [Pattern.shorn, Pattern.separator?, withoutMark, endsMarked, shedAll, ParseTree.shed,
        ParseTree.isMark]
    rw [hnil]
    exact ⟨.last, .inr ⟨k, rfl, stands_of_tokenAt h⟩⟩
  | @tailStep k x s mark m ts n us b h hx' hr' ihx ihr =>
    obtain ⟨p, rfl⟩ := exists_phrase hx
    obtain ⟨ws, rfl, -⟩ := takes_phrase.1 hx'
    obtain ⟨hrest, hsame⟩ := ihr hx
    have hitem := (ihx rfl).1
    rw [List.cons_append, shedAll, LexemeAt.shed (x := .token k) rfl (.token h), shedAll_append,
      ← List.cons_append, shorn_append (.inr fun _ => rfl)]
    exact ⟨.next (.token h) hitem hrest, hsame.imp_left fun hsame => by rw [hsame]⟩
  | absent => cases hx

/-! ## Shedding keeps trees clear -/

theorem firstText_shed : ∀ t : ParseTree, t.shed.firstText = t.firstText
  | .leaf .. => rfl
  | .node label [] => by cases label <;> rfl
  | .node label (t :: rest) => by
    cases label <;> exact firstText_shed t

/-- A node of a phrase without a separator keeps its children. -/
theorem label_shorn_of_none {p : Phrase} (hp : p.body.separator? = none) (ts : List ParseTree) :
    Label.shorn (.phrase p) ts = ts := by
  cases ts with
  | nil => rfl
  | cons t rest => rw [Label.shorn, shorn_of_none hp]

/-- A tree that is shed into a node of such a phrase is such a node. -/
theorem node_of_shed {p : Phrase} (hp : p.body.separator? = none) (h : t.shed = .node (.phrase p) us) :
    ∃ ts, t = .node (.phrase p) ts ∧ shedAll ts = us := by
  cases t with
  | leaf => cases h
  | node label ts =>
    have hlabel : label = .phrase p := by
      rw [ParseTree.shed] at h
      exact (ParseTree.node.inj h).1
    subst hlabel
    rw [ParseTree.shed, label_shorn_of_none hp] at h
    exact ⟨ts, rfl, (ParseTree.node.inj h).2⟩

theorem isThis_shed (h : t.shed.isThis = true) : t.isThis = true := by
  obtain ⟨start, text, u, ht⟩ := isThis_iff.1 h
  obtain ⟨qs, rfl, hqs⟩ := node_of_shed rfl ht
  simp only [shedAll_eq_map, List.map_eq_cons_iff, List.map_eq_nil_iff] at hqs
  obtain ⟨c, _, rfl, hc, d, _, rfl, -, rfl⟩ := hqs
  obtain ⟨cs, rfl, hcs⟩ := node_of_shed rfl hc
  simp only [shedAll_eq_map, List.map_eq_cons_iff, List.map_eq_nil_iff] at hcs
  obtain ⟨l, _, rfl, hl, rfl⟩ := hcs
  cases l with
  | node => cases hl
  | leaf =>
    cases hl
    rfl

theorem superGlued_shedAll (h : superGlued (shedAll ts) = true) : superGlued ts = true := by
  match ts, h with
  | q :: t :: _, h =>
    simp only [shedAll, superGlued, Bool.and_eq_true] at h ⊢
    exact ⟨isThis_shed h.1, by rw [← h.2, ParseTree.startsGlued, ParseTree.startsGlued, firstText_shed]⟩

/-- A node admits the children that are left of those that it admits. -/
theorem admits_shed {label : Label} (h : label.admits ts = true) :
    label.admits (label.shorn (shedAll ts)) = true := by
  cases label with
  | whole => rfl
  | phrase p =>
    cases p with
    | forDeclaration =>
      cases ts with
      | nil => rfl
      | cons t rest =>
        simpa [Label.admits, Label.shorn, shedAll, varGlued, ParseTree.startsGlued, firstText_shed]
          using h
    | arrayName | routineName | variableReference =>
      rw [label_shorn_of_none rfl]
      simp only [Label.admits, Bool.not_eq_true', ← Bool.not_eq_true] at h ⊢
      exact fun hg => h (superGlued_shedAll hg)
    | _ => exact admits_of_ne (by simp) _

theorem mem_of_mem_withoutMark (h : t ∈ withoutMark k ts) : t ∈ ts := by
  unfold withoutMark at h
  split at h
  · exact List.dropLast_subset ts h
  · exact h

theorem mem_of_mem_shorn (h : t ∈ x.shorn ts) : t ∈ ts := by
  unfold Pattern.shorn at h
  split at h
  · exact mem_of_mem_withoutMark h
  · exact h

theorem mem_of_mem_label_shorn {label : Label} (h : t ∈ label.shorn ts) : t ∈ ts := by
  unfold Label.shorn at h
  split at h
  · exact (List.mem_cons.1 h).elim (fun heq => heq ▸ List.mem_cons_self)
      fun h => List.mem_cons_of_mem _ (mem_of_mem_shorn h)
  · exact h

mutual

/-- A clear tree is clear when it is shed. -/
theorem isClear_shed : ∀ t : ParseTree, t.isClear = true → t.shed.isClear = true
  | .leaf .., _ => rfl
  | .node label children, h => by
    simp only [ParseTree.isClear, Bool.and_eq_true] at h
    rw [ParseTree.shed]
    simp only [ParseTree.isClear, Bool.and_eq_true]
    have hall := allClear_shedAll children h.2
    rw [allClear_iff] at hall ⊢
    exact ⟨admits_shed h.1, fun t ht => hall t (mem_of_mem_label_shorn ht)⟩

/-- Clear trees are clear when they are shed. -/
theorem allClear_shedAll : ∀ ts : List ParseTree, allClear ts = true → allClear (shedAll ts) = true
  | [], _ => rfl
  | t :: rest, h => by
    simp only [allClear_cons, Bool.and_eq_true] at h
    simp only [shedAll, allClear_cons, Bool.and_eq_true]
    exact ⟨isClear_shed t h.1, allClear_shedAll rest h.2⟩

end

/-! ## Operations that break off -/

/-- Operands joined by operators. -/
def Phrase.isChain : Phrase → Bool
  | .chain _ => true
  | _ => false

/-- The children of an operation end with an operator. -/
def Label.breaksOff : Label → List ParseTree → Bool
  | .phrase (.chain level), _ :: rest => endsMarked level.operator rest
  | _, _ => false

mutual

/-- An operation in the tree ends with an operator, behind which an operand is missing. -/
def ParseTree.breaksOff : ParseTree → Bool
  | .leaf .. => false
  | .node label children => label.breaksOff children || anyBreaksOff children

/-- An operation in one of the trees ends with an operator. -/
def anyBreaksOff : List ParseTree → Bool
  | [] => false
  | t :: rest => t.breaksOff || anyBreaksOff rest

end

@[simp] theorem anyBreaksOff_append (ts us : List ParseTree) :
    anyBreaksOff (ts ++ us) = (anyBreaksOff ts || anyBreaksOff us) := by
  induction ts with
  | nil => rfl
  | cons t rest ih => rw [List.cons_append, anyBreaksOff, ih, anyBreaksOff, Bool.or_assoc]

/-- A lexeme is no operation. -/
theorem LexemeAt.not_breaksOff (hx : x.isLexeme = true) (h : LexemeAt x s t a) :
    t.breaksOff = false := by
  obtain ⟨k, start, text, rfl | rfl | rfl⟩ := h.cases hx <;> rfl

/-- Behind operands that end with an operator, the operator stands. -/
theorem Takes.stands_operator {level : Level} (h : Takes (Phrase.chain level).body s ts a)
    (hb : Label.breaksOff (.phrase (.chain level)) ts = true) : Stands level.operator a := by
  have hlexeme : (Pattern.phrase (.chain level)).isLexeme = false := rfl
  obtain ⟨hreads, hsame⟩ := h.sheds (Phrase.body_isTrim hlexeme)
  rcases hsame with hsame | ⟨k, hk, hstands⟩
  · cases ts with
    | nil => cases hb
    | cons t rest =>
      have hshorn := label_shorn (hreads.ne_nil (Phrase.chain level).body_nullable)
      rw [hsame, shedAll, Label.shorn] at hshorn
      have hrest : withoutMark level.operator (shedAll rest) = shedAll rest :=
        (List.cons.inj hshorn).2
      rw [withoutMark_eq_self_iff, endsMarked_shedAll] at hrest
      exact absurd hb (by rw [Label.breaksOff, hrest]; simp)
  · cases hk
    exact hstands

/-- **Behind an operation that breaks off, one of its operators stands.** -/
theorem Takes.stands_of_breaksOff (h : Takes x s ts a) (hx : x.isSealed = true)
    (hb : anyBreaksOff ts = true) :
    ∃ level : Level, level.operator ∈ x.danglers ∧ Stands level.operator a := by
  induction h using Takes.induct with
  | @token k s leaf b h =>
    rw [anyBreaksOff, LexemeAt.not_breaksOff (x := .token k) rfl (.token h)] at hb
    cases hb
  | @phrase p s ts b h ih =>
    cases hp : (Pattern.phrase p).isLexeme with
    | true =>
      rw [anyBreaksOff, LexemeAt.not_breaksOff hp (.phrase h)] at hb
      cases hb
    | false =>
      obtain ⟨hsealed, hdanglers, -⟩ := Phrase.body_isSealed hp
      simp only [anyBreaksOff, ParseTree.breaksOff, Bool.or_false, Bool.or_eq_true] at hb
      -- the operation itself breaks off, or one within it, with its operator behind the whole
      rcases hb with hb | hb
      · have hchain : ∃ level, p = .chain level := by
          unfold Label.breaksOff at hb
          split at hb
          · next heq =>
            cases heq
            exact ⟨_, rfl⟩
          · cases hb
        obtain ⟨level, rfl⟩ := hchain
        exact ⟨level, by cases level <;> decide, Takes.stands_operator h hb⟩
      · obtain ⟨level, hlevel, hstands⟩ := ih hsealed hb
        exact ⟨level, hdanglers _ hlevel, hstands⟩
  | @seq x y s ts m us b hx' hy' ihx ihy =>
    simp only [Pattern.isSealed, Bool.and_eq_true, Bool.not_eq_true'] at hx
    obtain ⟨⟨⟨hsx, hsy⟩, -⟩, hfollow⟩ := hx
    rw [anyBreaksOff_append, Bool.or_eq_true] at hb
    rcases hb with hb | hb
    · obtain ⟨level, hlevel, hstands⟩ := ihx hsx hb
      -- nothing is taken where the operator stands
      have ha := Takes.eq_of_dangler hy' hlevel hstands hfollow
      subst ha
      refine ⟨level, ?_, hstands⟩
      cases hn : y.nullable with
      | true => simp [Pattern.danglers, hn, hlevel]
      | false =>
        have := Takes.lt hy' hn
        omega
    · obtain ⟨level, hlevel, hstands⟩ := ihy hsy hb
      exact ⟨level, by simp [Pattern.danglers, hlevel], hstands⟩
  | altFirst _ ihx =>
    simp only [Pattern.isSealed, Bool.and_eq_true] at hx
    obtain ⟨level, hlevel, hstands⟩ := ihx hx.1.1.1 hb
    exact ⟨level, by simp [Pattern.danglers, hlevel], hstands⟩
  | altSecond _ _ ihy =>
    simp only [Pattern.isSealed, Bool.and_eq_true] at hx
    obtain ⟨level, hlevel, hstands⟩ := ihy hx.1.1.2 hb
    exact ⟨level, by simp [Pattern.danglers, hlevel], hstands⟩
  | opt _ ihx =>
    simp only [Pattern.isSealed, Bool.and_eq_true] at hx
    exact ihx hx.1 hb
  | @manyStep x s ts m us b hx' hr' ihx ihr =>
    have hall := hx
    simp only [Pattern.isSealed, Bool.and_eq_true] at hx
    rw [anyBreaksOff_append, Bool.or_eq_true] at hb
    rcases hb with hb | hb
    · obtain ⟨level, hlevel, hstands⟩ := ihx hx.1.1 hb
      have ha := Takes.eq_of_dangler hr' hlevel hstands hx.2
      subst ha
      exact ⟨level, hlevel, hstands⟩
    · exact ihr hall hb
  | @tailDangling k x s mark m h _ =>
    rw [anyBreaksOff, LexemeAt.not_breaksOff (x := .token k) rfl (.token h)] at hb
    cases hb
  | @tailStep k x s mark m ts n us b h hx' hr' ihx ihr =>
    have hall := hx
    simp only [Pattern.isSealed, Bool.and_eq_true] at hx
    rw [List.cons_append, anyBreaksOff, LexemeAt.not_breaksOff (x := .token k) rfl (.token h),
      Bool.false_or, anyBreaksOff_append, Bool.or_eq_true] at hb
    rcases hb with hb | hb
    · obtain ⟨level, hlevel, hstands⟩ := ihx hx.1.1 hb
      have ha := Takes.eq_of_dangler hr' hlevel hstands (by simpa [Pattern.openers] using hx.2)
      subst ha
      exact ⟨level, by simp [Pattern.danglers, hlevel], hstands⟩
    · exact ihr hall hb
  | optNone | manyStop | tailStop => cases hb
  | absent => cases hx

end VerilogLoops.Grammar
