import VerilogLoops.Proofs.Yaml.Escaping

/-!
# Scalars are read where they are written

A scalar is followed by the end of its line, and the next line starts in a column that ends it. It
is read as the text, the number or the truth value that it is written for, and what is read ends
where the scalar does. It is not taken for the key of an entry, since no colon follows it on its
line.

> `isAtom_text`: a text is read in each of the three styles.
-/

namespace VerilogLoops.Yaml

open VerilogLoops.Document VerilogLoops.Number

variable {least column gap n : Nat} {cursor : Cursor} {c : Char} {cs text rest behind : List Char}

/-! ## Places -/

@[simp]
theorem rest_advance (k : Nat) (cursor : Cursor) :
    (cursor.advance k).rest = cursor.rest.drop k := by
  induction k generalizing cursor with
  | zero => rfl
  | succ k ih =>
    obtain ⟨line, column, fresh, rest⟩ := cursor
    cases rest with
    | nil => simp [Cursor.advance]
    | cons c rest =>
      rw [Cursor.advance, ih]
      split <;> rfl

/-- Going on never goes back a line. -/
theorem line_le_advance (k : Nat) (cursor : Cursor) : cursor.line ≤ (cursor.advance k).line := by
  induction k generalizing cursor with
  | zero => exact Nat.le_refl _
  | succ k ih =>
    obtain ⟨line, column, fresh, rest⟩ := cursor
    cases rest with
    | nil => exact Nat.le_refl _
    | cons c rest =>
      rw [Cursor.advance]
      refine Nat.le_trans ?_ (ih _)
      split
      · exact Nat.le_succ _
      · exact Nat.le_refl _

/-- Going on past a line break leads to a later line. -/
theorem line_lt_advance {k : Nat} (hrest : cursor.rest = text ++ '\n' :: behind)
    (hk : text.length < k) : cursor.line < (cursor.advance k).line := by
  induction text generalizing cursor k with
  | nil =>
    obtain ⟨line, column, fresh, rest⟩ := cursor
    obtain ⟨k, rfl⟩ := Nat.exists_eq_succ_of_ne_zero (Nat.ne_of_gt hk)
    obtain rfl : rest = '\n' :: behind := hrest
    rw [Cursor.advance]
    exact line_le_advance k ⟨line + 1, 0, true, behind⟩
  | cons c text ih =>
    obtain ⟨line, column, fresh, rest⟩ := cursor
    obtain ⟨k, rfl⟩ := Nat.exists_eq_succ_of_ne_zero (Nat.ne_of_gt (Nat.zero_lt_of_lt hk))
    obtain rfl : rest = c :: (text ++ '\n' :: behind) := hrest
    have hk : text.length < k := Nat.lt_of_succ_lt_succ hk
    rw [Cursor.advance]
    refine Nat.lt_of_le_of_lt ?_ (ih ?_ hk)
    · split
      · exact Nat.le_succ _
      · exact Nat.le_refl _
    · split <;> rfl

/-- Going on past characters of one line. -/
theorem advance_append {line column : Nat} {fresh : Bool} (hne : text ≠ [])
    (htext : ∀ c ∈ text, isBreak c = false) :
    Cursor.advance text.length ⟨line, column, fresh, text ++ behind⟩
      = ⟨line, column + text.length, false, behind⟩ := by
  induction text generalizing column fresh with
  | nil => exact absurd rfl hne
  | cons c text ih =>
    obtain ⟨hc, htext⟩ := List.forall_mem_cons.1 htext
    rw [List.length_cons, List.cons_append, Cursor.advance, hc]
    by_cases hnil : text = []
    · subst hnil
      rfl
    · rw [if_neg (by decide), ih hnil htext]
      rw [Nat.add_assoc, Nat.add_comm 1]

/-- A text starts with a word: with something other than a blank, a comment, a line break and the
border of a document. -/
def StartsWord (rest : List Char) : Prop :=
  (∃ c more, rest = c :: more ∧ c ≠ ' ' ∧ c ≠ '#' ∧ isBreak c = false) ∧ startsBorder rest = false

/-- What follows a node: another line that starts with a word in some column, or the end. -/
structure NextLine (behind : List Char) (n : Nat) (rest : List Char) : Prop where
  eq : behind = lineBreak n ++ rest
  word : rest = [] ∧ n = 0 ∨ StartsWord rest

/-- Blanks lead to the same word. -/
theorem skipFrom_blanks (k line column : Nat) (fresh : Bool) (rest : List Char) :
    skipFrom false fresh line column (List.replicate k ' ' ++ rest)
      = skipFrom false fresh line (column + k) rest := by
  induction k generalizing column with
  | zero => rfl
  | succ k ih =>
    rw [List.replicate_succ, List.cons_append, skipFrom, if_neg (by decide), if_neg (by decide),
      if_pos rfl, ih, Nat.add_assoc, Nat.add_comm 1]

/-- At a word nothing is skipped. -/
theorem next_of_word (hrest : cursor.rest = c :: rest) (hblank : c ≠ ' ') (hhash : c ≠ '#')
    (hbreak : isBreak c = false) : cursor.next = cursor := by
  obtain ⟨line, column, fresh, text⟩ := cursor
  obtain rfl : text = c :: rest := hrest
  simp [Cursor.next, skipFrom, hbreak, hblank, hhash]

/-- The next place at the end of a line is in the next line. -/
theorem NextLine.next (h : NextLine behind n rest) (hrest : cursor.rest = behind) :
    cursor.next = ⟨cursor.line + 1, n, true, rest⟩ := by
  obtain ⟨line, column, fresh, text⟩ := cursor
  obtain rfl : text = behind := hrest
  rw [h.eq, Cursor.next, lineBreak, List.cons_append, skipFrom, if_pos (by decide),
    skipFrom_blanks, Nat.zero_add]
  rcases h.word with ⟨rfl, rfl⟩ | ⟨⟨c, more, rfl, hblank, hhash, hbreak⟩, -⟩
  · rfl
  · simp [skipFrom, hbreak, hblank, hhash]

/-! ## The length of a plain scalar -/

/-- A smaller least column ends a scalar later. -/
theorem plainLength_anti {inFlow : Bool} {less : Nat} (h : less ≤ least) (cs : List Char) :
    plainLength inFlow least column gap cs ≤ plainLength inFlow less column gap cs := by
  induction cs generalizing column gap with
  | nil => exact Nat.le_refl _
  | cons c rest ih =>
    rw [plainLength, plainLength]
    split
    · exact ih
    · split
      · split
        · exact Nat.le_refl _
        · exact ih
      · split
        · exact Nat.zero_le _
        · next hmore =>
          have hmore : ¬((0 < gap && (c = '#' || (!inFlow && column < less))) = true) := by
            simp only [Bool.and_eq_true, Bool.or_eq_true, decide_eq_true_eq, not_and, not_or,
              Bool.not_eq_true'] at hmore ⊢
            intro hgap
            refine ⟨(hmore hgap).1, fun hflow => ?_⟩
            have := (hmore hgap).2 hflow
            omega
          rw [if_neg hmore]
          split
          · exact Nat.zero_le _
          · exact Nat.add_le_add_left ih _

theorem plainLength_blanks {inFlow : Bool} (k : Nat) (rest : List Char) :
    plainLength inFlow least column gap (List.replicate k ' ' ++ rest)
      = plainLength inFlow least (column + k) (gap + k) rest := by
  induction k generalizing column gap with
  | zero => rfl
  | succ k ih =>
    rw [List.replicate_succ, List.cons_append, plainLength, if_pos rfl, ih, Nat.add_assoc,
      Nat.add_comm 1, Nat.add_assoc gap, Nat.add_comm 1]

theorem plainLength_lineBreak {inFlow : Bool} (hborder : startsBorder (List.replicate n ' ' ++ rest) = false) :
    plainLength inFlow least column gap (lineBreak n ++ rest)
      = plainLength inFlow least n (gap + 1 + n) rest := by
  rw [lineBreak, List.cons_append, plainLength, if_neg (by decide), if_pos (by decide), hborder,
    if_neg (by decide), plainLength_blanks, Nat.zero_add]

/-- A line that is indented is no border. -/
theorem startsBorder_blanks (hn : 0 < n) (rest : List Char) :
    startsBorder (List.replicate n ' ' ++ rest) = false := by
  obtain ⟨n, rfl⟩ := Nat.exists_eq_succ_of_ne_zero (Nat.ne_of_gt hn)
  rfl

/-- Nothing of the next line belongs to a scalar that asks for more indentation. -/
theorem NextLine.plainLength (h : NextLine behind n rest) (hn : n < least) :
    plainLength false least column gap behind = 0 := by
  have hborder : startsBorder (List.replicate n ' ' ++ rest) = false := by
    rcases Nat.eq_zero_or_pos n with rfl | hpos
    · rcases h.word with ⟨rfl, -⟩ | ⟨-, hborder⟩
      · rfl
      · exact hborder
    · exact startsBorder_blanks hpos rest
  rw [h.eq, plainLength_lineBreak hborder]
  rcases h.word with ⟨rfl, -⟩ | ⟨⟨c, more, rfl, hblank, -, hbreak⟩, -⟩
  · rfl
  · have hgap : 0 < gap + 1 + n := by omega
    rw [Yaml.plainLength, if_neg hblank, if_neg (by simp [hbreak]), if_pos (by simp [hn, hgap])]

/-- What can stand in a plain scalar is a gap only as a blank. -/
theorem isGap_eq (hspecial : isSpecial c = false) (hbreak : isBreak c = false) :
    isGap c = decide (c = ' ') := by
  have hne : ∀ d, isSpecial d = true → c ≠ d := by
    rintro d hd rfl
    rw [hd] at hspecial
    cases hspecial
  simp [isGap, hbreak, hne '\t' (by decide), hne '\r' (by decide), hne '\x00' (by decide)]

/-- A colon in front of a gap or a hash behind one. -/
def isStructure (a b : Char) : Bool :=
  a = ':' && isGap b || isGap a && b = '#'

/-- A part of a plain scalar up to its end. -/
structure IsPlainTail (cs : List Char) : Prop where
  gaps : ∀ c ∈ cs, isBreak c = false ∧ isGap c = decide (c = ' ')
  neighbours : hasNeighbours isStructure cs = false
  last : cs.getLast? ≠ some ' ' ∧ cs.getLast? ≠ some ':'

theorem IsPlainTail.tail (h : IsPlainTail (c :: cs)) : IsPlainTail cs := by
  refine ⟨fun d hd => h.gaps d (List.mem_cons_of_mem _ hd), (hasNeighbours_cons.1 h.neighbours).2, ?_⟩
  cases cs with
  | nil => exact ⟨by rintro ⟨⟩, by rintro ⟨⟩⟩
  | cons d cs => simpa using h.last

theorem toList_plainFrom_word {indent : Nat} {previous : Option Char} (hc : c ≠ ' ') :
    (plainFrom indent column previous (c :: cs)).toList
      = c :: (plainFrom indent (column + 1) (some c) cs).toList := by
  rw [plainFrom, if_neg (by simp [hc]), String.toList_append, String.toList_singleton]
  rfl

/-- A colon inside a plain scalar is not the colon of an entry. -/
theorem IsPlainTail.startsColon {indent : Nat} {previous : Option Char} (h : IsPlainTail (c :: cs)) :
    startsColon false (c :: ((plainFrom indent column previous cs).toList ++ behind)) = false := by
  by_cases hc : c = ':'
  · subst hc
    cases cs with
    | nil => exact absurd rfl h.last.2
    | cons d cs =>
      have hd : isGap d = false := by
        have := (hasNeighbours_cons.1 h.neighbours).1
        simp only [headIs, isStructure, decide_true, Bool.true_and, Bool.or_eq_false_iff] at this
        exact this.1
      have hblank : d ≠ ' ' := by
        rintro rfl
        cases hd
      rw [toList_plainFrom_word hblank]
      simp [Yaml.startsColon, headIsOrEnd, hd]
  · unfold Yaml.startsColon
    split
    · next heq => exact absurd (List.cons.inj heq).1 hc
    · rfl

/-- A plain scalar is read up to its end, over all its lines. -/
theorem plainLength_plainFrom {indent column' : Nat} {previous : Option Char} (h : IsPlainTail cs)
    (hbehind : ∀ column, plainLength false least column 0 behind = 0) (hindent : least ≤ indent)
    (hpos : 0 < indent) (hcolumn : least ≤ column')
    (hhash : 0 < gap → headIs (· = '#') cs = false) (hne : cs ≠ [] ∨ gap = 0) :
    plainLength false least column' gap
        ((plainFrom indent column previous cs).toList ++ behind)
      = if cs = [] then 0 else gap + (plainFrom indent column previous cs).toList.length := by
  induction cs generalizing column column' gap previous with
  | nil =>
    obtain rfl : gap = 0 := hne.resolve_left fun h => h rfl
    simpa [plainFrom] using hbehind column'
  | cons c rest ih =>
    obtain ⟨hbreak, hgap⟩ := h.gaps c List.mem_cons_self
    rw [if_neg (List.cons_ne_nil c rest)]
    by_cases hblank : c = ' '
    · subst hblank
      have hrest : rest ≠ [] := by
        rintro rfl
        exact h.last.1 rfl
      have hnohash : headIs (· = '#') rest = false := by
        have := (hasNeighbours_cons.1 h.neighbours).1
        cases rest <;> simp_all [headIs, isStructure]
      -- a blank at which the scalar is folded is a line break, else it is counted to the gap
      by_cases hfold : foldsAt column previous rest = true
      · rw [plainFrom, if_pos (by simp [hfold]), String.toList_append, toList_newLine,
          List.append_assoc]
        show plainLength false least column' gap (lineBreak indent ++ _) = _
        rw [plainLength_lineBreak (startsBorder_blanks hpos _),
          ih h.tail hindent (fun _ => hnohash) (.inl hrest), if_neg hrest]
        simp
        omega
      · rw [plainFrom, if_neg (by simp [hfold]), String.toList_append, String.toList_singleton]
        rw [List.singleton_append, List.cons_append, plainLength, if_pos rfl,
          ih h.tail (Nat.le_succ_of_le hcolumn) (fun _ => hnohash) (.inl hrest), if_neg hrest]
        simp
        omega
    · have hword : isGap c = false := by simpa [hblank] using hgap
      have hcolon : startsColon false
          (c :: ((plainFrom indent (column + 1) (some c) rest).toList ++ behind)) = false :=
        h.startsColon
      -- the word neither begins a comment nor stands too far to the left
      have hstay : (0 < gap && (c = '#' || (!false && column' < least))) = false := by
        rcases Nat.eq_zero_or_pos gap with rfl | hgap
        · rfl
        · have := hhash hgap
          simp_all [headIs]
      rw [toList_plainFrom_word hblank, List.cons_append, plainLength, if_neg hblank,
        if_neg (by simp [hbreak]), hstay, if_neg (by decide), hword, hcolon, if_neg (by simp),
        ih h.tail (Nat.le_succ_of_le hcolumn) (fun h => absurd h (Nat.lt_irrefl 0)) (.inr rfl)]
      by_cases hnil : rest = []
      · subst hnil
        simp [plainFrom]
      · rw [if_neg hnil]
        simp
        omega

/-! ## Nodes on the rest of a line -/

/-- A node that stands on the rest of a line, or on this line and on lines that continue it. It
begins with no mark, it is read up to its end if the next line starts further to the left, and it is
not taken for a key. -/
structure IsAtom (least : Nat) (text : List Char) (d : Data) : Prop where
  head : ∃ c more, text = c :: more ∧ c ≠ ' ' ∧ c ≠ '#' ∧ isBreak c = false ∧ c ≠ '!' ∧
    (c = '-' → ∃ e es, more = e :: es ∧ isGap e = false)
  read : ∀ {fuel n cursor behind rest}, cursor.rest = text ++ behind → NextLine behind n rest →
    n < least → least ≤ cursor.column → ∃ node after,
      readAtom (fuel + 2) false none least cursor = .ok (node, after) ∧ after.rest = behind ∧
        node.toData = .ok d
  noKey : ∀ {fuel n cursor behind rest key after}, cursor.rest = text ++ behind →
    NextLine behind n rest → n < least → least ≤ cursor.column →
      readAtom fuel false none 0 cursor = .ok (key, after) →
        after.rest = behind ∨ cursor.line < after.line

/-- What is neither a list in brackets nor a map in braces is a scalar. -/
theorem readAtom_scalar {fuel : Nat} {inFlow : Bool} {given : Option GivenTag}
    (hrest : cursor.rest = c :: rest) (hlist : c ≠ '[') (hmap : c ≠ '\x7b') :
    readAtom (fuel + 1) inFlow given least cursor = readScalar inFlow given least cursor := by
  rw [readAtom]
  split
  · next heq =>
    rw [hrest] at heq
    exact absurd (List.cons.inj heq).1 hlist
  · next heq =>
    rw [hrest] at heq
    exact absurd (List.cons.inj heq).1 hmap
  · rfl

/-- The marks that start something other than a plain scalar. -/
def isMark (c : Char) : Bool :=
  "#,[]\x7b\x7d&*!|>'\"%@\x60".toList.contains c

theorem ne_of_isMark {d : Char} (hc : isMark c = false) (hd : isMark d = true) : c ≠ d := by
  rintro rfl
  rw [hd] at hc
  cases hc

theorem startsPlain_cons : startsPlain false (c :: rest)
    = if c = '-' || c = '?' || c = ':' then !headIsOrEnd isGap rest
      else !isGap c && !isMark c := by
  have hperm : List.isPerm ",[]\x7b\x7d#&*!|>'\"%@\x60".toList
      "#,[]\x7b\x7d&*!|>'\"%@\x60".toList = true := by decide
  rw [startsPlain, (List.isPerm_iff.1 hperm).contains_eq, isMark]
  split <;> simp

/-- A plain scalar starts with none of the marks. -/
theorem isMark_of_startsPlain (h : startsPlain false (c :: rest) = true) : isMark c = false := by
  rw [startsPlain_cons] at h
  split at h
  · next hc =>
    simp only [Bool.or_eq_true, decide_eq_true_eq] at hc
    rcases hc with (rfl | rfl) | rfl <;> decide
  · simp only [Bool.and_eq_true, Bool.not_eq_true'] at h
    exact h.2

/-- A plain scalar is read as far as it goes. -/
theorem readScalar_plain (hrest : cursor.rest = c :: rest)
    (hstart : startsPlain false (c :: rest) = true) :
    let n := plainLength false least cursor.column 0 (c :: rest)
    readScalar false none least cursor
      = .ok (scalarFrom none true cursor (folded (((c :: rest).take n).map .bare)),
          cursor.advance n) := by
  have hmark := isMark_of_startsPlain hstart
  have hne : ∀ d, isMark d = true → c ≠ d := fun _ => ne_of_isMark hmark
  intro n
  rw [readScalar]
  split
  · next heq =>
    rw [hrest] at heq
    exact absurd (List.cons.inj heq).1 (hne _ (by decide))
  · next heq =>
    rw [hrest] at heq
    exact absurd (List.cons.inj heq).1 (hne _ (by decide))
  · next heq =>
    rw [hrest] at heq
    obtain ⟨rfl, rfl⟩ := List.cons.inj heq
    simp only [hne '|' (by decide), hne '>' (by decide), hstart, decide_false, Bool.or_self,
      Bool.and_false, Bool.false_eq_true, if_false, if_true]
    rfl
  · next heq =>
    rw [hrest] at heq
    cases heq

/-- What a text must be to be written plain. -/
structure IsPlain (cs : List Char) : Prop extends IsPlainTail cs where
  word : ∃ c more, cs = c :: more ∧ c ≠ ' ' ∧ isBreak c = false ∧ isMark c = false ∧
    (c = '-' ∨ c = '?' ∨ c = ':' → ∃ e es, more = e :: es ∧ isGap e = false)

theorem isPlain_of_allowsPlain (h : allowsPlain cs = true) (hne : cs ≠ []) : IsPlain cs := by
  simp only [allowsPlain, allowsSingle, Bool.and_eq_true, Bool.not_eq_true'] at h
  obtain ⟨⟨⟨⟨⟨hspecial, -⟩, hbreak⟩, hhead⟩, hlast⟩, hindicator⟩ := h
  simp only [hasIndicator, Bool.or_eq_false_iff] at hindicator
  obtain ⟨⟨⟨⟨-, hmark⟩, hdash⟩, hcolon⟩, hneighbours⟩ := hindicator
  rw [List.any_eq_false] at hspecial hbreak
  refine { gaps := ?_, neighbours := hneighbours, last := ?_, word := ?_ }
  · intro c hc
    have hcbreak : isBreak c = false := by simpa using hbreak c hc
    exact ⟨hcbreak, isGap_eq (by simpa using hspecial c hc) hcbreak⟩
  · refine ⟨fun h => ?_, by simpa using hcolon⟩
    rw [h] at hlast
    exact absurd hlast (by decide)
  · obtain ⟨c, more, rfl⟩ := List.exists_cons_of_ne_nil hne
    simp only [headIs, isEdge, Bool.or_eq_false_iff, decide_eq_false_iff_not] at hhead
    refine ⟨c, more, rfl, hhead.1, hhead.2, hmark, fun hc => ?_⟩
    have hcontains : headIs ("?:-".toList.contains ·) (c :: more) = true := by
      rcases hc with rfl | rfl | rfl <;> rfl
    rw [hcontains, Bool.true_and] at hdash
    cases more with
    | nil => cases hdash
    | cons e es => exact ⟨e, es, rfl, hdash⟩

section Plain

variable {indent : Nat} {d : Data}

/-- A plain scalar starts where it is written. -/
theorem IsPlain.exists_word (h : IsPlain cs) (indent column : Nat) :
    ∃ c more, (plainFrom indent column none cs).toList = c :: more ∧ c ≠ ' ' ∧ isBreak c = false ∧
      isMark c = false ∧ isGap c = false ∧
        (c = '-' ∨ c = '?' ∨ c = ':' → ∃ e es, more = e :: es ∧ isGap e = false) := by
  obtain ⟨c, more, rfl, hblank, hbreak, hmark, hdash⟩ := h.word
  have hgap : isGap c = false := by simpa [hblank] using (h.gaps c List.mem_cons_self).2
  refine ⟨c, _, toList_plainFrom_word hblank, hblank, hbreak, hmark, hgap, fun hc => ?_⟩
  obtain ⟨e, es, rfl, he⟩ := hdash hc
  have heblank : e ≠ ' ' := by
    rintro rfl
    cases he
  exact ⟨e, _, toList_plainFrom_word heblank, he⟩

/-- What does not begin with a mark, and with a dash or the like only if more follows, is plain. -/
theorem startsPlain_append {more : List Char} (hgap : isGap c = false) (hmark : isMark c = false)
    (hdash : c = '-' ∨ c = '?' ∨ c = ':' → ∃ e es, more = e :: es ∧ isGap e = false)
    (behind : List Char) : startsPlain false (c :: (more ++ behind)) = true := by
  rw [startsPlain_cons]
  split
  · next hc =>
    obtain ⟨e, es, rfl, he⟩ := hdash (by simpa [or_assoc] using hc)
    simp [headIsOrEnd, he]
  · simp [hgap, hmark]

/-- A plain scalar ends where the next line starts further to the left. -/
theorem IsPlain.plainLength (h : IsPlain cs) (column : Nat) (hindent : least ≤ indent)
    (hpos : 0 < indent) {n : Nat} {behind rest : List Char} (hnext : NextLine behind n rest) (hn : n < least)
    (hcolumn : least ≤ cursor.column) :
    Yaml.plainLength false least cursor.column 0
        ((plainFrom indent column none cs).toList ++ behind)
      = (plainFrom indent column none cs).toList.length := by
  have hne : cs ≠ [] := by
    obtain ⟨d, ds, hd, -⟩ := h.word
    rw [hd]
    exact List.cons_ne_nil d ds
  rw [plainLength_plainFrom h.toIsPlainTail (fun _ => hnext.plainLength hn) hindent hpos hcolumn
    (fun h => absurd h (Nat.lt_irrefl 0)) (.inr rfl), if_neg hne, Nat.zero_add]

/-- The lines of a plain scalar are joined to its text. -/
theorem IsPlain.folded (h : IsPlain cs) (indent column : Nat) :
    Yaml.folded ((plainFrom indent column none cs).toList.map .bare) = cs := by
  refine foldPieces_plainFrom (fun d hd => ⟨(h.gaps d hd).1, ?_⟩) .start
  rintro rfl
  have := (h.gaps '\t' hd).2
  cases this

/-- A plain scalar is read as its text. -/
theorem isAtom_plain (h : IsPlain cs) (hindent : least ≤ indent) (hpos : 0 < indent)
    (hdata : ∀ mark, scalarNode (.ofPlain cs) mark cs = .ok d) :
    IsAtom least (plainFrom indent column none cs).toList d := by
  obtain ⟨c, more, hword, hblank, hbreak, hmark, hgap, hdash⟩ := h.exists_word indent column
  have hne : ∀ d, isMark d = true → c ≠ d := fun _ => ne_of_isMark hmark
  have hstart := startsPlain_append hgap hmark hdash
  -- how it begins, what is read as a node, and that no key is read
  refine ⟨?_, ?_, ?_⟩
  · exact ⟨c, more, hword, hblank, hne '#' (by decide), hbreak, hne '!' (by decide),
      fun hc => hdash (.inl hc)⟩
  · intro fuel n cursor behind rest hrest hnext hn hcolumn
    have hlength := h.plainLength column hindent hpos hnext hn hcolumn
    have hfolded := h.folded indent column
    rw [hword] at hrest hlength hfolded
    rw [List.cons_append] at hrest hlength
    have htake : (c :: (more ++ behind)).take (c :: more).length = c :: more :=
      List.take_left' rfl
    rw [readAtom_scalar hrest (hne _ (by decide)) (hne _ (by decide)),
      readScalar_plain hrest (hstart behind), hlength, htake, hfolded]
    refine ⟨_, _, rfl, ?_, hdata _⟩
    rw [rest_advance, hrest]
    exact List.drop_left' rfl
  · intro fuel n cursor behind rest key after hrest hnext hn hcolumn hkey
    have hlength := h.plainLength column hindent hpos hnext hn hcolumn
    rw [hword] at hrest hlength
    rw [List.cons_append] at hrest hlength
    cases fuel with
    | zero => cases hkey
    | succ fuel =>
      rw [readAtom_scalar hrest (hne _ (by decide)) (hne _ (by decide)),
        readScalar_plain hrest (hstart behind)] at hkey
      obtain rfl := (Prod.mk.inj (Except.ok.inj hkey)).2.symm
      have hle : Yaml.plainLength false least cursor.column 0 (c :: (more ++ behind))
          ≤ Yaml.plainLength false 0 cursor.column 0 (c :: (more ++ behind)) :=
        plainLength_anti (Nat.zero_le least) _
      rw [hlength] at hle
      rcases Nat.eq_or_lt_of_le hle with heq | hlt
      · refine .inl ?_
        rw [rest_advance, hrest, ← heq]
        exact List.drop_left' rfl
      · -- read as a key, the scalar goes on over the end of its line
        have hbreak : cursor.rest = (c :: more) ++ '\n' :: (List.replicate n ' ' ++ rest) := by
          rw [hrest, hnext.eq]
          rfl
        exact .inr (line_lt_advance hbreak hlt)

end Plain

section Quoted

variable {indent : Nat}

/-- A next line does not go on with a quote. -/
theorem NextLine.headIs_quote (h : NextLine behind n rest) : headIs (· = '\'') behind = false := by
  rw [h.eq]
  rfl

/-- What is in quotes is a text, whether it is read as a node or as a key. -/
theorem isAtom_quoted {quote : Char} {inside : List Char} {s : String}
    (hquote : quote = '\'' ∨ quote = '"')
    (hread : ∀ {n : Nat} {least : Nat} {cursor : Cursor} {behind rest : List Char},
      NextLine behind n rest → cursor.rest = quote :: (inside ++ quote :: behind) →
        readScalar false none least cursor
          = .ok (scalarFrom none false cursor s.toList, cursor.advance (inside.length + 1 + 1))) :
    IsAtom least (quote :: (inside ++ [quote])) (.text s) := by
  have hends : ∀ {cursor : Cursor} {behind : List Char},
      cursor.rest = quote :: (inside ++ [quote]) ++ behind →
        (cursor.advance (inside.length + 1 + 1)).rest = behind := by
    intro cursor behind hrest
    rw [rest_advance, hrest]
    exact List.drop_left' (by simp)
  have hshape : ∀ behind, quote :: (inside ++ [quote]) ++ behind = quote :: (inside ++ quote :: behind) := by
    simp
  have hlist : quote ≠ '[' := by rcases hquote with rfl | rfl <;> decide
  have hmap : quote ≠ '\x7b' := by rcases hquote with rfl | rfl <;> decide
  refine ⟨⟨quote, _, rfl, ?_⟩, ?_, ?_⟩
  · rcases hquote with rfl | rfl <;> exact ⟨by decide, by decide, by decide, by decide, by rintro ⟨⟩⟩
  · intro fuel n cursor behind rest hrest hnext _ _
    have hcursor := hrest.trans (hshape behind)
    refine ⟨scalarFrom none false cursor s.toList, _, ?_, hends hrest, ?_⟩
    · rw [readAtom_scalar hcursor hlist hmap, hread hnext hcursor]
    · show Except.ok (Data.text (String.ofList s.toList)) = _
      rw [String.ofList_toList]
  · intro fuel n cursor behind rest key after hrest hnext _ _ hkey
    have hcursor := hrest.trans (hshape behind)
    cases fuel with
    | zero => cases hkey
    | succ fuel =>
      rw [readAtom_scalar hcursor hlist hmap, hread hnext hcursor] at hkey
      obtain rfl := (Prod.mk.inj (Except.ok.inj hkey)).2.symm
      exact .inl (hends hrest)

/-- A text in single quotes is read as the text. -/
theorem isAtom_single {s : String} (hs : ∀ c ∈ s.toList, isSeparator c = false)
    (h : allowsSingle s.toList = true) :
    IsAtom least ("'" ++ singleFrom indent column none s.toList ++ "'").toList (.text s) := by
  simp only [allowsSingle, Bool.and_eq_true, Bool.not_eq_true', List.any_eq_false] at h
  obtain ⟨pieces, hpieces, hfolded⟩ := foldsTo_singleFrom indent column
    (fun c hc => ⟨by simpa using h.1 c hc, hs c hc⟩) h.2 .start
  have hfolded : folded pieces = s.toList := hfolded
  have hshape : ("'" ++ singleFrom indent column none s.toList ++ "'").toList
      = '\'' :: ((singleFrom indent column none s.toList).toList ++ ['\'']) := by
    simp
  rw [hshape]
  refine isAtom_quoted (.inl rfl) fun hnext hrest => ?_
  have hread := hpieces.close hnext.headIs_quote
  unfold readScalar
  rw [hrest]
  simp only [hread, required, Option.elim, bind, Except.bind, hfolded]
  rfl

/-- A text in double quotes that is not torn is read as the text. -/
theorem isAtom_double {s : String} (hstyle : styleOf s.toList = .double)
    (h : isTorn indent s.toList = false) :
    IsAtom least ("\"" ++ doubleFrom indent true true column s.toList ++ "\"").toList (.text s) := by
  have hwhole : IsWhole indent true s.toList := by
    simp only [isTorn, hstyle, decide_true, Bool.true_and, Bool.and_eq_false_iff,
      decide_eq_false_iff_not, Nat.not_le] at h
    exact h
  obtain ⟨pieces, hpieces, hcomes⟩ := exists_pieces_double true column hwhole
  have hfolded : folded pieces = s.toList := hcomes.blanks []
  have hshape : ("\"" ++ doubleFrom indent true true column s.toList ++ "\"").toList
      = '"' :: ((doubleFrom indent true true column s.toList).toList ++ ['"']) := by
    simp
  rw [hshape]
  refine isAtom_quoted (.inr rfl) fun hnext hrest => ?_
  unfold readScalar
  rw [hrest]
  simp only [hpieces.close, bind, Except.bind, hfolded]
  rfl

end Quoted

/-- A text with letters of its own is read as the text, unless it is torn. -/
theorem isAtom_text {indent : Nat} {s : String} (hs : ∀ c ∈ s.toList, isSeparator c = false)
    (htorn : isTorn indent s.toList = false) (hindent : least ≤ indent) (hpos : 0 < indent) :
    IsAtom least (scalarText indent column s).toList (.text s) := by
  rw [scalarText]
  cases hstyle : styleOf s.toList with
  | plain =>
    simp only [styleOf] at hstyle
    split at hstyle
    · next hplain =>
      simp only [Bool.and_eq_true, decide_eq_true_eq] at hplain
      have hne : s.toList ≠ [] := by
        intro hnil
        rw [hnil] at hplain
        exact absurd hplain.1 (by decide)
      refine isAtom_plain (isPlain_of_allowsPlain hplain.2 hne) hindent hpos fun mark => ?_
      rw [hplain.1]
      show Except.ok (Data.text (String.ofList s.toList)) = _
      rw [String.ofList_toList]
    · split at hstyle <;> cases hstyle
  | single =>
    simp only [styleOf] at hstyle
    split at hstyle
    · cases hstyle
    · split at hstyle
      · next hsingle => exact isAtom_single hs hsingle
      · cases hstyle
  | double => exact isAtom_double hstyle htorn

/-- A plain scalar without blanks stands on one line. -/
theorem toList_plainFrom_of_not_mem {indent : Nat} {previous : Option Char} (h : ' ' ∉ cs) :
    (plainFrom indent column previous cs).toList = cs := by
  induction cs generalizing column previous with
  | nil => rfl
  | cons c rest ih =>
    have hc : c ≠ ' ' := fun hc => h (by simp [hc])
    rw [toList_plainFrom_word hc, ih fun hmem => h (List.mem_cons_of_mem _ hmem)]

/-- What may be written plain and has no blanks is read as what it stands for. -/
theorem isAtom_word {s : String} {d : Data} (h : IsPlain s.toList) (hblank : ' ' ∉ s.toList)
    (hdata : ∀ mark, scalarNode (.ofPlain s.toList) mark s.toList = .ok d) :
    IsAtom least s.toList d := by
  have hline : (plainFrom (least + 1) 0 none s.toList).toList = s.toList :=
    toList_plainFrom_of_not_mem hblank
  rw [← hline]
  exact isAtom_plain h (Nat.le_succ _) (Nat.succ_pos _) hdata

end VerilogLoops.Yaml
