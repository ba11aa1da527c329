import VerilogLoops.Proofs.Yaml.Ink

/-!
# Block maps and block lists are read where they are written

What is written for a value, an item or an entry is followed by another line, which starts in a
column that ends it, or by the end of the document. The induction is on the document. Each level of
it is written with more indentation, except for a list behind a key, whose dashes stand in the column
of the key.

> `read_write`: a simple document that is a map is read back from its text, unless a text in it is
> torn.
-/

namespace VerilogLoops.Yaml

open VerilogLoops.Document VerilogLoops.Number

mutual

/-- No text of a document is torn, if lists in it are written with one indentation and everything
else with another one. -/
def isUntorn (dashes inner : Nat) : Data → Bool
  | .text s => !isTorn inner s.toList
  | .list items => areUntornItems dashes items
  | .map entries => areUntornEntries inner entries
  | _ => true

/-- No text of the items of a list is torn. -/
def areUntornItems (indent : Nat) : List Data → Bool
  | [] => true
  | item :: rest =>
    isUntorn (indent + levelWidth) (indent + levelWidth) item && areUntornItems indent rest

/-- No text of the values of a map is torn. -/
def areUntornEntries (indent : Nat) : List (Data × Data) → Bool
  | [] => true
  | (_, value) :: rest =>
    isUntorn indent (indent + levelWidth) value && areUntornEntries indent rest

end

/-! ## Keys -/

/-- A text that may be a key: a word of letters that is no truth value and no other name. -/
def isKeyText (cs : List Char) : Bool :=
  !cs.isEmpty && cs.all (fun c => c.isAlpha || c = '_') && cs.length ≤ keyWidth
    && Tag.ofPlain cs = .text

variable {indent least column n : Nat} {cursor mark : Cursor} {key : String}
  {text rest behind more : List Char} {d : Data}

/-- A letter or an underscore is none of the characters that mean something else. -/
theorem not_isGap_of_isAlpha {c : Char} (h : (c.isAlpha || c = '_') = true) :
    isGap c = false ∧ isBreak c = false ∧ isMark c = false ∧ c ≠ ' ' ∧ c ≠ ':' ∧ c ≠ '-' := by
  have hne : ∀ d : Char, (d.isAlpha || d = '_') = false → c ≠ d := by
    rintro d hd rfl
    rw [hd] at h
    cases h
  have hbreak : isBreak c = false := by
    simp [isBreak, hne '\n' (by decide), hne '\x85' (by decide), hne '\u2028' (by decide),
      hne '\u2029' (by decide)]
  refine ⟨?_, hbreak, ?_, hne ' ' (by decide), hne ':' (by decide), hne '-' (by decide)⟩
  · simp [isGap, hbreak, hne ' ' (by decide), hne '\t' (by decide), hne '\r' (by decide),
      hne '\x00' (by decide)]
  · rw [← Bool.not_eq_true]
    intro hmark
    simp only [isMark, List.contains_iff_mem] at hmark
    have hnone : "#,[]\x7b\x7d&*!|>'\"%@\x60".toList.all
        (fun d => !(d.isAlpha || d = '_')) = true := by decide
    have := List.all_eq_true.1 hnone c hmark
    rw [h] at this
    cases this

theorem isLetter_of_isKeyText (hkey : isKeyText key.toList = true) :
    ∀ c ∈ key.toList, (c.isAlpha || c = '_') = true := by
  simp only [isKeyText, Bool.and_eq_true] at hkey
  exact List.all_eq_true.1 hkey.1.1.2

/-- A letter or an underscore may stand in a text as it is. -/
theorem isSpecial_of_letter {c : Char} (hc : (c.isAlpha || c = '_') = true) : isSpecial c = false := by
  have hrange : ' ' ≤ c ∧ c ≤ '~' := by
    rcases Bool.or_eq_true_iff.1 hc with hletter | hunderscore
    · rcases Bool.or_eq_true_iff.1 hletter with hupper | hlower
      · obtain ⟨hlow, hhigh⟩ : 'A'.val ≤ c.val ∧ c.val ≤ 'Z'.val := of_decide_eq_true hupper
        exact ⟨UInt32.le_trans (by decide) hlow, UInt32.le_trans hhigh (by decide)⟩
      · obtain ⟨hlow, hhigh⟩ := Bool.and_eq_true_iff.1 hlower
        exact ⟨UInt32.le_trans (by decide) (of_decide_eq_true hlow),
          UInt32.le_trans (of_decide_eq_true hhigh) (by decide)⟩
    · rw [of_decide_eq_true hunderscore]
      decide
  simp [isSpecial, hrange]

/-- No neighbours of a text satisfy a condition that fails on every letter in front. -/
theorem hasNeighbours_of_letters {p : Char → Char → Bool} {cs : List Char}
    (hp : ∀ a b, (a.isAlpha || a = '_') = true → p a b = false)
    (hcs : ∀ c ∈ cs, (c.isAlpha || c = '_') = true) : hasNeighbours p cs = false := by
  induction cs with
  | nil => rfl
  | cons c rest ih =>
    obtain ⟨hc, hrest⟩ := List.forall_mem_cons.1 hcs
    refine hasNeighbours_cons.2 ⟨?_, ih hrest⟩
    cases rest with
    | nil => rfl
    | cons b rest => exact hp c b hc

/-- A text of letters would not be taken for structure. -/
theorem hasIndicator_of_letters {cs : List Char} (hcs : ∀ c ∈ cs, (c.isAlpha || c = '_') = true) :
    hasIndicator cs = false := by
  have hgaps : hasNeighbours (fun a b => a = ':' && isGap b || isGap a && b = '#') cs = false :=
    hasNeighbours_of_letters (fun a b ha => by simp [not_isGap_of_isAlpha ha]) hcs
  have hlast : cs.getLast? ≠ some ':' := fun hl =>
    absurd (hcs ':' (List.mem_of_getLast? hl)) (by decide)
  cases cs with
  | nil => rfl
  | cons c rest =>
    obtain ⟨-, -, hmark, -, hcolon, hdash⟩ := not_isGap_of_isAlpha (hcs c List.mem_cons_self)
    have hother : c ≠ '.' ∧ c ≠ '?' := by
      constructor <;> rintro rfl <;> exact absurd (hcs _ List.mem_cons_self) (by decide)
    have hborder : "---".toList.isPrefixOf (c :: rest) = false
        ∧ "...".toList.isPrefixOf (c :: rest) = false := by
      simp [List.isPrefixOf, hdash.symm, hother.1.symm]
    have hmarks : headIs ("#,[]\x7b\x7d&*!|>'\"%@\x60".toList.contains ·) (c :: rest) = false :=
      hmark
    have hsign : headIs ("?:-".toList.contains ·) (c :: rest) = false := by
      simp [headIs, hcolon, hdash, hother.2]
    rw [hasIndicator, hborder.1, hborder.2, hmarks, hsign, hgaps]
    simp [hlast]

/-- A text of letters may be written plain, if it is taken for a text. -/
theorem allowsPlain_of_letters {cs : List Char} (hcs : ∀ c ∈ cs, (c.isAlpha || c = '_') = true) :
    allowsPlain cs = true := by
  have hedge : ∀ c ∈ cs, isEdge c = false := fun c hc => by
    simp [isEdge, not_isGap_of_isAlpha (hcs c hc)]
  have hspecial : cs.any isSpecial = false :=
    List.any_eq_false.2 fun c hc => by simp [isSpecial_of_letter (hcs c hc)]
  have hbreak : cs.any isBreak = false :=
    List.any_eq_false.2 fun c hc => by simp [not_isGap_of_isAlpha (hcs c hc)]
  have hblanks : hasNeighbours (fun a b => a = ' ' && isBreak b || isBreak a && b = ' ') cs = false :=
    hasNeighbours_of_letters (fun a b ha => by simp [not_isGap_of_isAlpha ha]) hcs
  have hhead : headIs isEdge cs = false := by
    cases cs with
    | nil => rfl
    | cons c rest => exact hedge c List.mem_cons_self
  have hlast : cs.getLast?.any isEdge = false := by
    cases hl : cs.getLast? with
    | none => rfl
    | some c => exact hedge c (List.mem_of_getLast? hl)
  simp [allowsPlain, allowsSingle, hspecial, hblanks, hbreak, hhead, hlast, hasIndicator_of_letters hcs]

/-- A key begins with a letter. -/
theorem exists_letter_of_isKeyText (hkey : isKeyText key.toList = true) :
    ∃ c cs, key.toList = c :: cs ∧ (c.isAlpha || c = '_') = true := by
  have hletters := isLetter_of_isKeyText hkey
  simp only [isKeyText, Bool.and_eq_true, Bool.not_eq_true'] at hkey
  obtain ⟨c, cs, hcs⟩ :=
    List.exists_cons_of_ne_nil (show key.toList ≠ [] by simpa using hkey.1.1.1)
  exact ⟨c, cs, hcs, hletters c (hcs ▸ List.mem_cons_self)⟩

/-- A letter is the next character that is no trivia where it stands. -/
theorem next_of_letter {c : Char} (hrest : cursor.rest = c :: rest)
    (hc : (c.isAlpha || c = '_') = true) : cursor.next = cursor := by
  obtain ⟨-, hbreak, hmark, hblank, -, -⟩ := not_isGap_of_isAlpha hc
  exact next_of_word hrest hblank (ne_of_isMark hmark (by decide)) hbreak

theorem startsPlain_of_letter {c : Char} (hc : (c.isAlpha || c = '_') = true) :
    startsPlain false (c :: rest) = true := by
  obtain ⟨hgap, -, hmark, -, hcolon, hdash⟩ := not_isGap_of_isAlpha hc
  have hquestion : c ≠ '?' := by
    rintro rfl
    exact absurd hc (by decide)
  rw [startsPlain_cons, hgap, hmark]
  simp [hdash, hquestion, hcolon]

/-- Letters are read as they are. -/
theorem folded_of_letters {cs : List Char} (hcs : ∀ c ∈ cs, (c.isAlpha || c = '_') = true) :
    folded (cs.map .bare) = cs := by
  induction cs with
  | nil => rfl
  | cons c cs ih =>
    obtain ⟨hc, hcs⟩ := List.forall_mem_cons.1 hcs
    obtain ⟨hgap, hbreak, -, hblank, -, -⟩ := not_isGap_of_isAlpha hc
    have htab : c ≠ '\t' := by
      rintro rfl
      cases hgap
    have ih : foldPieces (.blanks []) (cs.map .bare) = cs := ih hcs
    rw [folded, List.map_cons, foldPieces_bare hblank htab hbreak, ih]
    rfl

theorem startsColon_ne {inFlow : Bool} {c : Char} (hc : c ≠ ':') :
    startsColon inFlow (c :: rest) = false := by
  unfold startsColon
  split
  · next heq => exact absurd (List.cons.inj heq).1 hc
  · rfl

/-- A key ends in front of its colon. -/
theorem plainLength_key {column : Nat} {cs : List Char}
    (hcs : ∀ c ∈ cs, (c.isAlpha || c = '_') = true) (hmore : headIsOrEnd isGap more = true) :
    plainLength false least column 0 (cs ++ ':' :: more) = cs.length := by
  have hcolon : startsColon false (':' :: more) = true := by
    simpa [startsColon] using hmore
  induction cs generalizing column with
  | nil =>
    rw [List.nil_append, plainLength, if_neg (by decide), if_neg (by decide), if_neg (by simp),
      hcolon]
    simp
  | cons c cs ih =>
    obtain ⟨hc, hcs⟩ := List.forall_mem_cons.1 hcs
    obtain ⟨hgap, hbreak, -, hblank, hne, -⟩ := not_isGap_of_isAlpha hc
    rw [List.cons_append, plainLength, if_neg hblank, if_neg (by simp [hbreak]), if_neg (by simp),
      hgap, startsColon_ne hne, if_neg (by simp), ih hcs, List.length_cons]
    omega

/-- A key with its colon is read. -/
theorem readBlockKey_key (hkey : isKeyText key.toList = true)
    (hrest : cursor.rest = key.toList ++ ':' :: more) (hmore : headIsOrEnd isGap more = true)
    (fuel : Nat) :
    readBlockKey (fuel + 1) cursor = .ok (.scalar .text cursor.mark key.toList,
      ⟨cursor.line, cursor.column + key.toList.length + 1, false, more⟩) := by
  have hletters := isLetter_of_isKeyText hkey
  obtain ⟨c, cs, hcs, hc⟩ := exists_letter_of_isKeyText hkey
  simp only [isKeyText, Bool.and_eq_true, decide_eq_true_eq] at hkey
  obtain ⟨⟨-, hwidth⟩, htag⟩ := hkey
  obtain ⟨-, -, hmark, -, -, -⟩ := not_isGap_of_isAlpha hc
  have hhead : cursor.rest = c :: (cs ++ ':' :: more) := by
    rw [hrest, hcs]
    rfl
  have htag? : readTag cursor = .ok (none, cursor) := by
    have : c ≠ '!' := ne_of_isMark hmark (by decide)
    rw [readTag, hhead]
    simp [headIs, this]
  have hlength : plainLength false 0 cursor.column 0 (c :: (cs ++ ':' :: more))
      = key.toList.length := by
    rw [← hhead, hrest]
    exact plainLength_key hletters hmore
  have htake : (c :: (cs ++ ':' :: more)).take key.toList.length = key.toList := by
    rw [← hhead, hrest]
    exact List.take_left' rfl
  -- the key has no line break, so the cursor stays on the line
  have hadvance : cursor.advance key.toList.length
      = ⟨cursor.line, cursor.column + key.toList.length, false, ':' :: more⟩ := by
    obtain ⟨line, column, fresh, text⟩ := cursor
    obtain rfl : text = key.toList ++ ':' :: more := hrest
    exact advance_append (hcs ▸ List.cons_ne_nil c cs)
      fun c hc => (not_isGap_of_isAlpha (hletters c hc)).2.1
  have hwithin : isWithinKey cursor.mark
      ⟨cursor.line, cursor.column + key.toList.length, false, ':' :: more⟩ = true := by
    simp [isWithinKey, Cursor.mark, hwidth]
  have hstarts : startsColon false (':' :: more) = true := by
    simpa [startsColon] using hmore
  unfold readBlockKey
  simp only [htag?, next_of_letter hhead hc, bind, Except.bind, Option.isSome_none, Bool.false_and]
  rw [readAtom_scalar hhead (ne_of_isMark hmark (by decide)) (ne_of_isMark hmark (by decide)),
    readScalar_plain hhead (startsPlain_of_letter hc), hlength, htake, folded_of_letters hletters,
    hadvance]
  simp only [List.takeWhile_cons, show (':' = ' ') = False by decide, decide_false,
    Bool.false_eq_true, if_false, List.length_nil, Cursor.advance, hstarts, hwithin, Bool.and_self,
    if_true]
  rw [scalarFrom, tagOfScalar, if_pos rfl, htag]
  rfl

/-! ## Nodes on one line -/

/-- Nothing, a truth value, a list without items and a map without entries are read. -/
theorem isAtom_null : IsAtom least "null".toList .null := by
  have htag : Tag.ofPlain "null".toList = .nothing := by decide
  refine isAtom_word (isPlain_of_allowsPlain (by decide) (by decide)) (by decide) fun mark => ?_
  rw [htag]
  rfl

theorem isAtom_bool (b : Bool) : IsAtom least (if b then "true" else "false").toList (.bool b) := by
  have htag : Tag.ofPlain (if b then "true" else "false").toList = .truth := by
    cases b <;> decide
  refine isAtom_word (isPlain_of_allowsPlain ?_ ?_) ?_ fun mark => ?_
  · cases b <;> decide
  · cases b <;> decide
  · cases b <;> decide
  · rw [htag]
    cases b <;> rfl

/-- Brackets or braces around nothing are read, whether as a node or as a key. -/
theorem isAtom_empty {opening closing : Char} (node : Cursor → Node)
    (hopening : opening = '[' ∨ opening = '\x7b') (hdata : ∀ cursor, (node cursor).toData = .ok d)
    (hshort : ∀ {least : Nat} {cursor : Cursor}, cursor.rest.head? = some opening →
      readAtom 1 false none least cursor = .error .malformed)
    (hread : ∀ {fuel least : Nat} {cursor : Cursor} {behind : List Char},
      cursor.rest = opening :: closing :: behind →
        readAtom (fuel + 2) false none least cursor
          = .ok (node cursor, (cursor.advance 1).advance 1)) :
    IsAtom least [opening, closing] d := by
  have hends : ∀ {cursor : Cursor} {behind : List Char},
      cursor.rest = opening :: closing :: behind →
        ((cursor.advance 1).advance 1).rest = behind := by
    intro cursor behind hrest
    rw [rest_advance, rest_advance, hrest]
    rfl
  refine ⟨⟨opening, [closing], rfl, ?_⟩, ?_, ?_⟩
  · rcases hopening with rfl | rfl <;> exact ⟨by decide, by decide, by decide, by decide, by rintro ⟨⟩⟩
  · intro fuel n cursor behind rest hrest _ _ _
    exact ⟨_, _, hread hrest, hends hrest, hdata cursor⟩
  · intro fuel n cursor behind rest key after hrest _ _ _ hkey
    refine .inl ?_
    -- with less fuel nothing is read
    match fuel with
    | 0 => cases hkey
    | 1 =>
      have hhead : cursor.rest.head? = some opening := by
        rw [hrest]
        rfl
      rw [hshort hhead] at hkey
      cases hkey
    | fuel + 2 =>
      rw [hread hrest] at hkey
      obtain rfl := (Prod.mk.inj (Except.ok.inj hkey)).2.symm
      exact hends hrest

/-- At the closing mark nothing is skipped. -/
theorem next_advance_one {c e : Char} (hrest : cursor.rest = c :: e :: behind) (hblank : e ≠ ' ')
    (hhash : e ≠ '#') (hbreak : isBreak e = false) : (cursor.advance 1).next = cursor.advance 1 := by
  have hclosing : (cursor.advance 1).rest = e :: behind := by
    rw [rest_advance, hrest]
    rfl
  exact next_of_word hclosing hblank hhash hbreak

theorem isAtom_emptyList : IsAtom least ['[', ']'] (.list []) := by
  refine isAtom_empty (fun cursor => .list .list cursor.mark []) (.inl rfl) (fun _ => rfl) ?_ ?_
  · intro least cursor hhead
    obtain ⟨line, column, fresh, text⟩ := cursor
    cases text with
    | nil => cases hhead
    | cons c rest =>
      obtain rfl : c = '[' := Option.some.inj hhead
      rfl
  · intro fuel least cursor behind hrest
    have hclose : headIs (· = ']') (cursor.advance 1).rest = true := by
      rw [rest_advance, hrest]
      rfl
    rw [readAtom, hrest]
    simp only [next_advance_one hrest (by decide) (by decide) (by decide), readFlowItems, hclose,
      if_true, bind, Except.bind]
    rfl

theorem isAtom_emptyMap : IsAtom least ['\x7b', '\x7d'] (.map []) := by
  refine isAtom_empty (fun cursor => .map .map cursor.mark []) (.inr rfl) (fun _ => rfl) ?_ ?_
  · intro least cursor hhead
    obtain ⟨line, column, fresh, text⟩ := cursor
    cases text with
    | nil => cases hhead
    | cons c rest =>
      obtain rfl : c = '\x7b' := Option.some.inj hhead
      rfl
  · intro fuel least cursor behind hrest
    have hclose : headIs (· = '\x7d') (cursor.advance 1).rest = true := by
      rw [rest_advance, hrest]
      rfl
    rw [readAtom, hrest]
    simp only [next_advance_one hrest (by decide) (by decide) (by decide), readFlowEntries, hclose,
      if_true, bind, Except.bind]
    rfl

/-- Some text is read as a node that stands for a document, up to the next line. -/
def ReadsTo (result : Except SyntaxError (Node × Cursor)) (n : Nat) (rest : List Char) (d : Data) :
    Prop :=
  ∃ node line, result = .ok (node, ⟨line, n, true, rest⟩) ∧ node.toData = .ok d

/-- What stands on the rest of a line is not taken for a key. -/
theorem IsAtom.readBlockKey (h : IsAtom least text d) (hrest : cursor.rest = text ++ behind)
    (hnext : NextLine behind n rest) (hn : n < least) (hcolumn : least ≤ cursor.column)
    (fuel : Nat) : ∃ e, readBlockKey fuel cursor = .error e := by
  obtain ⟨c, cs, rfl, hblank, hhash, hbreak, htag, -⟩ := h.head
  have htag : readTag cursor = .ok (none, cursor) := by
    rw [readTag, hrest]
    simp [headIs, htag]
  have hstart : cursor.next = cursor := next_of_word hrest hblank hhash hbreak
  unfold Yaml.readBlockKey
  simp only [htag, hstart, bind, Except.bind, Option.isSome_none, Bool.false_and]
  cases hkey : readAtom fuel false none 0 cursor with
  | error e => exact ⟨e, rfl⟩
  | ok r =>
    obtain ⟨key, after⟩ := r
    simp only [Bool.false_eq_true, if_false]
    rcases h.noKey hrest hnext hn hcolumn hkey with hafter | hline
    · -- the line ends where the colon would have to stand
      have hstop : after.rest.takeWhile (· = ' ') = [] := by
        rw [hafter, hnext.eq]
        rfl
      have hnocolon : startsColon false after.rest = false := by
        rw [hafter, hnext.eq]
        rfl
      rw [hstop]
      simp [Cursor.advance, hnocolon]
    · have hlater := line_le_advance (after.rest.takeWhile (· = ' ')).length after
      have hwithin : isWithinKey cursor.mark
          (after.advance (after.rest.takeWhile (· = ' ')).length) = false := by
        rw [isWithinKey, Bool.and_eq_false_iff]
        refine .inl (decide_eq_false ?_)
        show _ ≠ cursor.line
        omega
      rw [hwithin]
      simp

/-- A place is at the dash of an item. -/
theorem atDash_eq {line : Nat} {fresh : Bool} :
    Cursor.atDash ⟨line, column, fresh, rest⟩
      = (headIs (· = '-') rest && headIsOrEnd isGap (rest.drop 1)) :=
  rfl

/-- What stands on the rest of a line is read as a block node. -/
theorem readsTo_atom {besideKey : Bool} {leastDash : Nat} (h : IsAtom least text d)
    (hrest : mark.rest = ' ' :: (text ++ behind)) (hcolumn : least ≤ mark.column + 1)
    (hnext : NextLine behind n rest) (hn : n < least) (fuel : Nat) :
    ReadsTo (readBlockNode (fuel + 3) besideKey none leastDash least mark) n rest d := by
  obtain ⟨line, column, fresh, text'⟩ := mark
  obtain rfl : text' = ' ' :: (text ++ behind) := hrest
  obtain ⟨c, cs, rfl, hblank, hhash, hbreak, htag, hdash⟩ := h.head
  let cursor : Cursor := ⟨line, column + 1, fresh, c :: cs ++ behind⟩
  have hstart : Cursor.next ⟨line, column, fresh, ' ' :: (c :: cs ++ behind)⟩ = cursor := by
    show skipFrom false fresh line (column + 1) (c :: cs ++ behind) = _
    simp [skipFrom, hbreak, hblank, hhash, cursor]
  have hmore : cursor.atEnd = false := by simp [Cursor.atEnd, cursor]
  have hnodash : cursor.atDash = false := by
    rw [atDash_eq]
    by_cases hc : c = '-'
    · obtain ⟨e, es, rfl, he⟩ := hdash hc
      simp [headIsOrEnd, he]
    · simp [headIs, hc]
  have hnotag : readTag cursor = .ok (none, cursor) := by
    simp [readTag, headIs, htag, cursor]
  have hcursor : cursor.rest = c :: cs ++ behind := rfl
  obtain ⟨e, hkey⟩ := h.readBlockKey hcursor hnext hn hcolumn (fuel + 2)
  obtain ⟨node, after, hread, hafter, hdata⟩ : ∃ node after,
      readAtom (fuel + 2) false none least cursor = .ok (node, after) ∧ after.rest = behind ∧
        node.toData = .ok d :=
    h.read hcursor hnext hn hcolumn
  refine ⟨node, after.line + 1, ?_, hdata⟩
  rw [readBlockNode, hstart]
  simp only [hmore, hnodash, Bool.false_or, Bool.false_eq_true, if_false, hkey, hnotag, bind,
    Except.bind, hread, hnext.next hafter, decide_eq_true_eq]
  rw [if_neg (Nat.not_lt.2 hcolumn)]
  rfl

/-! ## Lists and maps -/

/-- An item of a list starts a text. -/
def startsDash (rest : List Char) : Bool :=
  headIs (· = '-') rest && headIsOrEnd isGap (rest.drop 1)

/-- A text with a document in front that is not over goes on there. -/
theorem atEnd_of_word {line : Nat} {fresh : Bool} (h : StartsWord rest) :
    Cursor.atEnd ⟨line, column, fresh, rest⟩ = false := by
  obtain ⟨⟨c, more, rfl, -⟩, hborder⟩ := h
  simp [Cursor.atEnd, hborder]

/-- The items of a list are read as a list. -/
theorem readsTo_list {besideKey : Bool} {leastDash fuel line : Nat} {fresh : Bool}
    {items : List Data} {nodes : List Node} (hmark : mark.next = ⟨line, column, fresh, text⟩)
    (hword : StartsWord text) (hdash : startsDash text = true) (hleast : leastDash ≤ column)
    (hroom : (!besideKey || fresh) = true) {line' : Nat}
    (hread : readBlockItems fuel column ⟨line, column, fresh, text⟩
      = .ok (nodes, ⟨line', n, true, rest⟩))
    (hdata : itemsData nodes = .ok items) :
    ReadsTo (readBlockNode (fuel + 1) besideKey none leastDash least mark) n rest (.list items) := by
  refine ⟨.list .list ⟨line, column⟩ nodes, line', ?_, ?_⟩
  · have hdash : Cursor.atDash ⟨line, column, fresh, text⟩ = true := hdash
    rw [readBlockNode, hmark]
    simp only [atEnd_of_word hword, hdash, Bool.false_or, if_true, decide_eq_true_eq, hroom, hread,
      bind, Except.bind]
    rw [if_neg (Nat.not_lt.2 hleast)]
    rfl
  · rw [Node.toData, if_pos rfl, hdata]
    rfl

/-- The entries of a map are read as a map. -/
theorem readsTo_map {besideKey : Bool} {leastDash fuel line : Nat} {fresh : Bool}
    {entries : List (String × Data)} {nodes : List (Node × Node)} {key : Node × Cursor}
    (hmark : mark.next = ⟨line, column, fresh, text⟩) (hword : StartsWord text)
    (hdash : startsDash text = false) (hleast : least ≤ column)
    (hroom : (!besideKey || fresh) = true)
    (hkey : readBlockKey fuel ⟨line, column, fresh, text⟩ = .ok key) {line' : Nat}
    (hread : readBlockEntries fuel column ⟨line, column, fresh, text⟩
      = .ok (nodes, ⟨line', n, true, rest⟩))
    (hnodup : (entries.map (·.1)).Nodup)
    (hdata : ∀ mark, mapParts mark nodes
      = ⟨.ok (), .ok [], .ok (entries.map fun e => (.text e.1, e.2))⟩) :
    ReadsTo (readBlockNode (fuel + 1) besideKey none leastDash least mark) n rest
      (.record entries) := by
  refine ⟨.map .map ⟨line, column⟩ nodes, line', ?_, ?_⟩
  · have hdash : Cursor.atDash ⟨line, column, fresh, text⟩ = false := hdash
    rw [readBlockNode, hmark]
    simp only [atEnd_of_word hword, hdash, Bool.false_or, Bool.false_eq_true, if_false,
      decide_eq_true_eq, hroom, hkey, hread, if_true, bind, Except.bind]
    rw [if_neg (Nat.not_lt.2 hleast)]
    rfl
  · rw [Node.toData, if_pos (by rfl), hdata]
    show Except.ok (Data.ofEntries ([] ++ entries.map fun e => (Data.text e.1, e.2))) = _
    rw [List.nil_append, ofEntries_record hnodup]

/-- A document is read where it is written, behind the colon of a key and behind the dash of an
item. -/
structure IsRead (d : Data) : Prop where
  value : ∀ {indent column n fuel : Nat} {mark : Cursor} {behind rest : List Char},
    isUntorn indent (indent + levelWidth) d = true → mark.rest = writeValue indent column d behind →
      indent < mark.column → NextLine behind n rest → n ≤ indent →
        (n = indent → startsDash rest = false) →
          3 * mark.rest.length ≤ fuel + 3 * behind.length →
            ReadsTo (readBlockNode fuel true none indent (indent + 1) mark) n rest d
  item : ∀ {indent n fuel : Nat} {mark : Cursor} {behind rest : List Char},
    isUntorn (indent + levelWidth) (indent + levelWidth) d = true →
      mark.rest = writeItem indent d behind → mark.column = indent + 1 → NextLine behind n rest →
        n ≤ indent → 3 * mark.rest.length ≤ fuel + 3 * behind.length →
          ReadsTo (readBlockNode fuel false none (indent + 1) (indent + 1) mark) n rest d

/-- An item is written behind a blank. -/
theorem exists_writeItem (indent : Nat) (d : Data) (behind : List Char) :
    ∃ cs, writeItem indent d behind = ' ' :: cs := by
  cases d with
  | list items => cases items <;> exact ⟨_, rfl⟩
  | map entries => cases entries <;> exact ⟨_, rfl⟩
  | _ => exact ⟨_, rfl⟩

/-- The first item starts with a dash. -/
theorem startsDash_writeItems (indent : Nat) (item : Data) (items : List Data) (behind : List Char) :
    StartsWord (writeItems indent (item :: items) behind) ∧
      startsDash (writeItems indent (item :: items) behind) = true := by
  rw [writeItems]
  obtain ⟨cs, hcs⟩ := exists_writeItem indent item
    (if items.isEmpty then behind else lineBreak indent ++ writeItems indent items behind)
  rw [hcs]
  exact ⟨⟨⟨'-', _, rfl, by decide, by decide, by decide⟩, rfl⟩, rfl⟩

/-- What follows an item that is not the last one is the next item. -/
theorem nextLine_items (indent : Nat) (item : Data) (items : List Data) (behind : List Char) :
    NextLine (lineBreak indent ++ writeItems indent (item :: items) behind) indent
      (writeItems indent (item :: items) behind) :=
  ⟨rfl, .inr (startsDash_writeItems _ _ _ _).1⟩

/-- The rest of a text is shorter than the text. -/
theorem length_lt_of_nextLine (h : NextLine behind n rest) : rest.length < behind.length := by
  rw [h.eq, lineBreak, List.cons_append, List.length_cons, List.length_append]
  omega

/-- The text behind a place one character further on. -/
theorem advance_one {c : Char} (hrest : cursor.rest = c :: rest) (hbreak : isBreak c = false) :
    cursor.advance 1 = ⟨cursor.line, cursor.column + 1, false, rest⟩ := by
  obtain ⟨line, column, fresh, text⟩ := cursor
  obtain rfl : text = c :: rest := hrest
  show (if isBreak c then (⟨line + 1, 0, true, rest⟩ : Cursor) else ⟨line, column + 1, false, rest⟩) = _
  rw [hbreak]
  rfl

/-- The items of a list are read where they are written. -/
theorem readBlockItems_write {items : List Data} (hread : ∀ d ∈ items, IsRead d)
    (hinked : ∀ d ∈ items, IsInked d) (hne : items ≠ [])
    (huntorn : areUntornItems indent items = true) {fuel : Nat}
    (hrest : cursor.rest = writeItems indent items behind) (hcolumn : cursor.column = indent)
    (hnext : NextLine behind n rest) (hn : n ≤ indent) (hdash : n = indent → startsDash rest = false)
    (hfuel : 3 * cursor.rest.length ≤ fuel + 3 * behind.length) :
    ∃ nodes line, readBlockItems fuel indent cursor = .ok (nodes, ⟨line, n, true, rest⟩) ∧
      itemsData nodes = .ok items := by
  induction items generalizing cursor fuel with
  | nil => exact absurd rfl hne
  | cons item items ih =>
    obtain ⟨hitem, hitems⟩ := List.forall_mem_cons.1 hread
    obtain ⟨hinkedItem, hinkedItems⟩ := List.forall_mem_cons.1 hinked
    rw [areUntornItems, Bool.and_eq_true] at huntorn
    rw [writeItems] at hrest
    have hmark := advance_one hrest (by decide)
    have hcolumns : (cursor.advance 1).column = indent + 1 := by rw [hmark, hcolumn]
    have hlength : cursor.rest.length = (cursor.advance 1).rest.length + 1 := by
      rw [hmark, hrest, List.length_cons]
    cases items with
    | nil =>
      -- the last item ends where the list does
      have hwritten : (cursor.advance 1).rest = writeItem indent item behind := by rw [hmark]; rfl
      have hbehind := (hinkedItem.item indent).length_le behind
      rw [← hwritten] at hbehind
      obtain ⟨fuel, rfl⟩ : ∃ k, fuel = k + 1 := ⟨fuel - 1, by omega⟩
      have hnode : ReadsTo (readBlockNode fuel false none (indent + 1) (indent + 1)
          (cursor.advance 1)) n rest item :=
        hitem.item huntorn.1 hwritten hcolumns hnext hn (by omega)
      obtain ⟨node, line, hnode, hdata⟩ := hnode
      have hstop : (Cursor.atEnd ⟨line, n, true, rest⟩ || n < indent
          || (n = indent && !Cursor.atDash ⟨line, n, true, rest⟩)) = true := by
        rcases Nat.lt_or_eq_of_le hn with hlt | heq
        · simp [hlt]
        · have hnodash : Cursor.atDash ⟨line, n, true, rest⟩ = false := hdash heq
          rw [hnodash, decide_eq_true heq]
          simp
      refine ⟨[node], line, ?_, by rw [itemsData, hdata]; rfl⟩
      rw [readBlockItems, hnode]
      simp only [bind, Except.bind, hstop, if_true]
      rfl
    | cons second items =>
      have hwritten : (cursor.advance 1).rest = writeItem indent item
          (lineBreak indent ++ writeItems indent (second :: items) behind) := by rw [hmark]; rfl
      have hbehind := (hinkedItem.item indent).length_le
        (lineBreak indent ++ writeItems indent (second :: items) behind)
      have hbehindItems := (isInk_writeItems hinkedItems indent).length_le behind
      rw [← hwritten, List.length_append, lineBreak, List.length_cons] at hbehind
      obtain ⟨fuel, rfl⟩ : ∃ k, fuel = k + 1 := ⟨fuel - 1, by omega⟩
      obtain ⟨hword, hstarts⟩ := startsDash_writeItems indent second items behind
      have hnode : ReadsTo (readBlockNode fuel false none (indent + 1) (indent + 1)
          (cursor.advance 1)) indent (writeItems indent (second :: items) behind) item :=
        hitem.item huntorn.1 hwritten hcolumns (nextLine_items _ _ _ _) (Nat.le_refl _)
          (by rw [List.length_append]; omega)
      obtain ⟨node, line, hnode, hdata⟩ := hnode
      let after : Cursor := ⟨line, indent, true, writeItems indent (second :: items) behind⟩
      obtain ⟨nodes, line', hnodes, hitemsData⟩ : ∃ nodes line',
          readBlockItems fuel indent after = .ok (nodes, ⟨line', n, true, rest⟩) ∧
            itemsData nodes = .ok (second :: items) :=
        ih hitems hinkedItems (List.cons_ne_nil _ _) huntorn.2 rfl rfl
          (by show 3 * (writeItems indent (second :: items) behind).length ≤ _; omega)
      have hend : after.atEnd = false := atEnd_of_word hword
      have hdashes : after.atDash = true := hstarts
      refine ⟨node :: nodes, line', ?_, by rw [itemsData, hdata, hitemsData]; rfl⟩
      rw [readBlockItems, hnode]
      show (if (after.atEnd || indent < indent || (indent = indent && !after.atDash)) = true then _
        else _) = _
      rw [hend, hdashes, if_neg (by simp), if_pos rfl, hnodes]
      rfl

/-- A key is written as it is, with its colon. -/
theorem toList_keyText (hkey : isKeyText key.toList = true) (indent : Nat) :
    (keyText indent (.text key)).toList = key.toList ++ [':'] := by
  have hletters := isLetter_of_isKeyText hkey
  have hblank : ' ' ∉ key.toList := fun hmem => absurd (hletters ' ' hmem) (by decide)
  simp only [isKeyText, Bool.and_eq_true, decide_eq_true_eq] at hkey
  have hstyle : styleOf key.toList = .plain := by
    rw [styleOf, hkey.2, allowsPlain_of_letters hletters]
    rfl
  rw [keyText, String.toList_append]
  show (scalarText (indent + levelWidth) indent key).toList ++ _ = _
  rw [scalarText, hstyle]
  show (plainFrom _ _ none key.toList).toList ++ _ = _
  rw [toList_plainFrom_of_not_mem hblank]
  rfl

theorem isSeparator_of_isKeyText (hkey : isKeyText key.toList = true) :
    ∀ c ∈ key.toList, isSeparator c = false := by
  intro c hc
  obtain ⟨-, hbreak, -⟩ := not_isGap_of_isAlpha (isLetter_of_isKeyText hkey c hc)
  simp only [isBreak, Bool.or_eq_false_iff] at hbreak
  simp [isSeparator, hbreak]

/-- A value is written behind a blank or on another line. -/
theorem headIs_writeValue (indent column : Nat) (d : Data) (behind : List Char) :
    headIsOrEnd isGap (writeValue indent column d behind) = true := by
  cases d with
  | list items => cases items <;> rfl
  | map entries => cases entries <;> rfl
  | _ => rfl

/-- What is written for the first entry. -/
theorem writeEntries_cons (hkey : isKeyText key.toList = true) (value : Data)
    (entries : List (Data × Data)) :
    writeEntries indent ((.text key, value) :: entries) behind
      = key.toList ++ ':' :: writeValue indent (keyEnd indent (.text key)) value
          (if entries.isEmpty then behind
            else lineBreak indent ++ writeEntries indent entries behind) := by
  rw [writeEntries, toList_keyText hkey, List.append_assoc]
  rfl

/-- A letter starts a word, and neither a document nor an item. -/
theorem startsWord_of_letter {c : Char} (hc : (c.isAlpha || c = '_') = true) :
    StartsWord (c :: rest) ∧ startsDash (c :: rest) = false := by
  obtain ⟨-, hbreak, hmark, hblank, -, hdash⟩ := not_isGap_of_isAlpha hc
  have hpoint : c ≠ '.' := by
    rintro rfl
    exact absurd hc (by decide)
  refine ⟨⟨⟨c, _, rfl, hblank, ne_of_isMark hmark (by decide), hbreak⟩, ?_⟩, ?_⟩
  · have hne : ('-' == c) = false ∧ ('.' == c) = false := by
      constructor
      · simpa using fun h : '-' = c => hdash h.symm
      · simpa using fun h : '.' = c => hpoint h.symm
    simp [startsBorder, List.isPrefixOf, hne]
  · simp [startsDash, headIs, hdash]

/-- The first entry starts with a letter. -/
theorem exists_writeEntries (hkey : isKeyText key.toList = true) (indent : Nat) (value : Data)
    (entries : List (Data × Data)) (behind : List Char) :
    ∃ c more, writeEntries indent ((.text key, value) :: entries) behind = c :: more ∧
      (c.isAlpha || c = '_') = true := by
  obtain ⟨c, cs, hcs, hc⟩ := exists_letter_of_isKeyText hkey
  exact ⟨c, _, by rw [writeEntries_cons hkey, hcs]; rfl, hc⟩

theorem startsWord_writeEntries (hkey : isKeyText key.toList = true) (indent : Nat) (value : Data)
    (entries : List (Data × Data)) (behind : List Char) :
    StartsWord (writeEntries indent ((.text key, value) :: entries) behind) ∧
      startsDash (writeEntries indent ((.text key, value) :: entries) behind) = false := by
  obtain ⟨c, more, heq, hc⟩ := exists_writeEntries hkey indent value entries behind
  rw [heq]
  exact startsWord_of_letter hc

/-- The last entry of a map is followed by a line that starts further to the left. -/
theorem readBlockEntries_last {fuel : Nat} {colon after : Cursor} {node value : Node}
    (hkey : readBlockKey fuel cursor = .ok (node, colon))
    (hvalue : readBlockNode fuel true none column (column + 1) colon = .ok (value, after))
    (hstop : (after.atEnd || after.column < column) = true) :
    readBlockEntries (fuel + 1) column cursor = .ok ([(node, value)], after) := by
  simp only [readBlockEntries, hkey, hvalue, bind, Except.bind, hstop, if_true]
  rfl

/-- Any other entry is followed by a line that starts in the same column. -/
theorem readBlockEntries_more {fuel : Nat} {colon after last : Cursor} {node value : Node}
    {nodes : List (Node × Node)} (hkey : readBlockKey fuel cursor = .ok (node, colon))
    (hvalue : readBlockNode fuel true none column (column + 1) colon = .ok (value, after))
    (hend : after.atEnd = false) (hcolumn : after.column = column) (hfresh : after.fresh = true)
    (hmore : readBlockEntries fuel column after = .ok (nodes, last)) :
    readBlockEntries (fuel + 1) column cursor = .ok ((node, value) :: nodes, last) := by
  rw [readBlockEntries]
  simp only [hkey, hvalue, bind, Except.bind, hend, hcolumn, hfresh, hmore, Nat.lt_irrefl, decide_false,
    decide_true, Bool.or_false, Bool.and_self, Bool.false_eq_true, if_false, if_true]
  rfl

/-- The entries of a map are read where they are written. -/
theorem readBlockEntries_write {entries : List (String × Data)}
    (hkeys : ∀ e ∈ entries, isKeyText e.1.toList = true) (hread : ∀ e ∈ entries, IsRead e.2)
    (hinked : ∀ e ∈ entries, IsInked e.2) (hne : entries ≠ [])
    (huntorn : areUntornEntries indent (textEntries entries) = true) {fuel : Nat}
    (hrest : cursor.rest = writeEntries indent (textEntries entries) behind)
    (hcolumn : cursor.column = indent) (hnext : NextLine behind n rest) (hn : n < indent ∨ rest = [])
    (hfuel : 3 * cursor.rest.length ≤ fuel + 3 * behind.length) :
    ∃ nodes line, readBlockEntries fuel indent cursor = .ok (nodes, ⟨line, n, true, rest⟩) ∧
      ∀ mark, mapParts mark nodes = ⟨.ok (), .ok [], .ok (textEntries entries)⟩ := by
  induction entries generalizing cursor fuel with
  | nil => exact absurd rfl hne
  | cons entry entries ih =>
    obtain ⟨key, value⟩ := entry
    obtain ⟨hentry, hentries⟩ := List.forall_mem_cons.1 hread
    obtain ⟨hinkedEntry, hinkedEntries⟩ := List.forall_mem_cons.1 hinked
    obtain ⟨hkey, hkeys⟩ := List.forall_mem_cons.1 hkeys
    dsimp only at hentry hinkedEntry hkey
    rw [textEntries, List.map_cons, areUntornEntries, Bool.and_eq_true] at huntorn
    rw [textEntries, List.map_cons, writeEntries_cons hkey] at hrest
    dsimp only at hrest
    have hlength := congrArg List.length hrest
    rw [List.length_append, List.length_cons] at hlength
    have hentryData : ∀ (mark : Mark) (node : Node) (nodes : List (Node × Node)),
        node.toData = .ok value → (mapParts mark nodes) = ⟨.ok (), .ok [], .ok (textEntries entries)⟩ →
          mapParts mark ((.scalar .text cursor.mark key.toList, node) :: nodes)
            = ⟨.ok (), .ok [], .ok ((.text key, value) :: textEntries entries)⟩ := by
      intro mark node nodes hdata hparts
      rw [mapParts.eq_def]
      dsimp only
      rw [hparts, if_neg (by simp [Node.tag]), hdata]
      show MapParts.add (.ok (.text (String.ofList key.toList), value)) _ = _
      rw [String.ofList_toList]
      rfl
    cases entries with
    | nil =>
      -- the last value ends where the map does
      rw [List.map_nil, List.isEmpty_nil, if_pos rfl] at hrest hlength
      have hbehind := (hinkedEntry.value indent (keyEnd indent (.text key))).length_le behind
      obtain ⟨fuel, rfl⟩ : ∃ k, fuel = k + 2 := ⟨fuel - 2, by omega⟩
      have hcolon := readBlockKey_key hkey hrest (headIs_writeValue indent _ value behind) fuel
      have hlast : n ≤ indent ∧ (n = indent → startsDash rest = false) := by
        rcases hn with hlt | hnil
        · exact ⟨Nat.le_of_lt hlt, fun heq => absurd heq (Nat.ne_of_lt hlt)⟩
        · rcases hnext.word with ⟨-, rfl⟩ | ⟨⟨c, more, hword, -⟩, -⟩
          · exact ⟨Nat.zero_le _, fun _ => by rw [hnil]; rfl⟩
          · rw [hnil] at hword
            cases hword
      let colon : Cursor := ⟨cursor.line, cursor.column + key.toList.length + 1, false,
        writeValue indent (keyEnd indent (.text key)) value behind⟩
      have hbeyond : indent < colon.column := by
        show indent < cursor.column + key.toList.length + 1
        omega
      obtain ⟨node, line, hnode, hdata⟩ : ReadsTo (readBlockNode (fuel + 1) true none indent
          (indent + 1) colon) n rest value :=
        hentry.value huntorn.1 rfl hbeyond hnext hlast.1 hlast.2 (by dsimp only [colon]; omega)
      have hstop : (Cursor.atEnd ⟨line, n, true, rest⟩ || n < indent) = true := by
        rcases hn with hlt | rfl
        · simp [hlt]
        · simp [Cursor.atEnd]
      exact ⟨[(_, node)], line, readBlockEntries_last hcolon hnode hstop,
        fun mark => hentryData mark node [] hdata rfl⟩
    | cons second entries =>
      have hsecond := hkeys second List.mem_cons_self
      rw [if_neg (by simp)] at hrest hlength
      let more := writeEntries indent (textEntries (second :: entries)) behind
      let colon : Cursor := ⟨cursor.line, cursor.column + key.toList.length + 1, false,
        writeValue indent (keyEnd indent (.text key)) value (lineBreak indent ++ more)⟩
      obtain ⟨hword, hnodash⟩ : StartsWord more ∧ startsDash more = false :=
        startsWord_writeEntries hsecond indent _ _ _
      have hmore : NextLine (lineBreak indent ++ more) indent more := ⟨rfl, .inr hword⟩
      have hlength : cursor.rest.length = key.toList.length + (colon.rest.length + 1) := hlength
      have hbehind : (lineBreak indent ++ more).length ≤ colon.rest.length :=
        (hinkedEntry.value indent (keyEnd indent (.text key))).length_le _
      have hbreak := length_lt_of_nextLine hmore
      have hbehindEntries : behind.length ≤ more.length :=
        (isInk_writeEntries (fun e he => isSeparator_of_isKeyText (hkeys e he)) hinkedEntries
          indent).length_le behind
      obtain ⟨fuel, rfl⟩ : ∃ k, fuel = k + 2 := ⟨fuel - 2, by omega⟩
      have hcolon := readBlockKey_key hkey hrest (headIs_writeValue indent _ value _) fuel
      have hbeyond : indent < colon.column := by
        show indent < cursor.column + key.toList.length + 1
        omega
      obtain ⟨node, line, hnode, hdata⟩ : ReadsTo (readBlockNode (fuel + 1) true none indent
          (indent + 1) colon) indent more value :=
        hentry.value huntorn.1 rfl hbeyond hmore (Nat.le_refl _) (fun _ => hnodash) (by omega)
      let after : Cursor := ⟨line, indent, true, more⟩
      obtain ⟨nodes, line', hnodes, hparts⟩ : ∃ nodes line',
          readBlockEntries (fuel + 1) indent after = .ok (nodes, ⟨line', n, true, rest⟩) ∧
            ∀ mark, mapParts mark nodes
              = ⟨.ok (), .ok [], .ok (textEntries (second :: entries))⟩ :=
        ih hkeys hentries hinkedEntries (List.cons_ne_nil _ _) huntorn.2 rfl rfl
          (by show 3 * more.length ≤ _; omega)
      have hend : after.atEnd = false := atEnd_of_word hword
      exact ⟨(_, node) :: nodes, line', readBlockEntries_more hcolon hnode hend rfl rfl hnodes,
        fun mark => hentryData mark node nodes hdata (hparts mark)⟩

/-! ## Documents -/

/-- A list with items is read at its first dash. -/
theorem readsTo_items {besideKey : Bool} {leastDash fuel : Nat} {item : Data} {items : List Data}
    (hmark : mark.next = cursor) (hroom : (!besideKey || cursor.fresh) = true)
    (hleast : leastDash ≤ cursor.column) (hread : ∀ d ∈ item :: items, IsRead d)
    (hinked : ∀ d ∈ item :: items, IsInked d)
    (huntorn : areUntornItems cursor.column (item :: items) = true)
    (hrest : cursor.rest = writeItems cursor.column (item :: items) behind)
    (hnext : NextLine behind n rest) (hn : n ≤ cursor.column)
    (hdash : n = cursor.column → startsDash rest = false)
    (hfuel : 3 * cursor.rest.length ≤ fuel + 3 * behind.length) :
    ReadsTo (readBlockNode (fuel + 1) besideKey none leastDash least mark) n rest
      (.list (item :: items)) := by
  obtain ⟨hword, hstarts⟩ := startsDash_writeItems cursor.column item items behind
  rw [← hrest] at hword hstarts
  obtain ⟨nodes, line, hnodes, hdata⟩ := readBlockItems_write hread hinked (List.cons_ne_nil _ _)
    huntorn hrest rfl hnext hn hdash hfuel
  exact readsTo_list hmark hword hstarts hleast hroom hnodes hdata

/-- A map with entries is read at its first key. -/
theorem readsTo_entries {besideKey : Bool} {leastDash fuel : Nat} {entry : String × Data}
    {entries : List (String × Data)} (hmark : mark.next = cursor)
    (hroom : (!besideKey || cursor.fresh) = true) (hleast : least ≤ cursor.column)
    (hnodup : ((entry :: entries).map (·.1)).Nodup)
    (hkeys : ∀ e ∈ entry :: entries, isKeyText e.1.toList = true)
    (hread : ∀ e ∈ entry :: entries, IsRead e.2) (hinked : ∀ e ∈ entry :: entries, IsInked e.2)
    (huntorn : areUntornEntries cursor.column (textEntries (entry :: entries)) = true)
    (hrest : cursor.rest = writeEntries cursor.column (textEntries (entry :: entries)) behind)
    (hnext : NextLine behind n rest) (hn : n < cursor.column ∨ rest = [])
    (hfuel : 3 * cursor.rest.length ≤ fuel + 1 + 3 * behind.length) :
    ReadsTo (readBlockNode (fuel + 2) besideKey none leastDash least mark) n rest
      (.record (entry :: entries)) := by
  have hfirst := hkeys entry List.mem_cons_self
  have hcons : cursor.rest
      = writeEntries cursor.column ((.text entry.1, entry.2) :: textEntries entries) behind := hrest
  obtain ⟨hword, hstarts⟩ : StartsWord cursor.rest ∧ startsDash cursor.rest = false := by
    rw [hcons]
    exact startsWord_writeEntries hfirst _ _ _ _
  rw [writeEntries_cons hfirst] at hcons
  have hkey := readBlockKey_key hfirst hcons (headIs_writeValue _ _ _ _) fuel
  obtain ⟨nodes, line, hnodes, hdata⟩ := readBlockEntries_write hkeys hread hinked
    (List.cons_ne_nil _ _) huntorn hrest rfl hnext hn hfuel
  exact readsTo_map hmark hword hstarts hleast hroom hkey hnodes hnodup hdata

/-- Behind a blank a word starts. -/
theorem next_of_blank (hrest : mark.rest = ' ' :: text) (hword : StartsWord text) :
    mark.next = ⟨mark.line, mark.column + 1, mark.fresh, text⟩ := by
  obtain ⟨line, column, fresh, text'⟩ := mark
  obtain rfl : text' = ' ' :: text := hrest
  obtain ⟨⟨c, more, rfl, hblank, hhash, hbreak⟩, -⟩ := hword
  show skipFrom false fresh line (column + 1) (c :: more) = _
  simp [skipFrom, hbreak, hblank, hhash]

/-- What stands on the rest of a line is read as a value and as an item. -/
theorem IsRead.of_atom
    (hvalue : ∀ indent column, isUntorn indent (indent + levelWidth) d = true → ∃ text,
      IsAtom (indent + 1) text d ∧
        ∀ behind, writeValue indent column d behind = ' ' :: (text ++ behind))
    (hitem : ∀ indent, isUntorn (indent + levelWidth) (indent + levelWidth) d = true → ∃ text,
      IsAtom (indent + 1) text d ∧ ∀ behind, writeItem indent d behind = ' ' :: (text ++ behind)) :
    IsRead d := by
  have hfuel : ∀ {least n fuel : Nat} {mark : Cursor} {text behind : List Char},
      IsAtom least text d → mark.rest = ' ' :: (text ++ behind) →
        3 * mark.rest.length ≤ fuel + 3 * behind.length → ∃ k, fuel = k + 3 := by
    intro least n fuel mark text behind hatom hrest hfuel
    obtain ⟨c, cs, rfl, -⟩ := hatom.head
    rw [hrest, List.length_cons, List.length_append, List.length_cons] at hfuel
    exact ⟨fuel - 3, by omega⟩
  constructor
  · intro indent column n fuel mark behind rest huntorn hrest hcolumn hnext hn _ henough
    obtain ⟨text, hatom, hwrite⟩ := hvalue indent column huntorn
    rw [hwrite] at hrest
    obtain ⟨fuel, rfl⟩ := hfuel (n := n) hatom hrest henough
    exact readsTo_atom hatom hrest (by omega) hnext (by omega) fuel
  · intro indent n fuel mark behind rest huntorn hrest hcolumn hnext hn henough
    obtain ⟨text, hatom, hwrite⟩ := hitem indent huntorn
    rw [hwrite] at hrest
    obtain ⟨fuel, rfl⟩ := hfuel (n := n) hatom hrest henough
    exact readsTo_atom hatom hrest (by omega) hnext (by omega) fuel

/-- A list is read behind a key, where its dashes stand in the column of the key, and behind the
dash of an item. -/
theorem isRead_list {item : Data} {items : List Data} (hread : ∀ d ∈ item :: items, IsRead d)
    (hinked : ∀ d ∈ item :: items, IsInked d) : IsRead (.list (item :: items)) := by
  constructor
  · intro indent column n fuel mark behind rest huntorn hrest _ hnext hn hdash hfuel
    let text := writeItems indent (item :: items) behind
    have hrest : mark.rest = lineBreak indent ++ text := hrest
    have hline : NextLine (lineBreak indent ++ text) indent text := nextLine_items _ _ _ _
    have hlength := length_lt_of_nextLine hline
    have hbehind : behind.length ≤ text.length := (isInk_writeItems hinked indent).length_le behind
    rw [hrest] at hfuel
    obtain ⟨fuel, rfl⟩ : ∃ k, fuel = k + 1 := ⟨fuel - 1, by omega⟩
    exact readsTo_items (hline.next hrest) rfl (Nat.le_refl _) hread hinked huntorn rfl hnext hn
      hdash (show 3 * text.length ≤ _ by omega)
  · intro indent n fuel mark behind rest huntorn hrest hcolumn hnext hn hfuel
    let text := writeItems (indent + levelWidth) (item :: items) behind
    have hrest : mark.rest = ' ' :: text := hrest
    have hword : StartsWord text := (startsDash_writeItems _ _ _ _).1
    have hmark : mark.next = ⟨mark.line, indent + levelWidth, mark.fresh, text⟩ := by
      rw [next_of_blank hrest hword, hcolumn]
      rfl
    have hbehind : behind.length ≤ text.length := (isInk_writeItems hinked _).length_le behind
    have hwider : indent < indent + levelWidth := Nat.lt_add_of_pos_right (by decide)
    rw [hrest, List.length_cons] at hfuel
    obtain ⟨fuel, rfl⟩ : ∃ k, fuel = k + 1 := ⟨fuel - 1, by omega⟩
    exact readsTo_items hmark rfl (Nat.succ_le_of_lt hwider) hread hinked huntorn rfl hnext
      (Nat.le_of_lt (Nat.lt_of_le_of_lt hn hwider))
      (fun heq => absurd heq (Nat.ne_of_lt (Nat.lt_of_le_of_lt hn hwider)))
      (show 3 * text.length ≤ _ by omega)

/-- A map is read behind a key, on the lines that follow, and behind the dash of an item. -/
theorem isRead_record {entry : String × Data} {entries : List (String × Data)}
    (hnodup : ((entry :: entries).map (·.1)).Nodup)
    (hkeys : ∀ e ∈ entry :: entries, isKeyText e.1.toList = true)
    (hread : ∀ e ∈ entry :: entries, IsRead e.2) (hinked : ∀ e ∈ entry :: entries, IsInked e.2) :
    IsRead (.record (entry :: entries)) := by
  have hink := isInk_writeEntries (fun e he => isSeparator_of_isKeyText (hkeys e he)) hinked
  have hwider : ∀ indent, indent < indent + levelWidth := fun _ => Nat.lt_add_of_pos_right (by decide)
  -- behind a key the entries begin on the next line, behind a dash on the same one
  constructor
  · intro indent column n fuel mark behind rest huntorn hrest _ hnext hn _ hfuel
    let text := writeEntries (indent + levelWidth) (textEntries (entry :: entries)) behind
    have hrest : mark.rest = lineBreak (indent + levelWidth) ++ text := hrest
    have hword : StartsWord text :=
      (startsWord_writeEntries (hkeys entry List.mem_cons_self) _ _ _ _).1
    have hline : NextLine (lineBreak (indent + levelWidth) ++ text) (indent + levelWidth) text :=
      ⟨rfl, .inr hword⟩
    have hlength := length_lt_of_nextLine hline
    have hbehind : behind.length ≤ text.length := (hink _).length_le behind
    rw [hrest] at hfuel
    obtain ⟨fuel, rfl⟩ : ∃ k, fuel = k + 2 := ⟨fuel - 2, by omega⟩
    exact readsTo_entries (hline.next hrest) rfl (Nat.succ_le_of_lt (hwider indent)) hnodup hkeys
      hread hinked huntorn rfl hnext (.inl (Nat.lt_of_le_of_lt hn (hwider indent)))
      (show 3 * text.length ≤ _ by omega)
  · intro indent n fuel mark behind rest huntorn hrest hcolumn hnext hn hfuel
    let text := writeEntries (indent + levelWidth) (textEntries (entry :: entries)) behind
    have hrest : mark.rest = ' ' :: text := hrest
    have hword : StartsWord text :=
      (startsWord_writeEntries (hkeys entry List.mem_cons_self) _ _ _ _).1
    have hmark : mark.next = ⟨mark.line, indent + levelWidth, mark.fresh, text⟩ := by
      rw [next_of_blank hrest hword, hcolumn]
      rfl
    have hbehind : behind.length ≤ text.length := (hink _).length_le behind
    rw [hrest, List.length_cons] at hfuel
    obtain ⟨fuel, rfl⟩ : ∃ k, fuel = k + 2 := ⟨fuel - 2, by omega⟩
    exact readsTo_entries hmark rfl (Nat.succ_le_of_lt (hwider indent)) hnodup hkeys hread hinked
      huntorn rfl hnext (.inl (Nat.lt_of_le_of_lt hn (hwider indent)))
      (show 3 * text.length ≤ _ by omega)

variable {isText isKey : String → Prop}

/-- A simple document is read where it is written. -/
theorem isRead_of_simple (h : Simple isText isKey d)
    (htexts : ∀ s, isText s → ∀ c ∈ s.toList, isSeparator c = false)
    (hkeys : ∀ s, isKey s → isKeyText s.toList = true) : IsRead d := by
  have hinked : ∀ d, Simple isText isKey d → IsInked d := fun d h =>
    isInked_of_simple h htexts fun s hs => isSeparator_of_isKeyText (hkeys s hs)
  -- scalars and empty collections stand on the rest of a line
  induction h with
  | null =>
    exact .of_atom (fun _ _ _ => ⟨_, isAtom_null, fun _ => rfl⟩)
      fun _ _ => ⟨_, isAtom_null, fun _ => rfl⟩
  | bool b =>
    exact .of_atom (fun _ _ _ => ⟨_, isAtom_bool b, fun _ => rfl⟩)
      fun _ _ => ⟨_, isAtom_bool b, fun _ => rfl⟩
  | int hi =>
    exact .of_atom (fun _ _ _ => ⟨_, isAtom_int hi, fun _ => rfl⟩)
      fun _ _ => ⟨_, isAtom_int hi, fun _ => rfl⟩
  | @text s hs =>
    have hatom : ∀ (indent column : Nat), (!isTorn (indent + levelWidth) s.toList) = true →
        IsAtom (indent + 1) (scalarText (indent + levelWidth) column s).toList (.text s) := by
      intro indent column huntorn
      exact isAtom_text (htexts s hs) (by simpa using huntorn) (Nat.le_succ _) (Nat.succ_pos _)
    exact .of_atom (fun indent column huntorn => ⟨_, hatom indent (column + 1) huntorn, fun _ => rfl⟩)
      fun indent huntorn => ⟨_, hatom indent _ huntorn, fun _ => rfl⟩
  | @list items hitems ih =>
    cases items with
    | nil =>
      exact .of_atom (fun _ _ _ => ⟨_, isAtom_emptyList, fun _ => rfl⟩)
        fun _ _ => ⟨_, isAtom_emptyList, fun _ => rfl⟩
    | cons item items => exact isRead_list ih fun d hd => hinked d (hitems d hd)
  | @record entries hnodup hk hvalues ih =>
    cases entries with
    | nil =>
      exact .of_atom (fun _ _ _ => ⟨_, isAtom_emptyMap, fun _ => rfl⟩)
        fun _ _ => ⟨_, isAtom_emptyMap, fun _ => rfl⟩
    | cons entry entries =>
      exact isRead_record hnodup (fun e he => hkeys _ (hk e he)) ih fun e he =>
        hinked _ (hvalues e he)

/-- What is read as itself is not changed before it is read. -/
theorem unifyBreaks_of_allFit {cs : List Char} (h : AllFit cs) : unifyBreaks cs = cs := by
  induction cs with
  | nil => rfl
  | cons c rest ih =>
    obtain ⟨hc, hrest⟩ := allFit_cons.1 h
    simp only [isFit, Bool.and_eq_true, decide_eq_true_eq] at hc
    obtain ⟨⟨-, hreturn⟩, hnext⟩ := hc
    rw [unifyBreaks]
    · simp [hreturn, hnext, ih hrest]
    · rintro more rfl
      exact fun _ => hreturn rfl

/-- A map that is simple has texts for keys. -/
theorem exists_textEntries {es : List (Data × Data)} (h : Simple isText isKey (.map es)) :
    ∃ entries, es = textEntries entries ∧ (entries.map (·.1)).Nodup ∧
      (∀ e ∈ entries, isKey e.1) ∧ ∀ e ∈ entries, Simple isText isKey e.2 := by
  generalize hd : Data.map es = d at h
  cases h with
  | record hnodup hk hvalues =>
    obtain rfl := Data.map.inj hd
    exact ⟨_, rfl, hnodup, hk, hvalues⟩
  | _ => cases hd

/-- A document that starts with a letter starts where its text does. -/
theorem firstPlace_of_letter {c : Char} (hc : (c.isAlpha || c = '_') = true) :
    firstPlace (c :: more) = ⟨0, 0, true, c :: more⟩ := by
  have hnext : Cursor.next ⟨0, 0, true, c :: more⟩ = ⟨0, 0, true, c :: more⟩ :=
    next_of_letter rfl hc
  have hborder : startsBorder (c :: more) = false := (startsWord_of_letter hc).1.2
  unfold firstPlace
  split
  · next heq =>
    rw [(List.cons.inj heq).1] at hc
    exact absurd hc (by decide)
  · simp only [hnext, hborder, Bool.and_false, Bool.false_eq_true, if_false]

theorem dropWhile_isAcceptable (h : AllFit text) : text.dropWhile isAcceptable = [] := by
  have hdrop : (text ++ []).dropWhile isAcceptable = [] :=
    List.dropWhile_append_of_pos fun c hc => by
      have := h c hc
      simp only [isFit, Bool.and_eq_true] at this
      exact this.1.1
  rwa [List.append_nil] at hdrop

/-- A text that is one node up to its end is read as the data of the node. -/
theorem read_of_readBlockNode {c : Char} (hc : (c.isAlpha || c = '_') = true)
    (hfit : AllFit (c :: more)) {node : Node} {line column : Nat} {fresh : Bool}
    (hnode : readBlockNode (8 * (c :: more).length + 6 + 2) true none 0 0
      ⟨0, 0, true, c :: more⟩ = .ok (node, ⟨line, column, fresh, []⟩))
    (hdata : node.toData = .ok d) : read (String.ofList (c :: more)) = .ok d := by
  have htext : Node.ofText (String.ofList (c :: more)) = .ok node := by
    unfold Node.ofText
    rw [String.toList_ofList, unifyBreaks_of_allFit hfit]
    dsimp only
    rw [firstPlace_of_letter hc]
    show (readBlockNode (8 * (c :: more).length + 6 + 2) true none 0 0 _).bind _ = _
    rw [hnode]
    rfl
  unfold read
  rw [String.toList_ofList, dropWhile_isAcceptable hfit, htext]
  show (node.toData).mapError _ = _
  rw [hdata]
  rfl

/-- **A document is read back from its text.** A simple document that is a map with entries is read
back, unless a text in it is torn. -/
theorem read_write {e : Data × Data} {es : List (Data × Data)}
    (h : Simple isText isKey (.map (e :: es)))
    (htexts : ∀ s, isText s → ∀ c ∈ s.toList, isSeparator c = false)
    (hkeys : ∀ s, isKey s → isKeyText s.toList = true)
    (huntorn : isUntorn 0 0 (.map (e :: es)) = true) :
    read (write (.map (e :: es))) = .ok (.map (e :: es)) := by
  obtain ⟨entries, hes, hnodup, hk, hvalues⟩ := exists_textEntries h
  obtain ⟨entry, entries, rfl⟩ : ∃ entry more, entries = entry :: more := by
    cases entries with
    | nil => cases hes
    | cons entry more => exact ⟨entry, more, rfl⟩
  have hnames : ∀ e ∈ entry :: entries, isKeyText e.1.toList = true := fun e he =>
    hkeys _ (hk e he)
  have hread : ∀ e ∈ entry :: entries, IsRead e.2 := fun e he =>
    isRead_of_simple (hvalues e he) htexts hkeys
  have hinked : ∀ e ∈ entry :: entries, IsInked e.2 := fun e he =>
    isInked_of_simple (hvalues e he) htexts fun s hs => isSeparator_of_isKeyText (hkeys s hs)
  rw [hes] at huntorn ⊢
  show read (String.ofList (writeEntries 0 (textEntries (entry :: entries)) ['\n'])) = _
  -- the text begins with the first key
  obtain ⟨c, more, htext, hc⟩ : ∃ c more,
      writeEntries 0 (textEntries (entry :: entries)) ['\n'] = c :: more ∧
        (c.isAlpha || c = '_') = true :=
    exists_writeEntries (hnames entry List.mem_cons_self) _ _ _ _
  have hfit : AllFit (c :: more) := by
    obtain ⟨written, hwritten, hwrite⟩ :=
      isInk_writeEntries (fun e he => isSeparator_of_isKeyText (hnames e he)) hinked 0
    rw [← htext, hwrite]
    exact allFit_append.2 ⟨hwritten, allFit_cons.2 ⟨by decide, allFit_nil⟩⟩
  have hend : NextLine ['\n'] 0 [] := ⟨rfl, .inl ⟨rfl, rfl⟩⟩
  obtain ⟨node, line, hnode, hdata⟩ : ReadsTo
      (readBlockNode (8 * (c :: more).length + 6 + 2) true none 0 0 ⟨0, 0, true, c :: more⟩) 0 []
        (.record (entry :: entries)) :=
    readsTo_entries (next_of_letter rfl hc) rfl (Nat.le_refl 0) hnodup hnames hread hinked huntorn
      htext.symm hend (.inr rfl) (show 3 * (c :: more).length ≤ _ by omega)
  rw [htext]
  exact read_of_readBlockNode hc hfit hnode hdata

end VerilogLoops.Yaml
