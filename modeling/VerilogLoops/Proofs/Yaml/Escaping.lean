import VerilogLoops.Proofs.Numeral
import VerilogLoops.Proofs.Yaml.Folding

/-!
# Double quotes keep every character

In double quotes a character that cannot stand for itself is written as an escape, and a line ends
behind a backslash. The blank at the head of the next line is hidden behind a backslash of its own.

This goes wrong at one place. If the lines start beyond the width, then a line that was ended behind
an escape is ended again at the blank that follows, and the backslash that was to hide the blank
stands in front of the one that ends the line. Both together are read as a backslash.

> `exists_pieces_double`: double quotes are read up to the closing one, and their pieces are the
> text, unless it is torn in this way.
-/

namespace VerilogLoops.Yaml

open VerilogLoops.Number VerilogLoops.Text

/-- A text that is continued on lines with some indentation is torn: it stands in double quotes, the
indentation takes up the whole width, and a blank with more behind it follows an escape that is not
the first character. -/
def isTorn (indent : Nat) (cs : List Char) : Bool :=
  styleOf cs = .double && lineWidth ≤ indent
    && hasNeighbours (fun a b => !isBareInDouble a && b = ' ') (cs.drop 1).dropLast

/-- What stands inside double quotes is read as some pieces, whatever follows. -/
def IsDouble (text : List Char) (pieces : List Piece) : Prop :=
  ∀ rest, readDouble 0 (text ++ rest)
    = (readDouble 0 rest).map fun r => (pieces ++ r.1, r.2 + text.length)

variable {indent column : Nat} {isFirst behindEscape : Bool} {pending : Pending} {c : Char}
  {cs xs ys rest behind : List Char} {ps qs : List Piece}

theorem IsDouble.nil : IsDouble [] [] := by
  intro rest
  cases h : readDouble 0 rest <;> simp [Except.map, h]

theorem IsDouble.append (hx : IsDouble xs ps) (hy : IsDouble ys qs) :
    IsDouble (xs ++ ys) (ps ++ qs) := by
  intro rest
  rw [List.append_assoc, hx, hy]
  cases readDouble 0 rest with
  | error e => rfl
  | ok r =>
    simp only [Except.map, List.append_assoc, List.length_append, Except.ok.injEq, Prod.mk.injEq,
      true_and]
    omega

/-- A character other than a quote and a backslash is read as it is. -/
theorem IsDouble.bare (hquote : c ≠ '"') (hslash : c ≠ '\\') : IsDouble [c] [.bare c] := by
  intro rest
  rw [List.singleton_append, readDouble, if_neg hquote, if_neg hslash]
  cases readDouble 0 rest <;> rfl

/-- Blanks are read as they are. -/
theorem IsDouble.blanks (n : Nat) :
    IsDouble (List.replicate n ' ') (List.replicate n (.bare ' ')) := by
  induction n with
  | zero => exact .nil
  | succ n ih => exact (IsDouble.bare (by decide) (by decide)).append ih

/-- The characters of an escape are passed over. -/
theorem readDouble_skip (xs rest : List Char) :
    readDouble xs.length (xs ++ rest)
      = (readDouble 0 rest).map fun r => (r.1, r.2 + xs.length) := by
  induction xs with
  | nil => cases h : readDouble 0 rest <;> simp [Except.map, h]
  | cons x xs ih =>
    rw [List.length_cons, List.cons_append, readDouble, ih]
    cases readDouble 0 rest <;> simp [Except.map, bind, Except.bind, pure, Except.pure, Nat.add_assoc]

/-- What is read behind a backslash is a piece. -/
theorem IsDouble.escape {piece : Piece}
    (h : ∀ rest, readEscape (xs ++ rest) = .ok (piece, xs.length)) :
    IsDouble ('\\' :: xs) [piece] := by
  intro rest
  rw [List.cons_append, readDouble, if_neg (by decide), if_pos rfl, h]
  show (readDouble xs.length (xs ++ rest)).bind _ = _
  rw [readDouble_skip]
  cases readDouble 0 rest <;> simp [Except.map, Except.bind, pure, Except.pure, Nat.add_assoc]

/-- A quote is the closing one. -/
theorem IsDouble.close (h : IsDouble xs ps) :
    readDouble 0 (xs ++ '"' :: behind) = .ok (ps, xs.length + 1) := by
  have hclose : readDouble 0 ('"' :: behind) = .ok ([], 1) := rfl
  rw [h, hclose]
  show Except.ok (ps ++ [], 1 + xs.length) = _
  rw [List.append_nil, Nat.add_comm]

/-- A line that ends behind a backslash goes on behind its indentation. -/
theorem IsDouble.joint (indent : Nat) :
    IsDouble ('\\' :: (newLine indent).toList) (.joint :: List.replicate indent (.bare ' ')) := by
  have hjoint : IsDouble ['\\', '\n'] [.joint] := .escape fun _ => rfl
  rw [toList_newLine]
  exact hjoint.append (.blanks indent)

/-- A blank that is hidden behind a backslash is no part of the indentation. -/
theorem IsDouble.hiddenBlank : IsDouble ['\\', ' '] [.escaped ' '] :=
  .escape fun _ => rfl

section Escapes

/-- Every letter that stands for a character is read as the character. -/
theorem lookup_letterEscapes :
    ∀ e ∈ escapeLetters, letterEscapes.lookup e.2 = some e.1 ∧ isBreak e.2 = false := by
  decide +kernel

theorem isHexDigit_toUpper : ∀ d : Nat, d < 16 → isHexDigit d.digitChar.toUpper = true := by decide

/-- A code in upper-case digits is read as the code. -/
theorem code?_upperHexadecimal {letter : Char} {width n : Nat}
    (hletter : codeWidths.lookup letter = some width) (hw : 0 < width) (hn : n < 16 ^ width)
    (rest : List Char) :
    code? (letter :: (upperHexadecimal width n).toList ++ rest) = some (n, width + 1) := by
  let ds := (upperHexadecimal width n).toList
  have hds : ds = List.replicate (width - (Nat.toDigits 16 n).length) '0'
      ++ (Nat.toDigits 16 n).map Char.toUpper := by
    simp [ds, upperHexadecimal]
  have hlength : ds.length = width := by
    have := length_padded hw hn
    rw [hds]
    simpa using this
  have hvalue : valueInBase 16 ds = n := by
    rw [hds, valueInBase_zeros]
    exact valueInBase_toDigits (by decide) Char.toUpper digitValue_upper n
  have hall : ds.all isHexDigit = true := by
    rw [List.all_eq_true]
    intro c hc
    rw [hds, List.mem_append] at hc
    rcases hc with hc | hc
    · rw [List.eq_of_mem_replicate hc]
      decide
    · obtain ⟨digit, hdigit, rfl⟩ := List.mem_map.1 hc
      obtain ⟨d, hd, rfl⟩ := exists_digit_of_mem_toDigits (by decide) hdigit
      exact isHexDigit_toUpper d hd
  have htake : (ds ++ rest).take width = ds := List.take_left' hlength
  show (codeWidths.lookup letter).bind _ = _
  rw [hletter]
  show (if ((ds ++ rest).take width).length = width && ((ds ++ rest).take width).all isHexDigit
    then some (valueInBase 16 ((ds ++ rest).take width), width + 1) else none) = _
  rw [htake, hlength, hall, hvalue]
  simp

/-- The code of a character stands for the character, whatever follows. -/
theorem coded_toNat (c : Char) (length : Nat) (rest : List Char) :
    coded c.toNat length rest = (.escaped c, length) := by
  unfold coded
  split
  · split
    · rw [isHighUnit_toNat, characterOf_toNat]
      rfl
    · rw [characterOf_toNat]
  · rw [characterOf_toNat]

/-- A character by its number is read as the character. -/
theorem IsDouble.number {letter : Char} {width : Nat} (hbreak : isBreak letter = false)
    (hlookup : letterEscapes.lookup letter = none)
    (hletter : codeWidths.lookup letter = some width) (hw : 0 < width)
    (hc : c.toNat < 16 ^ width) :
    IsDouble ('\\' :: letter :: (upperHexadecimal width c.toNat).toList) [.escaped c] := by
  have hlength : (upperHexadecimal width c.toNat).toList.length = width := by
    have := length_padded hw hc
    simpa [upperHexadecimal] using this
  have hvalid := toNat_valid c
  refine .escape fun rest => ?_
  rw [List.cons_append, readEscape, hbreak]
  simp only [Bool.false_eq_true, if_false, hlookup]
  rw [← List.cons_append, code?_upperHexadecimal hletter hw hc]
  show (if c.toNat < 0x110000 then _ else _) = _
  rw [if_pos (by omega), coded_toNat, List.length_cons, hlength]
  rfl

/-- An escape is read as the character it is written for. -/
theorem IsDouble.escapeText (c : Char) : IsDouble (escapeText c).toList [.escaped c] := by
  have hvalid := toNat_valid c
  rw [Yaml.escapeText]
  cases hlookup : escapeLetters.lookup c with
  | some letter =>
    obtain ⟨e, he, hce, rfl⟩ : ∃ e ∈ escapeLetters, e.1 = c ∧ e.2 = letter := by
      rw [List.lookup_eq_some_iff] at hlookup
      obtain ⟨xs, ys, heq, -⟩ := hlookup
      exact ⟨(c, letter), heq ▸ by simp, rfl, rfl⟩
    obtain ⟨hread, hbreak⟩ := lookup_letterEscapes e he
    show IsDouble (String.ofList ['\\', e.2]).toList _
    rw [String.toList_ofList]
    refine .escape fun rest => ?_
    rw [List.singleton_append, readEscape, hbreak]
    simp [hread, hce]
  | none =>
    show IsDouble (if c.toNat ≤ 0xff then _ else _ : String).toList _
    split
    · rw [String.toList_append]
      exact .number (by decide) (by decide) rfl (by decide) (by omega)
    · split
      · rw [String.toList_append]
        exact .number (by decide) (by decide) rfl (by decide) (by omega)
      · rw [String.toList_append]
        exact .number (by decide) (by decide) rfl (by decide) (by omega)

end Escapes

section Fold

theorem ne_of_isBareInDouble (h : isBareInDouble c = true) :
    c ≠ '"' ∧ c ≠ '\\' ∧ c ≠ '\t' ∧ isBreak c = false := by
  refine ⟨?_, ?_, ?_, ?_⟩
  · rintro rfl
    exact absurd h (by decide)
  · rintro rfl
    exact absurd h (by decide)
  · rintro rfl
    exact absurd h (by decide)
  · rw [← Bool.not_eq_true]
    intro hbreak
    simp only [isBreak, Bool.or_eq_true, decide_eq_true_eq] at hbreak
    rcases hbreak with ((rfl | rfl) | rfl) | rfl <;> exact absurd h (by decide)

/-- What is pending behind an escaped line break is nothing, and blanks would be dropped. -/
theorem foldPieces_joint (pieces : List Piece) :
    foldPieces pending (Piece.joint :: List.replicate indent (Piece.bare ' ') ++ pieces)
      = pending.flush ++ foldPieces (.breaks none []) pieces := by
  rw [List.cons_append, foldPieces, foldPieces_indentation]

/-- What is pending inside double quotes: blanks, or nothing at the head of a line that does not
start with a blank. -/
def IsPending (cs : List Char) (pending : Pending) : Prop :=
  (∃ bs, pending = .blanks bs) ∨ pending = .breaks none [] ∧ headIs (· = ' ') cs = false

/-- A character that stands for itself comes to itself. -/
theorem foldPieces_bareInDouble (hc : isBareInDouble c = true) (h : IsPending (c :: rest) pending)
    (htail : ∀ bs, foldPieces (.blanks bs) ps = bs ++ rest) :
    foldPieces pending (.bare c :: ps) = pending.flush ++ c :: rest := by
  obtain ⟨-, -, htab, hbreak⟩ := ne_of_isBareInDouble hc
  by_cases hblank : c = ' '
  · subst hblank
    rcases h with ⟨bs, rfl⟩ | ⟨rfl, hhead⟩
    · rw [foldPieces_blank, htail]
      simp [Pending.flush]
    · simp [headIs] at hhead
  · rw [foldPieces_bare hblank htab hbreak, htail, List.nil_append]

/-- The rest of a text that is not torn is not torn. -/
theorem hasNeighbours_dropLast_cons {p : Char → Char → Bool}
    (h : hasNeighbours p (c :: rest).dropLast = false) : hasNeighbours p rest.dropLast = false := by
  cases rest with
  | nil => rfl
  | cons d rest => exact (hasNeighbours_cons.1 h).2

/-- The text from a place on is not torn. -/
def IsWhole (indent : Nat) (isFirst : Bool) (cs : List Char) : Prop :=
  indent < lineWidth ∨ hasNeighbours (fun a b => !isBareInDouble a && b = ' ')
    (if isFirst then cs.drop 1 else cs).dropLast = false

theorem IsWhole.tail (h : IsWhole indent isFirst (c :: rest)) : IsWhole indent false rest := by
  refine h.imp_right fun hn => ?_
  cases isFirst with
  | true => simpa using hn
  | false => exact hasNeighbours_dropLast_cons (c := c) (by simpa using hn)

/-- A blank behind an escape with more behind it is not at the end of a line that starts beyond the
width. -/
theorem IsWhole.indent_lt {d : Char} (h : IsWhole indent false (c :: ' ' :: d :: rest))
    (hc : isBareInDouble c = false) : indent < lineWidth := by
  rcases h with h | hn
  · exact h
  · simp [hasNeighbours, hc] at hn

/-- The pieces of a part of a text in double quotes come to the text. -/
def ComesTo (cs : List Char) (pieces : List Piece) : Prop :=
  ∀ pending, IsPending cs pending → foldPieces pending pieces = pending.flush ++ cs

theorem ComesTo.blanks (h : ComesTo cs ps) (bs : List Char) :
    foldPieces (.blanks bs) ps = bs ++ cs :=
  h _ (.inl ⟨bs, rfl⟩)

theorem ComesTo.bare (hc : isBareInDouble c = true) (h : ComesTo rest ps) :
    ComesTo (c :: rest) (.bare c :: ps) :=
  fun _ hp => foldPieces_bareInDouble hc hp h.blanks

theorem ComesTo.escaped (h : ComesTo rest ps) : ComesTo (c :: rest) (.escaped c :: ps) := by
  intro pending _
  rw [foldPieces, h.blanks, List.nil_append]

/-- A line that ends is followed by an escape. -/
theorem ComesTo.jointEscaped (indent : Nat) (h : ComesTo rest ps) :
    ComesTo (c :: rest)
      (Piece.joint :: List.replicate indent (Piece.bare ' ') ++ Piece.escaped c :: ps) := by
  intro pending _
  rw [foldPieces_joint, foldPieces, h.blanks, List.nil_append]
  rfl

/-- A line that ends is followed by something other than a blank. -/
theorem ComesTo.joint (indent : Nat) (h : ComesTo cs ps) (hhead : headIs (· = ' ') cs = false) :
    ComesTo cs (Piece.joint :: List.replicate indent (Piece.bare ' ') ++ ps) := by
  intro pending _
  rw [foldPieces_joint, h _ (.inr ⟨rfl, hhead⟩)]
  rfl

/-- A blank behind a line that ended behind an escape is hidden, and the line is not ended again. -/
theorem doubleFrom_hiddenBlank {d : Char} (hwhole : IsWhole indent false (d :: ' ' :: rest))
    (hd : isBareInDouble d = false) :
    doubleFrom indent false true (indent + 1) (' ' :: rest)
      = String.singleton ' ' ++ doubleFrom indent false false (indent + 1 + 1) rest := by
  have hroom : (!rest.isEmpty && decide (lineWidth < indent + 1)) = false := by
    cases rest with
    | nil => rfl
    | cons e rest =>
      have := hwhole.indent_lt hd
      simp
      omega
  rw [doubleFrom, if_pos (by decide), if_neg]
  simpa using hroom

/-- A text in double quotes that is not torn is read as pieces that come to the text. -/
theorem exists_pieces_double (behindEscape : Bool) (column : Nat)
    (hwhole : IsWhole indent isFirst cs) :
    ∃ pieces, IsDouble (doubleFrom indent isFirst behindEscape column cs).toList pieces ∧
      ComesTo cs pieces := by
  induction hn : cs.length using Nat.strongRecOn generalizing cs isFirst behindEscape column with
  | ind n ih =>
    cases cs with
    | nil => exact ⟨[], .nil, fun pending _ => by simp [foldPieces]⟩
    | cons c rest =>
      have hjoint := IsDouble.joint indent
      have htail : ∀ (behindEscape : Bool) (column : Nat),
          ∃ ps, IsDouble (doubleFrom indent false behindEscape column rest).toList ps ∧
            ComesTo rest ps :=
        fun _ _ => ih rest.length (by simp [← hn]) _ _ hwhole.tail rfl
      rw [doubleFrom]
      by_cases hc : isBareInDouble c = true
      · obtain ⟨hquote, hslash, -, -⟩ := ne_of_isBareInDouble hc
        rw [if_pos hc]
        dsimp only
        split
        · by_cases hblank : c = ' '
          · -- the blank at which the line ends is the first character of the next one
            subst hblank
            obtain ⟨ps, hps, hcomes⟩ := htail false (indent + "\\".length + 1)
            refine ⟨_, ?_, hcomes.jointEscaped indent⟩
            simpa using (hjoint.append .hiddenBlank).append hps
          · obtain ⟨ps, hps, hcomes⟩ := htail false (indent + 0 + 1)
            refine ⟨_, ?_, (hcomes.bare hc).joint indent (by simp [headIs, hblank])⟩
            simpa [hblank] using (hjoint.append (.bare hquote hslash)).append hps
        · obtain ⟨ps, hps, hcomes⟩ := htail false (column + 1)
          rw [String.toList_append, String.toList_singleton]
          exact ⟨_, (IsDouble.bare hquote hslash).append hps, hcomes.bare hc⟩
      · have hc : isBareInDouble c = false := by simpa using hc
        have hescape := IsDouble.escapeText c
        rw [if_neg (by simp [hc])]
        dsimp only
        split
        · next hfold =>
          obtain rfl : isFirst = false := by
            cases isFirst with
            | false => rfl
            | true => simp at hfold
          by_cases hblank : headIs (· = ' ') rest = true
          · -- the blank in front of which the line ends is hidden, and the line goes on behind it
            obtain ⟨more, rfl⟩ : ∃ more, rest = ' ' :: more := by
              cases rest with
              | nil => simp [headIs] at hblank
              | cons d more => exact ⟨more, by simpa [headIs] using hblank⟩
            have hless : more.length < n := by
              rw [← hn]
              exact Nat.lt_succ_of_le (Nat.le_succ _)
            obtain ⟨ps, hps, hcomes⟩ : ∃ ps,
                IsDouble (doubleFrom indent false false (indent + 1 + 1) more).toList ps ∧
                  ComesTo more ps :=
              ih more.length hless _ _ hwhole.tail.tail rfl
            refine ⟨_, ?_, (hcomes.jointEscaped indent).escaped⟩
            rw [if_pos hblank, show indent + "\\".length = indent + 1 from rfl,
              doubleFrom_hiddenBlank hwhole hc]
            simpa using hescape.append ((hjoint.append .hiddenBlank).append hps)
          · obtain ⟨ps, hps, hcomes⟩ := htail true (indent + 0)
            refine ⟨_, ?_, (hcomes.joint indent (by simpa using hblank)).escaped⟩
            simpa [hblank] using hescape.append (hjoint.append hps)
        · obtain ⟨ps, hps, hcomes⟩ := htail true (column + (escapeText c).length)
          rw [String.toList_append]
          exact ⟨_, hescape.append hps, hcomes.escaped⟩

/-- A text that is torn is read back with a backslash and a blank too many. -/
example : (readDouble 0 ((doubleFrom 80 true true 81 "a\t b".toList).toList ++ ['"'])).toOption.map
    (fun r => folded r.1) = some ['a', '\t', '\\', ' ', ' ', 'b'] := by
  -- one line ends behind the escape, and the next one between the backslash and the blank it hides
  have hwritten : doubleFrom 80 true true 81 "a\t b".toList =
      String.singleton 'a' ++ (escapeText '\t' ++ "\\" ++ newLine 80 ++ "\\" ++
        ("\\" ++ newLine 80 ++ "\\" ++ String.singleton ' ' ++ (String.singleton 'b' ++ ""))) := rfl
  rw [hwritten]
  simp only [String.toList_append, toList_newLine]
  decide +kernel

end Fold

end VerilogLoops.Yaml
