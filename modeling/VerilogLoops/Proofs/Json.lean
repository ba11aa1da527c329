import VerilogLoops.Json.Reader
import VerilogLoops.Json.Writer
import VerilogLoops.Proofs.Numeral

/-!
# JSON texts are read as the documents they are written for

A document is *simple* if it is made of texts, whole numbers that are not too long, truth values,
lists and maps whose keys are texts. Written in any layout, it is read back.

> `read_write`: reading the JSON text of a simple document gives the document.

The reader looks at what stands behind a number, so the text behind a value is part of the statement
about the value: it goes on with a mark or a line break.
-/

namespace VerilogLoops.Document

open VerilogLoops.Number

/-- The document is made of texts and keys of two classes, whole numbers that are not too long,
truth values, lists and maps whose keys differ. -/
inductive Simple (isText isKey : String → Prop) : Data → Prop
  | null : Simple isText isKey .null
  | bool (b : Bool) : Simple isText isKey (.bool b)
  | int {i : Int} (h : i.natAbs < 10 ^ digitLimit) : Simple isText isKey (.int i)
  | text {s : String} (h : isText s) : Simple isText isKey (.text s)
  | list {items : List Data} (h : ∀ d ∈ items, Simple isText isKey d) :
    Simple isText isKey (.list items)
  | record {entries : List (String × Data)} (hd : (entries.map (·.1)).Nodup)
    (hk : ∀ e ∈ entries, isKey e.1) (h : ∀ e ∈ entries, Simple isText isKey e.2) :
    Simple isText isKey (.record entries)

/-- Entries with different texts for keys make the map that holds them. -/
theorem ofEntries_record {entries : List (String × Data)} (hd : (entries.map (·.1)).Nodup) :
    Data.ofEntries (entries.map fun e => (.text e.1, e.2)) = .record entries := by
  have add : ∀ {key : String} {value : Data} (acc : List (String × Data)),
      key ∉ acc.map (·.1) → addEntry (.text key) value (acc.map fun e => (.text e.1, e.2))
        = (acc ++ [(key, value)]).map fun e => (.text e.1, e.2) := by
    intro key value acc hnew
    induction acc with
    | nil => rfl
    | cons e acc ih =>
      simp only [List.map_cons, List.mem_cons, not_or] at hnew
      have hne : Data.sameKey (.text e.1) (.text key) = false := by
        rw [← Bool.not_eq_true, Data.sameKey_text]
        exact fun h => hnew.1 h.symm
      simp [addEntry, hne, ih hnew.2]
  have fold : ∀ (entries acc : List (String × Data)), ((acc ++ entries).map (·.1)).Nodup →
      (entries.map fun e => (Data.text e.1, e.2)).foldl (fun acc e => addEntry e.1 e.2 acc)
        (acc.map fun e => (.text e.1, e.2)) = (acc ++ entries).map fun e => (.text e.1, e.2) := by
    intro entries
    induction entries with
    | nil => simp
    | cons e entries ih =>
      intro acc hnodup
      have hnew : e.1 ∉ acc.map (·.1) := by
        rw [List.map_append, List.map_cons] at hnodup
        exact fun h => (List.nodup_append.1 hnodup).2.2 _ h _ List.mem_cons_self rfl
      rw [List.map_cons, List.foldl_cons, add acc hnew, ih (acc ++ [e]) (by simpa using hnodup)]
      simp
  rw [Data.ofEntries, Data.record]
  have := fold entries [] (by simpa using hd)
  simpa using this

end VerilogLoops.Document

namespace VerilogLoops.Json

open VerilogLoops.Document VerilogLoops.Number VerilogLoops.Text

/-! ## Strings -/

/-- The UTF-16 codes of a character. -/
def unitsOf (c : Char) : List Nat :=
  if c.toNat < 0x10000 then [c.toNat]
  else [0xd800 + (c.toNat - 0x10000) / 0x400, 0xdc00 + (c.toNat - 0x10000) % 0x400]

theorem hexDigit?_digitChar :
    ∀ d : Nat, d < 16 → hexDigit? d.digitChar = some (digitValue d.digitChar) := by
  decide

/-- A code is read back from its escape. -/
theorem exists_unitEscape {n : Nat} (h : n < 0x10000) : ∃ a b c d : Char,
    (unitEscape n).toList = ['\\', 'u', a, b, c, d] ∧ unit? a b c d = some n := by
  let ds := List.replicate (4 - (Nat.toDigits 16 n).length) '0' ++ Nat.toDigits 16 n
  have hlength : ds.length = 4 := length_padded (by decide) h
  have hvalue : valueInBase 16 ds = n := by
    have := valueInBase_toDigits (by decide : 1 < 16) id digitValue_digitChar n
    rw [valueInBase_zeros]
    rwa [List.map_id] at this
  have hdigits : ∀ c ∈ ds, hexDigit? c = some (digitValue c) := by
    intro c hc
    rcases List.mem_append.1 hc with hc | hc
    · rw [List.eq_of_mem_replicate hc]
      decide
    · obtain ⟨d, hd, rfl⟩ := exists_digit_of_mem_toDigits (by decide) hc
      exact hexDigit?_digitChar d hd
  obtain ⟨a, b, c, d, hds⟩ : ∃ a b c d, ds = [a, b, c, d] := by
    match ds, hlength with
    | [a, b, c, d], _ => exact ⟨a, b, c, d, rfl⟩
  refine ⟨a, b, c, d, ?_, ?_⟩
  · rw [← hds]
    simp [unitEscape, hexadecimal, ds]
  · simp only [hds, List.forall_mem_cons] at hdigits
    obtain ⟨ha, hb, hc, hd, -⟩ := hdigits
    rw [unit?, ha, hb, hc, hd, ← hvalue, hds]
    simp [valueInBase]

/-- An escaped code is read as the code. -/
theorem stringBody?_unitEscape {n : Nat} (h : n < 0x10000) (more : List Char) :
    stringBody? ((unitEscape n).toList ++ more)
      = (stringBody? more).map fun r => (n :: r.1, r.2) := by
  obtain ⟨a, b, c, d, hshape, hunit⟩ := exists_unitEscape h
  rw [hshape]
  simp only [List.cons_append, List.nil_append, stringBody?, hunit]
  cases stringBody? more <;> rfl

/-- A character that stands for itself is read as its code. -/
theorem stringBody?_bare {c : Char} (hl : ' ' ≤ c) (hq : c ≠ '"') (hb : c ≠ '\\')
    (more : List Char) :
    stringBody? (c :: more) = (stringBody? more).map fun r => (c.toNat :: r.1, r.2) := by
  have hcode : ¬c.toNat < 0x20 := Nat.not_lt.2 hl
  rw [stringBody?.eq_def]
  split
  · next h => cases h
  · next h =>
    cases h
    exact absurd rfl hq
  · next h =>
    cases h
    exact absurd rfl hb
  · next h =>
    cases h
    exact absurd rfl hb
  · next h =>
    cases h
    rw [if_neg (by simp [hcode, hb])]
    cases stringBody? more <;> rfl

/-- A letter behind a backslash is read as the character that it stands for. -/
theorem stringBody?_letter {l e : Char} (hl : l ≠ 'u') (he : escape? l = some e) (more : List Char) :
    stringBody? ('\\' :: l :: more) = (stringBody? more).map fun r => (e.toNat :: r.1, r.2) := by
  rw [stringBody?.eq_def]
  split
  · next h => cases h
  · next h => cases h
  · next h =>
    cases h
    exact absurd rfl hl
  · next h =>
    cases h
    rw [he]
    cases stringBody? more <;> rfl
  · next hescape h =>
    cases h
    exact absurd rfl (hescape _ _ rfl)

/-- A character is read as its codes. -/
theorem stringBody?_escaped (c : Char) (more : List Char) :
    stringBody? ((escaped c).toList ++ more)
      = (stringBody? more).map fun r => (unitsOf c ++ r.1, r.2) := by
  have letter {l e : Char} (hl : l ≠ 'u') (he : escape? l = some e) (hcode : e.toNat < 0x10000) :
      stringBody? ('\\' :: l :: more) = (stringBody? more).map fun r => (unitsOf e ++ r.1, r.2) := by
    rw [stringBody?_letter hl he, unitsOf, if_pos hcode]
    rfl
  by_cases hquote : c = '"'
  · subst hquote
    exact letter (l := '"') (by decide) rfl (by decide)
  by_cases hslash : c = '\\'
  · subst hslash
    exact letter (l := '\\') (by decide) rfl (by decide)
  by_cases hline : c = '\n'
  · subst hline
    exact letter (l := 'n') (by decide) rfl (by decide)
  by_cases hreturn : c = '\r'
  · subst hreturn
    exact letter (l := 'r') (by decide) rfl (by decide)
  by_cases htab : c = '\t'
  · subst htab
    exact letter (l := 't') (by decide) rfl (by decide)
  by_cases hback : c = '\x08'
  · subst hback
    exact letter (l := 'b') (by decide) rfl (by decide)
  by_cases hfeed : c = '\x0c'
  · subst hfeed
    exact letter (l := 'f') (by decide) rfl (by decide)
  -- any other character stands for itself, or is written as one code or as two
  rw [escaped, if_neg hquote, if_neg hslash, if_neg hline, if_neg hreturn, if_neg htab, if_neg hback,
    if_neg hfeed]
  split
  · next h =>
    simp only [Bool.and_eq_true, decide_eq_true_eq] at h
    have hcode : c.toNat < 0x10000 := Nat.lt_of_le_of_lt h.2 (by decide)
    rw [String.toList_singleton, List.singleton_append, stringBody?_bare h.1 hquote hslash, unitsOf,
      if_pos hcode]
    rfl
  split
  · next h =>
    rw [stringBody?_unitEscape h, unitsOf, if_pos h]
    rfl
  · next h =>
    have := toNat_valid c
    rw [String.toList_append, List.append_assoc, stringBody?_unitEscape (by omega),
      stringBody?_unitEscape (by omega), unitsOf, if_neg h, Option.map_map]
    rfl

/-- The codes of a character are read as the character. -/
theorem joinUnits_unitsOf (c : Char) (ns : List Nat) :
    joinUnits (unitsOf c ++ ns) = c :: joinUnits ns := by
  have hvalid := toNat_valid c
  unfold unitsOf
  split
  · cases ns with
    | nil => simp [joinUnits, characterOf_toNat]
    | cons n ns => simp [joinUnits, isHighUnit_toNat, characterOf_toNat]
  · have hhigh : isHighUnit (0xd800 + (c.toNat - 0x10000) / 0x400) = true := by
      simp [isHighUnit]
      omega
    have hlow : isLowUnit (0xdc00 + (c.toNat - 0x10000) % 0x400) = true := by
      simp [isLowUnit]
      omega
    rw [List.cons_append, List.cons_append, List.nil_append, joinUnits, hhigh, hlow,
      joinedUnits_split (by omega), Char.ofNat_toNat]
    rfl

/-- A text is read back from its string. -/
theorem string?_stringText (s : String) (behind : List Char) :
    ∃ rest, (stringText s).toList ++ behind = '"' :: rest ∧ string? rest = some (s, behind) := by
  have body : ∀ cs : List Char, stringBody? ((cs.flatMap fun c => (escaped c).toList) ++ '"' :: behind)
      = some (cs.flatMap unitsOf, behind) := by
    intro cs
    induction cs with
    | nil => rfl
    | cons c cs ih =>
      rw [List.flatMap_cons, List.append_assoc, stringBody?_escaped, ih]
      rfl
  have join : ∀ cs : List Char, joinUnits (cs.flatMap unitsOf) = cs := by
    intro cs
    induction cs with
    | nil => rfl
    | cons c cs ih => rw [List.flatMap_cons, joinUnits_unitsOf, ih]
  refine ⟨(s.toList.flatMap fun c => (escaped c).toList) ++ '"' :: behind, ?_, ?_⟩
  · simp [stringText, String.toList_join, List.flatMap_def, Function.comp_def]
  · rw [string?, body, Option.map_some, join, String.ofList_toList]

/-! ## Numbers -/

/-- The text goes on behind a value: with a mark, a line break, or not at all. -/
def EndsValue (behind : List Char) : Prop :=
  ∀ c ∈ behind.head?, c ∈ [',', '\n', ']', '\x7d']

theorem EndsValue.takeWhile {behind : List Char} (h : EndsValue behind) :
    behind.takeWhile Char.isDigit = [] := by
  cases behind with
  | nil => rfl
  | cons c behind =>
    have hno : ∀ c ∈ [',', '\n', ']', '\x7d'], c.isDigit = false := by simp [Char.isDigit]
    simp [hno c (h c rfl)]

theorem EndsValue.dropWhile {behind : List Char} (h : EndsValue behind) :
    behind.dropWhile Char.isDigit = behind := by
  cases behind with
  | nil => rfl
  | cons c behind =>
    have hno : ∀ c ∈ [',', '\n', ']', '\x7d'], c.isDigit = false := by simp [Char.isDigit]
    simp [hno c (h c rfl)]

/-- The digits of a whole number are read up to their end. -/
theorem wholeDigits?_toDigits (n : Nat) {behind : List Char} (h : EndsValue behind) :
    wholeDigits? (Nat.toDigits 10 n ++ behind) = some (Nat.toDigits 10 n, behind) := by
  rcases Nat.eq_zero_or_pos n with rfl | hpos
  · simp [wholeDigits?]
  · have hhead := head?_toDigits_ne_zero hpos
    have hdigit : ∀ c ∈ Nat.toDigits 10 n, c.isDigit = true := fun c hc =>
      Nat.isDigit_of_mem_toDigits (by decide) (by decide) hc
    have htake : (Nat.toDigits 10 n ++ behind).takeWhile Char.isDigit = Nat.toDigits 10 n := by
      rw [List.takeWhile_append_of_pos hdigit, h.takeWhile, List.append_nil]
    have hdrop : (Nat.toDigits 10 n ++ behind).dropWhile Char.isDigit = behind := by
      rw [List.dropWhile_append_of_pos hdigit, h.dropWhile]
    cases hds : Nat.toDigits 10 n with
    | nil => exact absurd hds Nat.toDigits_ne_nil
    | cons d ds =>
      rw [hds] at hhead htake hdrop
      rw [List.cons_append] at htake hdrop ⊢
      unfold wholeDigits?
      split
      · next heq =>
        cases heq
        exact absurd rfl hhead
      · rw [htake, hdrop]

/-- Behind a whole number there is neither a fraction nor an exponent. -/
theorem readMagnitude_toDigits (negative : Bool) {n : Nat} (hn : n < 10 ^ digitLimit)
    {behind : List Char} (h : EndsValue behind) :
    readMagnitude negative (Nat.toDigits 10 n ++ behind)
      = .ok (.int (signed negative n), behind) := by
  have hfraction : fractionDigits behind = ([], behind) := by
    unfold fractionDigits
    split
    · next rest => exact absurd (h '.' rfl) (by decide)
    · rfl
  have hexponent : exponentPart behind = (none, behind) := by
    cases behind with
    | nil => rfl
    | cons c behind =>
      have hno : ∀ c ∈ [',', '\n', ']', '\x7d'], ¬(c = 'e' ∨ c = 'E') := by simp
      simp [exponentPart, hno c (h c rfl)]
  have hvalue : (limitedValue (Nat.toDigits 10 n)).mapError ReadError.digitLimit = .ok n := by
    rw [limitedValue_toDigits hn]
    rfl
  simp [readMagnitude, wholeDigits?_toDigits n h, expect, bind, Except.bind, hfraction, hexponent, hvalue,
    pure, Except.pure]

/-- No name begins as a number does. -/
theorem named?_of_digit {c : Char} (h : c.isDigit = true) (cs : List Char) :
    named? (c :: cs) = none ∧ named? ('-' :: c :: cs) = none := by
  have hno : ∀ d ∈ ['n', 't', 'f', 'N', 'I', '-'], d ≠ c := by
    rintro d hd rfl
    have key : ∀ d ∈ ['n', 't', 'f', 'N', 'I', '-'], d.isDigit = false := by simp [Char.isDigit]
    rw [key d hd] at h
    cases h
  simp only [List.forall_mem_cons] at hno
  obtain ⟨hn, ht, hf, hN, hI, hminus, -⟩ := hno
  constructor <;> simp [named?, hn, ht, hf, hN, hI, hminus]

/-- The digits of a number, with or without a sign, are read as a number. -/
theorem readValue_digits (negative : Bool) {n : Nat} (hn : n < 10 ^ digitLimit)
    {behind : List Char} (h : EndsValue behind) (fuel : Nat) :
    readValue (fuel + 1) ((if negative then ['-'] else []) ++ (Nat.toDigits 10 n ++ behind))
      = .ok (.int (signed negative n), behind) := by
  obtain ⟨c, cs, hcs⟩ := List.exists_cons_of_ne_nil (Nat.toDigits_ne_nil (n := n) (b := 10))
  have hc : c.isDigit = true :=
    Nat.isDigit_of_mem_toDigits (by decide) (by decide) (hcs ▸ List.mem_cons_self)
  have hmark : ∀ d ∈ ['"', '[', '\x7b', '-'], c ≠ d := by
    rintro d hd rfl
    have key : ∀ d ∈ ['"', '[', '\x7b', '-'], d.isDigit = false := by simp [Char.isDigit]
    rw [key c hd] at hc
    cases hc
  simp only [List.forall_mem_cons] at hmark
  obtain ⟨hquote, hbracket, hbrace, hminus, -⟩ := hmark
  have hnumber := readMagnitude_toDigits negative hn h
  obtain ⟨hnamed, hnegative⟩ := named?_of_digit hc (cs ++ behind)
  rw [hcs, List.cons_append] at hnumber ⊢
  cases negative with
  | true => simp [readValue, readNumber, hnegative, hnumber]
  | false => simp [readValue, readNumber, hnamed, hquote, hbracket, hbrace, hminus, hnumber]

/-- A whole number is read back. -/
theorem readValue_int {i : Int} (hi : i.natAbs < 10 ^ digitLimit) {behind : List Char}
    (h : EndsValue behind) (fuel : Nat) :
    readValue (fuel + 1) ((toString i).toList ++ behind) = .ok (.int i, behind) := by
  cases i with
  | ofNat n =>
    have hread := readValue_digits false hi h fuel
    simpa [Int.repr, signed] using hread
  | negSucc n =>
    have htext : (toString (Int.negSucc n)).toList = '-' :: Nat.toDigits 10 (n + 1) := by
      simp [toString, Int.repr]
    rw [htext]
    exact readValue_digits true hi h fuel

/-- The text of a whole number begins with a digit or a sign. -/
theorem exists_head_toString (i : Int) :
    ∃ c cs, (toString i).toList = c :: cs ∧ isJsonBlank c = false ∧ c ≠ ']' := by
  cases i with
  | ofNat n =>
    obtain ⟨c, cs, hcs⟩ := List.exists_cons_of_ne_nil (Nat.toDigits_ne_nil (n := n) (b := 10))
    have hc : c.isDigit = true :=
      Nat.isDigit_of_mem_toDigits (by decide) (by decide) (hcs ▸ List.mem_cons_self)
    have hmark : ∀ d ∈ [' ', '\t', '\n', '\r', ']'], c ≠ d := by
      rintro d hd rfl
      have key : ∀ d ∈ [' ', '\t', '\n', '\r', ']'], d.isDigit = false := by simp [Char.isDigit]
      rw [key c hd] at hc
      cases hc
    simp only [List.forall_mem_cons] at hmark
    obtain ⟨hspace, htab, hline, hreturn, hbracket, -⟩ := hmark
    exact ⟨c, cs, by simpa [toString, Int.repr] using hcs,
      by simp [isJsonBlank, hspace, htab, hline, hreturn], hbracket⟩
  | negSucc n =>
    exact ⟨'-', Nat.toDigits 10 (n + 1), by simp [toString, Int.repr], by decide, by decide⟩

/-! ## Layout -/

@[simp]
theorem skipBlanks_lineBreak (indent : Option Int) (level : Nat) (cs : List Char) :
    skipBlanks (lineBreak indent level ++ cs) = skipBlanks cs := by
  cases indent with
  | none => rfl
  | some width =>
    have hblanks : ∀ n, skipBlanks (List.replicate n ' ' ++ cs) = skipBlanks cs := by
      intro n
      induction n with
      | zero => rfl
      | succ n ih => simpa [List.replicate_succ, skipBlanks, isJsonBlank] using ih
    simpa [lineBreak, skipBlanks, isJsonBlank] using hblanks _

theorem skipBlanks_of_head {c : Char} (h : isJsonBlank c = false) (cs : List Char) :
    skipBlanks (c :: cs) = c :: cs := by
  simp [skipBlanks, h]

/-- What closes a list or a map ends the value in front of it. -/
theorem endsValue_close (indent : Option Int) (level : Nat) {c : Char} (hc : c = ']' ∨ c = '\x7d')
    (cs : List Char) : EndsValue (lineBreak indent level ++ c :: cs) := by
  cases indent with
  | none =>
    rintro d ⟨⟩
    rcases hc with rfl | rfl <;> decide
  | some width =>
    rintro d ⟨⟩
    decide

/-- What stands between two items ends the first of them and begins with a comma, and the next item
is found behind it. -/
theorem exists_itemBreak (indent : Option Int) (level : Nat) :
    ∃ gap, itemBreak indent level = ',' :: gap ∧
      ∀ cs, skipBlanks (gap ++ cs) = skipBlanks cs := by
  cases indent with
  | none => exact ⟨[' '], rfl, fun _ => rfl⟩
  | some width => exact ⟨lineBreak (some width) level, rfl, skipBlanks_lineBreak _ _⟩

theorem endsValue_comma (cs : List Char) : EndsValue (',' :: cs) := by
  rintro d ⟨⟩
  decide

/-! ## Documents -/

variable {indent : Option Int}

theorem writeBefore_int (i : Int) (level : Nat) (behind : List Char) :
    writeBefore indent level (.int i) behind = (toString i).toList ++ behind := rfl

theorem writeBefore_text (s : String) (level : Nat) (behind : List Char) :
    writeBefore indent level (.text s) behind = (stringText s).toList ++ behind := rfl

theorem writeBefore_list {items : List Data} (h : items ≠ []) (level : Nat) (behind : List Char) :
    writeBefore indent level (.list items) behind = '[' :: (lineBreak indent (level + 1)
      ++ writeItems indent (level + 1) items (lineBreak indent level ++ ']' :: behind)) := by
  cases items with
  | nil => exact absurd rfl h
  | cons => rfl

theorem writeBefore_map {entries : List (Data × Data)} (h : entries ≠ []) (level : Nat)
    (behind : List Char) :
    writeBefore indent level (.map entries) behind = '\x7b' :: (lineBreak indent (level + 1)
      ++ writeEntries indent (level + 1) entries (lineBreak indent level ++ '\x7d' :: behind)) := by
  cases entries with
  | nil => exact absurd rfl h
  | cons => rfl

theorem writeItems_cons_cons (level : Nat) (d e : Data) (rest : List Data) (behind : List Char) :
    writeItems indent level (d :: e :: rest) behind = writeBefore indent level d
      (itemBreak indent level ++ writeItems indent level (e :: rest) behind) := by
  rw [writeItems]
  simp

theorem writeEntries_singleton (level : Nat) (name : String) (d : Data) (behind : List Char) :
    writeEntries indent level [(.text name, d)] behind =
      (stringText name).toList ++ ':' :: ' ' :: writeBefore indent level d behind := by
  rw [writeEntries]
  simp [keyText]

theorem writeEntries_cons_cons (level : Nat) (name : String) (d : Data) (e : Data × Data)
    (rest : List (Data × Data)) (behind : List Char) :
    writeEntries indent level ((.text name, d) :: e :: rest) behind =
      (stringText name).toList ++ ':' :: ' ' :: writeBefore indent level d
        (itemBreak indent level ++ writeEntries indent level (e :: rest) behind) := by
  rw [writeEntries]
  simp [keyText]

/-- The text of the document begins with a character that neither is blank nor closes a list, and
there is something of it in front of the text behind. -/
structure IsWritten (indent : Option Int) (d : Data) : Prop where
  head : ∀ level behind, ∃ c cs, writeBefore indent level d behind = c :: cs ∧
    isJsonBlank c = false ∧ c ≠ ']'
  length : ∀ level behind, behind.length < (writeBefore indent level d behind).length

theorem IsWritten.skipBlanks {d : Data} (h : IsWritten indent d) (level : Nat)
    (behind : List Char) :
    skipBlanks (writeBefore indent level d behind) = writeBefore indent level d behind := by
  obtain ⟨c, cs, hcs, hc, -⟩ := h.head level behind
  rw [hcs]
  exact skipBlanks_of_head hc cs

theorem length_writeItems (level : Nat) (behind : List Char) : ∀ items : List Data,
    (∀ d ∈ items, IsWritten indent d) →
      behind.length ≤ (writeItems indent level items behind).length
  | [], _ => by simp [writeItems]
  | [d], h => Nat.le_of_lt ((h d List.mem_cons_self).length level behind)
  | d :: e :: rest, h => by
    have hrest := length_writeItems level behind (e :: rest)
      fun d hd => h d (List.mem_cons_of_mem _ hd)
    have hd := (h d List.mem_cons_self).length level
      (itemBreak indent level ++ writeItems indent level (e :: rest) behind)
    rw [List.length_append] at hd
    rw [writeItems_cons_cons]
    omega

theorem length_writeEntries (level : Nat) (behind : List Char) :
    ∀ entries : List (String × Data), (∀ e ∈ entries, IsWritten indent e.2) →
      behind.length ≤
        (writeEntries indent level (entries.map fun e => (.text e.1, e.2)) behind).length
  | [], _ => by simp [writeEntries]
  | [e], h => by
    have he := (h e List.mem_cons_self).length level behind
    rw [List.map_singleton, writeEntries_singleton, List.length_append, List.length_cons,
      List.length_cons]
    omega
  | e :: f :: rest, h => by
    have hrest := length_writeEntries level behind (f :: rest)
      fun d hd => h d (List.mem_cons_of_mem _ hd)
    have he := (h e List.mem_cons_self).length level (itemBreak indent level
      ++ writeEntries indent level ((f :: rest).map fun e => (.text e.1, e.2)) behind)
    rw [List.length_append] at he
    rw [List.map_cons, List.map_cons, writeEntries_cons_cons, List.length_append, List.length_cons,
      List.length_cons, ← List.map_cons (f := fun e : String × Data => (Data.text e.1, e.2))]
    omega

theorem exists_stringText (s : String) (behind : List Char) :
    ∃ cs, (stringText s).toList ++ behind = '"' :: cs ∧ behind.length ≤ cs.length :=
  ⟨_, by simp [stringText]; rfl, by simp; omega⟩

/-- The first key of a map begins its text. -/
theorem exists_writeEntries (level : Nat) (e : String × Data) (entries : List (String × Data))
    (behind : List Char) :
    ∃ cs, writeEntries indent level ((e :: entries).map fun e => (.text e.1, e.2)) behind
      = '"' :: cs := by
  rw [List.map_cons, writeEntries]
  obtain ⟨cs, hcs, -⟩ := exists_stringText (keyText (.text e.1)) _
  exact ⟨cs, hcs⟩

theorem skipBlanks_writeEntries (level : Nat) (e : String × Data) (entries : List (String × Data))
    (behind : List Char) :
    skipBlanks (writeEntries indent level ((e :: entries).map fun e => (.text e.1, e.2)) behind)
      = writeEntries indent level ((e :: entries).map fun e => (.text e.1, e.2)) behind := by
  obtain ⟨cs, hcs⟩ := exists_writeEntries level e entries behind
  rw [hcs]
  exact skipBlanks_of_head (by decide) cs

theorem isWritten_list {items : List Data} (h : ∀ d ∈ items, IsWritten indent d) :
    IsWritten indent (.list items) := by
  by_cases hne : items = []
  · subst hne
    refine ⟨fun _ _ => ⟨_, _, rfl, by decide, by decide⟩, fun _ behind => ?_⟩
    show behind.length < behind.length + 2
    omega
  · refine ⟨fun _ _ => ⟨_, _, writeBefore_list hne _ _, by decide, by decide⟩,
      fun level behind => ?_⟩
    have := length_writeItems (level + 1) (lineBreak indent level ++ ']' :: behind) items h
    rw [List.length_append, List.length_cons] at this
    rw [writeBefore_list hne, List.length_cons, List.length_append]
    omega

theorem isWritten_record {entries : List (String × Data)}
    (h : ∀ e ∈ entries, IsWritten indent e.2) : IsWritten indent (.record entries) := by
  by_cases hne : entries = []
  · subst hne
    refine ⟨fun _ _ => ⟨_, _, rfl, by decide, by decide⟩, fun _ behind => ?_⟩
    show behind.length < behind.length + 2
    omega
  · have hne : entries.map (fun e => (Data.text e.1, e.2)) ≠ [] := by simpa using hne
    refine ⟨fun _ _ => ⟨_, _, writeBefore_map hne _ _, by decide, by decide⟩,
      fun level behind => ?_⟩
    have := length_writeEntries (level + 1) (lineBreak indent level ++ '\x7d' :: behind) entries h
    rw [List.length_append, List.length_cons] at this
    rw [Data.record, writeBefore_map hne, List.length_cons, List.length_append]
    omega

/-- Simple documents are written. -/
theorem isWritten_of_simple {isText isKey : String → Prop} {d : Data}
    (h : Simple isText isKey d) : IsWritten indent d := by
  have short : ∀ {t : String} {behind : List Char}, 0 < t.toList.length →
      behind.length < (t.toList ++ behind).length := by
    intro t behind ht
    rw [List.length_append]
    omega
  induction h with
  | null => exact ⟨fun _ _ => ⟨_, _, rfl, by decide, by decide⟩, fun _ _ => short (by decide)⟩
  | bool b =>
    refine ⟨fun _ _ => ?_, fun _ _ => short ?_⟩
    · cases b <;> exact ⟨_, _, rfl, by decide, by decide⟩
    · cases b <;> decide
  | @int i _ =>
    obtain ⟨c, cs, hcs, hc⟩ := exists_head_toString i
    refine ⟨fun _ _ => ⟨c, _, by rw [writeBefore_int, hcs]; rfl, hc⟩, fun _ _ => short ?_⟩
    rw [hcs]
    exact Nat.succ_pos _
  | @text s _ =>
    refine ⟨fun _ behind => ?_, fun _ behind => ?_⟩ <;>
      obtain ⟨cs, hcs, hlength⟩ := exists_stringText s behind <;> rw [writeBefore_text, hcs]
    · exact ⟨_, _, rfl, by decide, by decide⟩
    · exact Nat.lt_succ_of_le hlength
  | list _ ih => exact isWritten_list ih
  | record _ _ _ ih => exact isWritten_record ih

/-! ## Reading documents -/

/-- Written in front of any text that ends it, the document is read and the text is left. Two steps
for each character are enough. -/
def IsRead (indent : Option Int) (d : Data) : Prop :=
  ∀ level fuel behind, EndsValue behind →
    2 * (writeBefore indent level d behind).length ≤ fuel + 2 * behind.length →
      readValue fuel (writeBefore indent level d behind) = .ok (d, behind)

theorem readItems_last {fuel : Nat} {cs rest after : List Char} {d : Data}
    (h : readValue fuel cs = .ok (d, rest)) (hrest : skipBlanks rest = ']' :: after) :
    readItems (fuel + 1) cs = .ok ([d], after) := by
  rw [readItems, h]
  simp [bind, Except.bind, hrest, pure, Except.pure]

theorem readItems_more {fuel : Nat} {cs rest more after : List Char} {d : Data} {items : List Data}
    (h : readValue fuel cs = .ok (d, rest)) (hrest : skipBlanks rest = ',' :: more)
    (hmore : readItems fuel (skipBlanks more) = .ok (items, after)) :
    readItems (fuel + 1) cs = .ok (d :: items, after) := by
  rw [readItems, h]
  simp [bind, Except.bind, hrest, hmore, pure, Except.pure]

theorem readEntries_last {fuel : Nat} {cs more rest after : List Char} {key : String} {d : Data}
    (hkey : string? cs = some (key, ':' :: ' ' :: more)) (hmore : skipBlanks more = more)
    (h : readValue fuel more = .ok (d, rest)) (hrest : skipBlanks rest = '\x7d' :: after) :
    readEntries (fuel + 1) ('"' :: cs) = .ok ([(.text key, d)], after) := by
  have hcolon : skipBlanks (':' :: ' ' :: more) = ':' :: ' ' :: more :=
    skipBlanks_of_head (by decide) _
  have hvalue : skipBlanks (' ' :: more) = more := hmore
  simp [readEntries, hkey, expect, bind, Except.bind, hcolon, hvalue, h, hrest, pure, Except.pure]

theorem readEntries_more {fuel : Nat} {cs more rest next after : List Char} {key : String}
    {d : Data} {entries : List (Data × Data)}
    (hkey : string? cs = some (key, ':' :: ' ' :: more)) (hmore : skipBlanks more = more)
    (h : readValue fuel more = .ok (d, rest)) (hrest : skipBlanks rest = ',' :: next)
    (hnext : readEntries fuel (skipBlanks next) = .ok (entries, after)) :
    readEntries (fuel + 1) ('"' :: cs) = .ok ((.text key, d) :: entries, after) := by
  have hcolon : skipBlanks (':' :: ' ' :: more) = ':' :: ' ' :: more :=
    skipBlanks_of_head (by decide) _
  have hvalue : skipBlanks (' ' :: more) = more := hmore
  simp [readEntries, hkey, expect, bind, Except.bind, hcolon, hvalue, h, hrest, hnext, pure, Except.pure]

/-- The items of a list are read up to the bracket. -/
theorem readItems_write {level outer : Nat} {after : List Char} : ∀ (items : List Data) {fuel : Nat},
    items ≠ [] → (∀ d ∈ items, IsWritten indent d) → (∀ d ∈ items, IsRead indent d) →
    2 * (writeItems indent level items (lineBreak indent outer ++ ']' :: after)).length + 1
      ≤ fuel + 2 * (lineBreak indent outer ++ ']' :: after).length →
    readItems fuel (writeItems indent level items (lineBreak indent outer ++ ']' :: after))
      = .ok (items, after)
  | [], _, hne, _, _, _ => absurd rfl hne
  | [d], fuel, _, hw, hr, hfuel => by
    have hd := (hw d List.mem_cons_self).length level (lineBreak indent outer ++ ']' :: after)
    simp only [writeItems, List.isEmpty_nil, ↓reduceIte] at hfuel ⊢
    obtain ⟨fuel, rfl⟩ : ∃ f, fuel = f + 1 := ⟨fuel - 1, by omega⟩
    have hclose := endsValue_close indent outer (Or.inl rfl) after
    refine readItems_last (hr d List.mem_cons_self _ _ _ hclose (by omega)) ?_
    rw [skipBlanks_lineBreak]
    exact skipBlanks_of_head (by decide) _
  | d :: e :: rest, fuel, _, hw, hr, hfuel => by
    have hw' := fun d hd => hw d (List.mem_cons_of_mem _ hd)
    have hlength := length_writeItems level (lineBreak indent outer ++ ']' :: after) (e :: rest) hw'
    obtain ⟨gap, hgap, hskip⟩ := exists_itemBreak indent level
    rw [writeItems_cons_cons, hgap, List.cons_append] at hfuel ⊢
    have hd := (hw d List.mem_cons_self).length level (',' :: (gap ++ writeItems indent level
      (e :: rest) (lineBreak indent outer ++ ']' :: after)))
    rw [List.length_cons, List.length_append] at hd
    obtain ⟨fuel, rfl⟩ : ∃ f, fuel = f + 1 := ⟨fuel - 1, by omega⟩
    refine readItems_more (hr d List.mem_cons_self _ _ _ (endsValue_comma _) ?_)
      (skipBlanks_of_head (by decide) _) ?_
    · rw [List.length_cons, List.length_append]
      omega
    · have hhead : skipBlanks (writeItems indent level (e :: rest)
          (lineBreak indent outer ++ ']' :: after)) = _ := (hw e (by simp)).skipBlanks _ _
      rw [hskip, hhead]
      exact readItems_write (e :: rest) (List.cons_ne_nil _ _) hw'
        (fun d hd => hr d (List.mem_cons_of_mem _ hd)) (by omega)

/-- The entries of a map are read up to the brace. -/
theorem readEntries_write {level outer : Nat} {after : List Char} (entries : List (String × Data))
    {fuel : Nat} (hne : entries ≠ []) (hw : ∀ e ∈ entries, IsWritten indent e.2)
    (hr : ∀ e ∈ entries, IsRead indent e.2)
    (hfuel : 2 * (writeEntries indent level (entries.map fun e => (.text e.1, e.2))
        (lineBreak indent outer ++ '\x7d' :: after)).length + 1
      ≤ fuel + 2 * (lineBreak indent outer ++ '\x7d' :: after).length) :
    readEntries fuel (writeEntries indent level (entries.map fun e => (.text e.1, e.2))
        (lineBreak indent outer ++ '\x7d' :: after))
      = .ok (entries.map fun e => (.text e.1, e.2), after) := by
  induction entries generalizing fuel with
  | nil => exact absurd rfl hne
  | cons e rest ih =>
    -- the last entry is followed by the brace, any other one by a comma
    cases rest with
    | nil =>
      have he := (hw e List.mem_cons_self).length level (lineBreak indent outer ++ '\x7d' :: after)
      rw [List.map_singleton, writeEntries_singleton] at hfuel ⊢
      rw [List.length_append, List.length_cons, List.length_cons] at hfuel
      obtain ⟨fuel, rfl⟩ : ∃ f, fuel = f + 1 := ⟨fuel - 1, by omega⟩
      obtain ⟨cs, hcs, hkey⟩ := string?_stringText e.1
        (':' :: ' ' :: writeBefore indent level e.2 (lineBreak indent outer ++ '\x7d' :: after))
      have hclose := endsValue_close indent outer (Or.inr rfl) after
      rw [hcs]
      refine readEntries_last hkey ((hw e List.mem_cons_self).skipBlanks _ _)
        (hr e List.mem_cons_self _ _ _ hclose (by omega)) ?_
      rw [skipBlanks_lineBreak]
      exact skipBlanks_of_head (by decide) _
    | cons f rest =>
      have hw' := fun d hd => hw d (List.mem_cons_of_mem _ hd)
      have hlength := length_writeEntries level (lineBreak indent outer ++ '\x7d' :: after)
        (f :: rest) hw'
      obtain ⟨gap, hgap, hskip⟩ := exists_itemBreak indent level
      rw [List.map_cons, List.map_cons, writeEntries_cons_cons, hgap, List.cons_append,
        ← List.map_cons (f := fun e : String × Data => (Data.text e.1, e.2))] at hfuel ⊢
      have he := (hw e List.mem_cons_self).length level (',' :: (gap ++ writeEntries indent level
        ((f :: rest).map fun e => (.text e.1, e.2)) (lineBreak indent outer ++ '\x7d' :: after)))
      rw [List.length_append, List.length_cons, List.length_cons] at hfuel
      rw [List.length_cons, List.length_append] at he
      obtain ⟨fuel, rfl⟩ : ∃ f, fuel = f + 1 := ⟨fuel - 1, by omega⟩
      obtain ⟨cs, hcs, hkey⟩ := string?_stringText e.1
        (':' :: ' ' :: writeBefore indent level e.2 (',' :: (gap ++ writeEntries indent level
          ((f :: rest).map fun e => (.text e.1, e.2)) (lineBreak indent outer ++ '\x7d' :: after))))
      rw [hcs]
      refine readEntries_more hkey ((hw e List.mem_cons_self).skipBlanks _ _)
        (hr e List.mem_cons_self _ _ _ (endsValue_comma _) ?_) (skipBlanks_of_head (by decide) _) ?_
      · rw [List.length_cons, List.length_append]
        omega
      · rw [hskip, skipBlanks_writeEntries]
        exact ih (List.cons_ne_nil _ _) hw' (fun d hd => hr d (List.mem_cons_of_mem _ hd)) (by omega)

/-- What is written takes at least one step to read. -/
theorem IsWritten.isRead {d : Data} (h : IsWritten indent d)
    (hr : ∀ level fuel behind, EndsValue behind →
      2 * (writeBefore indent level d behind).length ≤ fuel + 1 + 2 * behind.length →
      readValue (fuel + 1) (writeBefore indent level d behind) = .ok (d, behind)) :
    IsRead indent d := by
  intro level fuel behind hbehind hfuel
  have hlength := h.length level behind
  obtain ⟨fuel, rfl⟩ : ∃ f, fuel = f + 1 := ⟨fuel - 1, by omega⟩
  exact hr level fuel behind hbehind hfuel

theorem readValue_list {fuel : Nat} {cs rest after : List Char} {c : Char} {items : List Data}
    (hcs : skipBlanks cs = c :: rest) (hc : c ≠ ']')
    (h : readItems fuel (c :: rest) = .ok (items, after)) :
    readValue (fuel + 1) ('[' :: cs) = .ok (.list items, after) := by
  simp [readValue, hcs, hc, h, bind, Except.bind, pure, Except.pure]

theorem readValue_map {fuel : Nat} {cs rest after : List Char} {entries : List (Data × Data)}
    (hcs : skipBlanks cs = '"' :: rest)
    (h : readEntries fuel ('"' :: rest) = .ok (entries, after)) :
    readValue (fuel + 1) ('\x7b' :: cs) = .ok (.ofEntries entries, after) := by
  simp [readValue, hcs, h, bind, Except.bind, pure, Except.pure]

/-- A list is read where it is written, if its items are. -/
theorem isRead_list {items : List Data} (hw : ∀ d ∈ items, IsWritten indent d)
    (hr : ∀ d ∈ items, IsRead indent d) : IsRead indent (.list items) := by
  refine (isWritten_list hw).isRead fun level fuel behind _ hfuel => ?_
  cases items with
  | nil => rfl
  | cons d items =>
    have hne := List.cons_ne_nil d items
    rw [writeBefore_list hne] at hfuel ⊢
    rw [List.length_cons, List.length_append] at hfuel
    obtain ⟨c, cs, hcs, hblank, hc⟩ := (hw d List.mem_cons_self).head (level + 1)
      (if items.isEmpty then lineBreak indent level ++ ']' :: behind else
        itemBreak indent (level + 1) ++ writeItems indent (level + 1) items
          (lineBreak indent level ++ ']' :: behind))
    have hwrite : writeItems indent (level + 1) (d :: items)
        (lineBreak indent level ++ ']' :: behind) = c :: cs := by rw [writeItems, hcs]
    have hread : readItems fuel (writeItems indent (level + 1) (d :: items)
        (lineBreak indent level ++ ']' :: behind)) = .ok (d :: items, behind) := by
      refine readItems_write (d :: items) hne hw hr ?_
      rw [List.length_append, List.length_cons]
      omega
    rw [hwrite] at hread
    refine readValue_list ?_ hc hread
    rw [skipBlanks_lineBreak, hwrite]
    exact skipBlanks_of_head hblank cs

/-- A map is read where it is written, if its entries are. -/
theorem isRead_record {entries : List (String × Data)} (hd : (entries.map (·.1)).Nodup)
    (hw : ∀ e ∈ entries, IsWritten indent e.2) (hr : ∀ e ∈ entries, IsRead indent e.2) :
    IsRead indent (.record entries) := by
  refine (isWritten_record hw).isRead fun level fuel behind _ hfuel => ?_
  cases entries with
  | nil => rfl
  | cons e entries =>
    rw [Data.record, writeBefore_map (by simp)] at hfuel ⊢
    rw [List.length_cons, List.length_append] at hfuel
    obtain ⟨cs, hcs⟩ := exists_writeEntries (level + 1) e entries
      (lineBreak indent level ++ '\x7d' :: behind)
    have hread : readEntries fuel (writeEntries indent (level + 1)
        ((e :: entries).map fun e => (.text e.1, e.2))
        (lineBreak indent level ++ '\x7d' :: behind))
        = .ok ((e :: entries).map fun e => (.text e.1, e.2), behind) := by
      refine readEntries_write (e :: entries) (List.cons_ne_nil e entries) hw hr ?_
      rw [List.length_append, List.length_cons]
      omega
    have hmap := ofEntries_record hd
    rw [Data.record] at hmap
    rw [← hmap]
    refine readValue_map ?_ (hcs ▸ hread)
    rw [skipBlanks_lineBreak, skipBlanks_writeEntries, hcs]

/-- Simple documents are read where they are written. -/
theorem isRead_of_simple {isText isKey : String → Prop} {d : Data}
    (h : Simple isText isKey d) : IsRead indent d := by
  have hwritten := @isWritten_of_simple indent isText isKey
  induction h with
  | null => exact (hwritten .null).isRead fun _ _ _ _ _ => rfl
  | bool b => exact (hwritten (.bool b)).isRead fun _ _ _ _ _ => by cases b <;> rfl
  | @int i hi =>
    refine (hwritten (.int hi)).isRead fun _ fuel behind hbehind _ => ?_
    exact readValue_int hi hbehind fuel
  | @text s hs =>
    refine (hwritten (.text hs)).isRead fun _ _ behind _ _ => ?_
    obtain ⟨rest, hrest, hread⟩ := string?_stringText s behind
    rw [writeBefore_text, hrest]
    simp [readValue, hread, expect, bind, Except.bind, pure, Except.pure]
  | list hitems ih => exact isRead_list (fun d hd => hwritten (hitems d hd)) ih
  | record hd _ hentries ih =>
    exact isRead_record hd (fun e he => hwritten (hentries e he)) ih

/-- Reading the text of a simple document, written in any layout, gives the document. -/
theorem read_write {isText isKey : String → Prop} {d : Data} (h : Simple isText isKey d)
    (indent : Option Int) : read (write indent d) = .ok d := by
  have hread : readValue (2 * (writeBefore indent 0 d []).length + 2) (writeBefore indent 0 d [])
      = .ok (d, []) :=
    isRead_of_simple h _ _ _ (by rintro c ⟨⟩) (by simp)
  simp only [read, write, String.toList_ofList, (isWritten_of_simple h).skipBlanks, hread, bind,
    Except.bind]
  rfl

end VerilogLoops.Json
