import VerilogLoops.Proofs.Json
import VerilogLoops.Proofs.Yaml.Number

/-!
# What is written may stand in a YAML text

A document is written in front of whatever text follows it, and without a character that a reader
refuses or takes for another one.

> `isInked_of_simple`: this holds of every simple document whose texts have no separators.
-/

namespace VerilogLoops.Yaml

open VerilogLoops.Document VerilogLoops.Number

/-- A character that is read as itself. -/
def isFit (c : Char) : Bool :=
  isAcceptable c && c ≠ '\r' && c ≠ '\x85'

variable {indent column : Nat} {previous : Option Char} {c : Char} {cs : List Char}

theorem isFit_of_isSpecial (hspecial : isSpecial c = false) (hseparator : isSeparator c = false) :
    isFit c = true := by
  have hreturn : c ≠ '\r' := by
    rintro rfl
    exact absurd hspecial (by decide)
  have hnext : c ≠ '\x85' := by
    rintro rfl
    exact absurd hseparator (by decide)
  have hacceptable : isAcceptable c = true := by
    simp only [isSpecial, Bool.not_eq_false', Bool.or_eq_true] at hspecial
    simp only [isAcceptable, Bool.or_eq_true]
    rcases hspecial with (hline | hvisible) | hwide
    · exact .inl (.inl (.inl (.inl (.inl (.inr hline)))))
    · exact .inl (.inl (.inl (.inr hvisible)))
    · exact .inl (.inl (.inr hwide))
  simp [isFit, hacceptable, hreturn, hnext]

theorem isFit_of_isBareInDouble (h : isBareInDouble c = true) : isFit c = true := by
  have hne : ∀ d, isBareInDouble d = false → c ≠ d := by
    rintro d hd rfl
    rw [h] at hd
    cases hd
  have hacceptable : isAcceptable c = true := by
    simp only [isBareInDouble, Bool.or_eq_true, Bool.and_eq_true] at h
    simp only [isAcceptable, Bool.or_eq_true, Bool.and_eq_true]
    rcases h with ⟨⟨hvisible, -⟩, -⟩ | ⟨⟨hwide, -⟩, -⟩
    · exact .inl (.inl (.inl (.inr hvisible)))
    · exact .inl (.inl (.inr hwide))
  simp [isFit, hacceptable, hne '\r' (by decide), hne '\x85' (by decide)]

/-- Every character of a text is read as itself. -/
def AllFit (cs : List Char) : Prop :=
  ∀ c ∈ cs, isFit c = true

theorem allFit_nil : AllFit [] := by
  simp [AllFit]

theorem allFit_cons : AllFit (c :: cs) ↔ isFit c = true ∧ AllFit cs := by
  simp [AllFit]

theorem allFit_append {xs ys : List Char} : AllFit (xs ++ ys) ↔ AllFit xs ∧ AllFit ys := by
  simp only [AllFit, List.mem_append, or_imp, forall_and]

theorem allFit_blanks (n : Nat) : AllFit (List.replicate n ' ') := by
  intro c hc
  rw [List.eq_of_mem_replicate hc]
  decide

theorem allFit_lineBreak (n : Nat) : AllFit (lineBreak n) :=
  allFit_cons.2 ⟨by decide, allFit_blanks n⟩

theorem allFit_newLine (n : Nat) : AllFit (newLine n).toList := by
  rw [toList_newLine]
  exact allFit_lineBreak n

theorem allFit_plainFrom (h : AllFit cs) : AllFit (plainFrom indent column previous cs).toList := by
  induction cs generalizing column previous with
  | nil => exact allFit_nil
  | cons c rest ih =>
    obtain ⟨hc, hrest⟩ := allFit_cons.1 h
    rw [plainFrom]
    split
    · rw [String.toList_append]
      exact allFit_append.2 ⟨allFit_newLine indent, ih hrest⟩
    · rw [String.toList_append, String.toList_singleton]
      exact allFit_cons.2 ⟨hc, ih hrest⟩

theorem allFit_singleFrom (h : AllFit cs) :
    AllFit (singleFrom indent column previous cs).toList := by
  induction cs generalizing column previous with
  | nil => exact allFit_nil
  | cons c rest ih =>
    obtain ⟨hc, hrest⟩ := allFit_cons.1 h
    rw [singleFrom]
    split
    · rw [String.toList_append]
      exact allFit_append.2 ⟨allFit_newLine indent, ih hrest⟩
    · split
      · rw [String.toList_append]
        exact allFit_append.2 ⟨allFit_cons.2 ⟨by decide, allFit_cons.2 ⟨by decide, allFit_nil⟩⟩, ih hrest⟩
      · split
        · rw [String.toList_append, String.toList_append, String.toList_singleton]
          refine allFit_append.2 ⟨allFit_append.2 ⟨?_, allFit_cons.2 ⟨hc, allFit_nil⟩⟩, ?_⟩
          · split
            · exact allFit_cons.2 ⟨by decide, allFit_nil⟩
            · exact allFit_nil
          · split
            · exact ih hrest
            · rw [String.toList_append, String.toList_ofList]
              exact allFit_append.2 ⟨allFit_blanks indent, ih hrest⟩
        · rw [String.toList_append, String.toList_singleton]
          exact allFit_cons.2 ⟨hc, ih hrest⟩

/-- An upper-case hexadecimal digit is read as itself. -/
theorem isFit_toUpper : ∀ d : Nat, d < 16 → isFit d.digitChar.toUpper = true := by decide

theorem allFit_upperHexadecimal (width n : Nat) : AllFit (upperHexadecimal width n).toList := by
  rw [upperHexadecimal, String.toList_ofList]
  refine allFit_append.2 ⟨?_, ?_⟩
  · intro c hc
    rw [List.eq_of_mem_replicate hc]
    decide
  · intro c hc
    obtain ⟨digit, hdigit, rfl⟩ := List.mem_map.1 hc
    obtain ⟨d, hd, rfl⟩ := exists_digit_of_mem_toDigits (by decide) hdigit
    exact isFit_toUpper d hd

theorem allFit_escapeText (c : Char) : AllFit (escapeText c).toList := by
  have hletters : escapeLetters.all (fun e => isFit e.2) = true := by decide
  unfold escapeText
  split
  · next letter hlookup =>
    obtain ⟨xs, ys, heq, -⟩ := List.lookup_eq_some_iff.1 hlookup
    have hletter := List.all_eq_true.1 hletters (c, letter) (heq ▸ by simp)
    rw [String.toList_ofList]
    exact allFit_cons.2 ⟨by decide, allFit_cons.2 ⟨hletter, allFit_nil⟩⟩
  · split
    · rw [String.toList_append]
      exact allFit_append.2 ⟨allFit_cons.2 ⟨by decide, allFit_cons.2 ⟨by decide, allFit_nil⟩⟩,
        allFit_upperHexadecimal _ _⟩
    · split
      · rw [String.toList_append]
        exact allFit_append.2 ⟨allFit_cons.2 ⟨by decide, allFit_cons.2 ⟨by decide, allFit_nil⟩⟩,
          allFit_upperHexadecimal _ _⟩
      · rw [String.toList_append]
        exact allFit_append.2 ⟨allFit_cons.2 ⟨by decide, allFit_cons.2 ⟨by decide, allFit_nil⟩⟩,
          allFit_upperHexadecimal _ _⟩

theorem allFit_doubleFrom {isFirst behindEscape : Bool} :
    AllFit (doubleFrom indent isFirst behindEscape column cs).toList := by
  have hslash : AllFit "\\".toList := by
    intro c hc
    rw [show "\\".toList = ['\\'] by decide, List.mem_singleton] at hc
    rw [hc]
    decide
  have hhidden : ∀ b : Bool, AllFit (if b = true then "\\" else "").toList := by
    intro b
    cases b
    · exact allFit_nil
    · exact hslash
  induction cs generalizing isFirst behindEscape column with
  | nil => exact allFit_nil
  | cons c rest ih =>
    rw [doubleFrom]
    dsimp only
    -- a bare character or an escape, with the end of a line in front of it, behind it, or neither
    split
    · next hbare =>
      have hc : AllFit (String.singleton c).toList := by
        rw [String.toList_singleton]
        exact allFit_cons.2 ⟨isFit_of_isBareInDouble hbare, allFit_nil⟩
      split
      · simp only [String.toList_append]
        refine allFit_append.2 ⟨allFit_append.2 ⟨allFit_append.2 ⟨allFit_append.2 ⟨hslash, allFit_newLine indent⟩, ?_⟩, hc⟩, ih⟩
        by_cases hblank : c = ' '
        · rw [if_pos hblank]
          exact hslash
        · rw [if_neg hblank]
          exact allFit_nil
      · rw [String.toList_append]
        exact allFit_append.2 ⟨hc, ih⟩
    · split
      · simp only [String.toList_append]
        exact allFit_append.2 ⟨allFit_append.2 ⟨allFit_append.2 ⟨allFit_append.2 ⟨allFit_escapeText c, hslash⟩,
          allFit_newLine indent⟩, hhidden _⟩, ih⟩
      · rw [String.toList_append]
        exact allFit_append.2 ⟨allFit_escapeText c, ih⟩

/-- A text without separators is written with characters that are read as themselves. -/
theorem allFit_scalarText {s : String} (hs : ∀ c ∈ s.toList, isSeparator c = false) :
    AllFit (scalarText indent column s).toList := by
  have hsingle : allowsSingle s.toList = true → AllFit s.toList := by
    intro h c hc
    simp only [allowsSingle, Bool.and_eq_true, Bool.not_eq_true', List.any_eq_false] at h
    exact isFit_of_isSpecial (by simpa using h.1 c hc) (hs c hc)
  have hquote : AllFit "'".toList := allFit_cons.2 ⟨by decide, allFit_nil⟩
  have hdouble : AllFit "\"".toList := allFit_cons.2 ⟨by decide, allFit_nil⟩
  rw [scalarText]
  cases hstyle : styleOf s.toList with
  | plain =>
    simp only [styleOf] at hstyle
    split at hstyle
    · next hplain =>
      simp only [allowsPlain, Bool.and_eq_true] at hplain
      exact allFit_plainFrom (hsingle hplain.2.1.1.1.1)
    · split at hstyle <;> cases hstyle
  | single =>
    simp only [styleOf] at hstyle
    split at hstyle
    · cases hstyle
    · split at hstyle
      · next h =>
        simp only [String.toList_append]
        exact allFit_append.2 ⟨allFit_append.2 ⟨hquote, allFit_singleFrom (hsingle h)⟩, hquote⟩
      · cases hstyle
  | double =>
    simp only [String.toList_append]
    exact allFit_append.2 ⟨allFit_append.2 ⟨hdouble, allFit_doubleFrom⟩, hdouble⟩

/-! ## Documents -/

/-- Something is written in front of any text, with characters that are read as themselves. -/
def IsInk (write : List Char → List Char) : Prop :=
  ∃ text, AllFit text ∧ ∀ behind, write behind = text ++ behind

theorem IsInk.of_text {text : List Char} (h : AllFit text) : IsInk (text ++ ·) :=
  ⟨text, h, fun _ => rfl⟩

theorem IsInk.comp {first second : List Char → List Char} (hfirst : IsInk first)
    (hsecond : IsInk second) : IsInk fun behind => first (second behind) := by
  obtain ⟨xs, hxs, hfirst⟩ := hfirst
  obtain ⟨ys, hys, hsecond⟩ := hsecond
  refine ⟨xs ++ ys, allFit_append.2 ⟨hxs, hys⟩, fun behind => ?_⟩
  show first (second behind) = _
  rw [hfirst, hsecond, List.append_assoc]

theorem IsInk.behindBlank {write : List Char → List Char} (h : IsInk write) :
    IsInk fun behind => ' ' :: write behind := by
  have hblank : IsInk ([' '] ++ ·) := .of_text (allFit_cons.2 ⟨by decide, allFit_nil⟩)
  exact hblank.comp h

/-- What is written is not lost behind it. -/
theorem IsInk.length_le {write : List Char → List Char} (h : IsInk write) (behind : List Char) :
    behind.length ≤ (write behind).length := by
  obtain ⟨text, -, hwrite⟩ := h
  rw [hwrite, List.length_append]
  exact Nat.le_add_left _ _

/-- A document is written in front of any text, as a value and as an item. -/
structure IsInked (d : Data) : Prop where
  value : ∀ indent column, IsInk (writeValue indent column d)
  item : ∀ indent, IsInk (writeItem indent d)

/-- A document on the rest of a line. -/
theorem IsInked.of_scalar {d : Data}
    (hvalue : ∀ indent column behind, writeValue indent column d behind
      = ' ' :: (scalarAt (indent + levelWidth) (column + 1) d).toList ++ behind)
    (hitem : ∀ indent behind, writeItem indent d behind
      = ' ' :: (scalarAt (indent + levelWidth) (indent + levelWidth) d).toList ++ behind)
    (h : ∀ indent column, AllFit (scalarAt indent column d).toList) : IsInked d := by
  have hblank : isFit ' ' = true := by decide
  refine ⟨fun indent column => ⟨_, ?_, hvalue indent column⟩, fun indent => ⟨_, ?_, hitem indent⟩⟩
  · exact allFit_cons.2 ⟨hblank, h _ _⟩
  · exact allFit_cons.2 ⟨hblank, h _ _⟩

theorem isInk_writeItems {items : List Data} (h : ∀ d ∈ items, IsInked d) (indent : Nat) :
    IsInk (writeItems indent items) := by
  induction items with
  | nil => exact ⟨[], allFit_nil, fun _ => rfl⟩
  | cons item items ih =>
    obtain ⟨hitem, hitems⟩ := List.forall_mem_cons.1 h
    have hrest : IsInk fun behind =>
        if items.isEmpty then behind else lineBreak indent ++ writeItems indent items behind := by
      cases items with
      | nil => exact ⟨[], allFit_nil, fun _ => rfl⟩
      | cons d items => exact (IsInk.of_text (allFit_lineBreak indent)).comp (ih hitems)
    have hdash : IsInk (['-'] ++ ·) := .of_text (allFit_cons.2 ⟨by decide, allFit_nil⟩)
    obtain ⟨text, hfit, hwrite⟩ := hdash.comp ((hitem.item indent).comp hrest)
    exact ⟨text, hfit, fun behind => by rw [writeItems, ← hwrite]; rfl⟩

/-- The entries of a record as a map has them. -/
def textEntries (entries : List (String × Data)) : List (Data × Data) :=
  entries.map fun e => (.text e.1, e.2)

theorem isInk_writeEntries {entries : List (String × Data)}
    (hkeys : ∀ e ∈ entries, ∀ c ∈ e.1.toList, isSeparator c = false)
    (h : ∀ e ∈ entries, IsInked e.2) (indent : Nat) :
    IsInk (writeEntries indent (textEntries entries)) := by
  induction entries with
  | nil => exact ⟨[], allFit_nil, fun _ => rfl⟩
  | cons e entries ih =>
    obtain ⟨hentry, hentries⟩ := List.forall_mem_cons.1 h
    obtain ⟨hkey, hkeys⟩ := List.forall_mem_cons.1 hkeys
    have hrest : IsInk fun behind =>
        if (textEntries entries).isEmpty then behind
        else lineBreak indent ++ writeEntries indent (textEntries entries) behind := by
      cases entries with
      | nil => exact ⟨[], allFit_nil, fun _ => rfl⟩
      | cons e entries => exact (IsInk.of_text (allFit_lineBreak indent)).comp (ih hkeys hentries)
    have hname : IsInk ((keyText indent (.text e.1)).toList ++ ·) := by
      refine .of_text ?_
      rw [keyText, String.toList_append]
      exact allFit_append.2 ⟨allFit_scalarText hkey, allFit_cons.2 ⟨by decide, allFit_nil⟩⟩
    obtain ⟨text, hfit, hwrite⟩ := hname.comp ((hentry.value indent _).comp hrest)
    exact ⟨text, hfit, fun behind => by rw [textEntries, List.map_cons, writeEntries, ← hwrite]; rfl⟩

/-- A whole number is written with characters that are read as themselves. -/
theorem allFit_toString (i : Int) : AllFit (toString i).toList := by
  rw [toList_toString]
  exact List.all_eq_true.1 (all_signText (isNumeral_toDigits _) (by decide))

/-- A simple document is written in front of any text. -/
theorem isInked_of_simple {isText isKey : String → Prop} {d : Data} (h : Simple isText isKey d)
    (htexts : ∀ s, isText s → ∀ c ∈ s.toList, isSeparator c = false)
    (hkeys : ∀ s, isKey s → ∀ c ∈ s.toList, isSeparator c = false) : IsInked d := by
  have hword : ∀ cs : List Char, cs.all isFit = true → AllFit cs := fun _ => List.all_eq_true.1
  induction h with
  | null =>
    have hnull : "null".toList.all isFit = true := by decide
    exact .of_scalar (fun _ _ _ => rfl) (fun _ _ => rfl) fun _ _ => hword _ hnull
  | bool b =>
    have hbool : (if b then "true" else "false").toList.all isFit = true := by
      cases b <;> decide
    exact .of_scalar (fun _ _ _ => rfl) (fun _ _ => rfl) fun _ _ => hword _ hbool
  | @int i _ => exact .of_scalar (fun _ _ _ => rfl) (fun _ _ => rfl) fun _ _ => allFit_toString i
  | @text s hs =>
    exact .of_scalar (fun _ _ _ => rfl) (fun _ _ => rfl) fun _ _ => allFit_scalarText (htexts s hs)
  | @list items _ ih =>
    -- an empty list is one word; any other one stands on lines of its own or behind a dash
    by_cases hne : items = []
    · subst hne
      exact ⟨fun _ _ => ⟨" []".toList, hword _ (by decide), fun _ => rfl⟩,
        fun _ => ⟨" []".toList, hword _ (by decide), fun _ => rfl⟩⟩
    · obtain ⟨d, items, rfl⟩ := List.exists_cons_of_ne_nil hne
      have hitems := isInk_writeItems ih
      exact ⟨fun indent _ => (IsInk.of_text (allFit_lineBreak indent)).comp (hitems indent),
        fun indent => (hitems (indent + levelWidth)).behindBlank⟩
  | @record entries _ hk _ ih =>
    have hentries := isInk_writeEntries (fun e he => hkeys _ (hk e he)) ih
    by_cases hne : entries = []
    · subst hne
      exact ⟨fun _ _ => ⟨" \x7b\x7d".toList, hword _ (by decide), fun _ => rfl⟩,
        fun _ => ⟨" \x7b\x7d".toList, hword _ (by decide), fun _ => rfl⟩⟩
    · obtain ⟨e, entries, rfl⟩ := List.exists_cons_of_ne_nil hne
      exact ⟨fun indent _ => (IsInk.of_text (allFit_lineBreak _)).comp (hentries _),
        fun indent => (hentries (indent + levelWidth)).behindBlank⟩

end VerilogLoops.Yaml
