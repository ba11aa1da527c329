import VerilogLoops.Proofs.Form
import VerilogLoops.Proofs.Glue
import VerilogLoops.Proofs.Token.Gap

/-!
# Where words begin

A token that ends in an identifier character does not have an identifier directly behind it, since it
would go on over the identifier; only a number stops earlier. So an identifier that stands behind
trivia and tokens is a word of the text: no identifier character stands in front of it.

> `not_isIdentifierStart_behind`: an identifier does not begin directly behind an identifier
> character that ends another token.
-/

namespace VerilogLoops.Lexical

open VerilogLoops.Text VerilogLoops.Grammar

variable {cs rest text : List Char} {c d : Char} {p : Char → Bool} {k : Token}

/-- What a text ends in is not a letter, a digit, an underscore or a dollar sign. -/
def EndsBeside (cs : List Char) : Prop := ∀ c, cs.getLast? = some c → isIdentifierCharacter c = false

/-- What ends in a text that is not empty ends as the text does. -/
theorem EndsBeside.append (h : EndsBeside cs) (hne : cs ≠ []) (front : List Char) :
    EndsBeside (front ++ cs) := by
  intro c hc
  refine h c ?_
  rw [List.getLast?_append, List.getLast?_eq_some_getLast hne, Option.some_or] at hc
  rw [List.getLast?_eq_some_getLast hne, hc]

/-- The last character of a closed block comment is a slash. -/
theorem getLast?_blockEnd {body : List Char} (h : blockEnd? body = some body.length) :
    body.getLast? = some '/' := by
  fun_induction blockEnd? body with
  | case1 rest =>
    simp only [Option.some.injEq, List.length_cons] at h
    have : rest = [] := List.length_eq_zero_iff.1 (by omega)
    rw [this]
    rfl
  | case2 c rest _ ih =>
    obtain ⟨n, hn, hlen⟩ := Option.map_eq_some_iff.1 h
    rw [List.length_cons] at hlen
    have hrest := ih (by rw [hn]; exact congrArg some (by omega))
    cases rest with
    | nil => cases hrest
    | cons d rest => rwa [List.getLast?_cons_cons]
  | case3 => cases h

/-- A gap ends in a blank, a line feed or a slash. -/
theorem endsBeside_of_isGap {g : List Char} (h : IsGap g) : EndsBeside g := by
  have slash : isIdentifierCharacter '/' = false := by decide
  induction h with
  | nil =>
    intro c hc
    cases hc
  | @blank c g hc hg ih =>
    -- if there is more behind the first blank or comment, the gap ends as that does
    cases g with
    | nil =>
      intro d hd
      cases hd
      simp only [isBlank, Bool.or_eq_true, decide_eq_true_eq] at hc
      rcases hc with ((rfl | rfl) | rfl) | rfl <;> decide
    | cons d g => exact ih.append (List.cons_ne_nil _ _) [c]
  | @line body g hb hg ih =>
    have hfront : '/' :: '/' :: (body ++ '\n' :: g) = ('/' :: '/' :: body) ++ '\n' :: g := rfl
    rw [hfront]
    refine EndsBeside.append ?_ (List.cons_ne_nil _ _) _
    cases g with
    | nil =>
      intro d hd
      cases hd
      decide
    | cons d g => exact ih.append (List.cons_ne_nil _ _) ['\n']
  | @block body g hb hg ih =>
    cases g with
    | nil =>
      rw [List.append_nil]
      intro d hd
      have hlast := getLast?_blockEnd hb
      cases body with
      | nil => cases hlast
      | cons e body =>
        rw [List.getLast?_cons_cons, List.getLast?_cons_cons, hlast] at hd
        cases hd
        exact slash
    | cons d g => exact ih.append (List.cons_ne_nil _ _) ('/' :: '*' :: body)

/-- A run of a class that is as long as a text in front is the text. -/
theorem takeWhile_of_length (h : ((cs ++ rest).takeWhile p).length = cs.length) :
    (cs ++ rest).takeWhile p = cs := by
  have hpre : (cs ++ rest).takeWhile p <+: cs ++ rest := List.takeWhile_prefix p
  exact (List.prefix_of_prefix_length_le hpre (List.prefix_append _ _) (Nat.le_of_eq h)).eq_of_length h

/-- The spelling either bars the characters of words or does not end in one of them. -/
def Spelling.guards (s : Spelling) : Bool :=
  s.barrier = .word || s.barrier = .identifier || s.text.getLast?.all fun c => !isIdentifierCharacter c

theorem Token.guards : ∀ k : Token, k.spellings.all Spelling.guards = true := by
  simp only [← Token.spelled_eq]
  decide +kernel

/-- The letters that begin an identifier are graphic. -/
theorem isGraphic_of_isIdentifierStart (h : isIdentifierStart c = true) : isGraphic c = true := by
  have hrange := range_of_isIdentifierStart h
  simp only [isGraphic, Bool.and_eq_true, decide_eq_true_eq]
  exact ⟨UInt32.le_iff_toNat_le.2 hrange.1, UInt32.le_iff_toNat_le.2 hrange.2⟩

/-- The letters that begin an identifier are word characters. -/
theorem isWordCharacter_of_isIdentifierStart (h : isIdentifierStart c = true) :
    isWordCharacter c = true := by
  refine isWordCharacter_of_isIdentifierCharacter (isIdentifierCharacter_of_isIdentifierStart h) ?_
  rintro rfl
  exact absurd h (by decide)

/-- The run of a class that a token takes ends with the token. -/
theorem head_of_run {front : Char} (h : some (1 + ((cs ++ rest).takeWhile p).length) =
    some (front :: cs).length) (hd : rest.head? = some d) : p d = false := by
  have hrun : ((cs ++ rest).takeWhile p).length = cs.length := by
    rw [Option.some.injEq, List.length_cons] at h
    omega
  exact head_of_takeWhile (takeWhile_of_length hrun) d hd

/-- A character that is not of a class of which all that begin identifiers are begins none. -/
theorem not_isIdentifierStart_of_class (hp : ∀ e, isIdentifierStart e = true → p e = true)
    (hd : p d = false) : isIdentifierStart d = false := by
  by_contra hstart
  rw [hp d (by simpa using hstart)] at hd
  cases hd

/-- A word bars the characters of words behind it, and so those that begin identifiers. -/
theorem not_isIdentifierStart_behind_spelled (hs : k.isSpelled = true)
    (h : k.length? (text ++ rest) = some text.length) (hc : text.getLast? = some c)
    (hword : isIdentifierCharacter c = true) (hd : rest.head? = some d) :
    isIdentifierStart d = false := by
  rw [Token.length?_of_isSpelled hs] at h
  obtain ⟨s, hmem, hfits, hlen⟩ := firstFit_eq_some h
  obtain ⟨more, heq, hbar⟩ := Spelling.fits_iff.1 hfits
  obtain ⟨htext, rfl⟩ := List.append_inj heq hlen.symm
  have hbars := hbar d hd
  have hguards := List.all_eq_true.1 k.guards s hmem
  simp only [Spelling.guards, Bool.or_eq_true, decide_eq_true_eq, ← htext, hc, Option.all_some,
    hword, Bool.not_true, Bool.false_eq_true, or_false] at hguards
  rcases hguards with hb | hb
  · rw [hb] at hbars
    exact not_isIdentifierStart_of_class (fun e he => isWordCharacter_of_isIdentifierStart he) hbars
  · rw [hb] at hbars
    exact not_isIdentifierStart_of_class
      (fun e he => isIdentifierCharacter_of_isIdentifierStart he) hbars

/-- The run that a token takes ends only where no identifier could begin. -/
theorem not_isIdentifierStart_behind_free (hk : k.isFree = true) (hn : k ≠ .number)
    (h : k.length? (text ++ rest) = some text.length) (hc : text.getLast? = some c)
    (hword : isIdentifierCharacter c = true) (hd : rest.head? = some d) :
    isIdentifierStart d = false := by
  have hcharacter := fun e he => isIdentifierCharacter_of_isIdentifierStart (c := e) he
  cases text with
  | nil => cases hc
  | cons e text =>
    -- by the kind of run: what ends it is no character of the run, nor could it begin an identifier
    unfold Token.isFree at hk
    split at hk
    · have hrun : (e :: text ++ rest).takeWhile isIdentifierCharacter = e :: text :=
        takeWhile_of_identifier? h
      exact not_isIdentifierStart_of_class hcharacter (head_of_takeWhile hrun d hd)
    · simp only [Token.length?, escapedIdentifier?, List.cons_append] at h
      split at h
      · next r heq =>
        cases heq
        split at h
        · cases h
        · exact not_isIdentifierStart_of_class (fun e he => isGraphic_of_isIdentifierStart he)
            (head_of_run h hd)
      · cases h
    · simp only [Token.length?, systemName?, List.cons_append] at h
      split at h
      · next r heq =>
        cases heq
        split at h
        · cases h
        · split at h
          · cases h
          · exact not_isIdentifierStart_of_class hcharacter (head_of_run h hd)
      · cases h
    · exact absurd rfl hn
    · -- a string ends in a quote
      have hw : Token.Writes .string (String.ofList (e :: text)) :=
        ⟨rest, by rw [String.toList_ofList]; exact h⟩
      obtain ⟨inner, hinner⟩ := hw.hasForm
      have htext := congrArg String.toList hinner
      rw [String.toList_ofList, String.toList_append, String.toList_append] at htext
      rw [htext, List.getLast?_append] at hc
      cases hc
      exact absurd hword (by decide)
    · cases hk

/-- **An identifier does not begin directly behind an identifier character** that ends another token,
unless this is a number. -/
theorem not_isIdentifierStart_behind (hk : (k.isSpelled || k.isFree) = true) (hn : k ≠ .number)
    (h : k.length? (text ++ rest) = some text.length) (hc : text.getLast? = some c)
    (hword : isIdentifierCharacter c = true) (hd : rest.head? = some d) :
    isIdentifierStart d = false := by
  rcases Bool.or_eq_true_iff.1 hk with hs | hfree
  · exact not_isIdentifierStart_behind_spelled hs h hc hword hd
  · exact not_isIdentifierStart_behind_free hfree hn h hc hword hd

end VerilogLoops.Lexical
