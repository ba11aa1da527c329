import VerilogLoops.Text.Trivia

/-!
# Trivia on its own

Whether a comment stands at the head of a text does not depend on what lies behind the comment. So
the trivia in front of a token is still trivia when the text is cut behind it.

> `triviaLength_take`: cutting a text behind its trivia leaves the trivia as it is.
-/

namespace VerilogLoops.Text

/-- The text is nothing but blanks and complete comments. -/
def IsTrivia (text : List Char) : Prop := triviaLength text = text.length

instance (text : List Char) : Decidable (IsTrivia text) :=
  inferInstanceAs (Decidable (triviaLength text = text.length))

/-! ## Cutting a text behind a comment -/

theorem takeWhile_take {p : Char → Bool} {cs : List Char} {m : Nat}
    (h : (cs.takeWhile p).length ≤ m) : (cs.take m).takeWhile p = cs.takeWhile p := by
  induction cs generalizing m with
  | nil => simp
  | cons c rest ih =>
    cases m with
    | zero =>
      rw [List.length_eq_zero_iff.1 (Nat.le_zero.1 h)]
      rfl
    | succ m =>
      rw [List.take_succ_cons, List.takeWhile_cons, List.takeWhile_cons]
      by_cases hc : p c = true
      · rw [List.takeWhile_cons_of_pos hc, List.length_cons] at h
        rw [if_pos hc, if_pos hc, ih (by omega)]
      · rw [if_neg hc, if_neg hc]

/-- The end of a block comment is found one character further on if it does not begin here. -/
theorem blockEnd?_cons {c : Char} {rest : List Char} {n : Nat} (h : blockEnd? (c :: rest) = some n)
    (hno : ¬∃ more, c = '*' ∧ rest = '/' :: more) :
    ∃ k, blockEnd? rest = some k ∧ n = k + 1 := by
  unfold blockEnd? at h
  split at h
  · next more heq =>
    cases heq
    exact absurd ⟨more, rfl, rfl⟩ hno
  · next heq =>
    cases heq
    obtain ⟨k, hk, rfl⟩ := Option.map_eq_some_iff.1 h
    exact ⟨k, hk, rfl⟩
  · next heq => cases heq

theorem blockEnd?_cons_of_rest {c : Char} {rest : List Char} {k : Nat}
    (h : blockEnd? rest = some k) (hno : ¬∃ more, c = '*' ∧ rest = '/' :: more) :
    blockEnd? (c :: rest) = some (k + 1) := by
  rw [blockEnd?, h]
  · rfl
  · exact fun more hc hrest => hno ⟨more, hc, hrest⟩

/-- A block comment that ends in front of further text ends there whatever the text is. -/
theorem blockEnd?_append {cs : List Char} {n : Nat} (h : blockEnd? cs = some n)
    (more : List Char) : blockEnd? (cs ++ more) = some n := by
  induction cs generalizing n with
  | nil => cases h
  | cons c rest ih =>
    by_cases hstop : ∃ tail, c = '*' ∧ rest = '/' :: tail
    · obtain ⟨tail, rfl, rfl⟩ := hstop
      exact h
    · obtain ⟨k, hk, rfl⟩ := blockEnd?_cons h hstop
      refine blockEnd?_cons_of_rest (ih hk) ?_
      rintro ⟨tail, rfl, htail⟩
      cases rest with
      | nil => cases hk
      | cons d rest =>
        cases htail
        exact hstop ⟨rest, rfl, rfl⟩

theorem blockEnd?_take {cs : List Char} {n m : Nat} (h : blockEnd? cs = some n) (hm : n ≤ m) :
    blockEnd? (cs.take m) = some n := by
  induction cs generalizing n m with
  | nil => cases h
  | cons c rest ih =>
    by_cases hstop : ∃ tail, c = '*' ∧ rest = '/' :: tail
    · obtain ⟨tail, rfl, rfl⟩ := hstop
      cases h
      obtain ⟨k, rfl⟩ := Nat.exists_eq_add_of_le' hm
      rfl
    · obtain ⟨k, hk, rfl⟩ := blockEnd?_cons h hstop
      obtain ⟨l, rfl⟩ := Nat.exists_eq_add_of_le' (show 1 ≤ m by omega)
      rw [List.take_succ_cons]
      refine blockEnd?_cons_of_rest (ih hk (by omega)) ?_
      rintro ⟨tail, rfl, htail⟩
      cases rest with
      | nil => cases hk
      | cons d rest =>
        cases l with
        | zero => cases htail
        | succ l =>
          cases htail
          exact hstop ⟨rest, rfl, rfl⟩

/-- A comment is found in a text that is cut behind it. -/
theorem comment?_take {cs : List Char} {n m : Nat} (h : comment? cs = some n) (hm : n ≤ m) :
    comment? (cs.take m) = some n := by
  have h2 : 2 ≤ n := by
    unfold comment? lineComment? blockComment? at h
    split at h
    · simp at h
      omega
    · split at h
      · simp at h
        omega
      · simp at h
  obtain ⟨k, rfl⟩ := Nat.exists_eq_add_of_le' (show 2 ≤ m by omega)
  unfold comment? lineComment? blockComment? at h ⊢
  split at h
  · next rest =>
    simp only [Option.some_or, Option.some.injEq] at h
    have htake : ((rest.take k).takeWhile (· ≠ '\n')) = rest.takeWhile (· ≠ '\n') :=
      takeWhile_take (by simp only [ne_eq] at h ⊢; omega)
    simp only [List.take_succ_cons, htake, Option.some_or, Option.some.injEq]
    exact h
  · split at h
    · next rest _ =>
      simp only [Option.none_or, Option.map_eq_some_iff] at h
      obtain ⟨l, hl, rfl⟩ := h
      simp [List.take_succ_cons, blockEnd?_take hl (show l ≤ k by omega)]
    · cases h

/-- Where no comment is found, none is found in a text that is cut somewhere. -/
theorem comment?_take_none {cs : List Char} (h : comment? cs = none) (m : Nat) :
    comment? (cs.take m) = none := by
  cases hcut : comment? (cs.take m) with
  | none => rfl
  | some n =>
    exfalso
    have hcs : cs = cs.take m ++ cs.drop m := (List.take_append_drop m cs).symm
    generalize cs.take m = front at hcut hcs
    unfold comment? lineComment? blockComment? at h hcut
    split at hcut
    · rw [hcs] at h
      simp at h
    · split at hcut
      · next rest _ =>
        simp only [Option.none_or, Option.map_eq_some_iff] at hcut
        obtain ⟨k, hk, -⟩ := hcut
        rw [hcs] at h
        simp [blockEnd?_append hk] at h
      · cases hcut

/-! ## Cutting a text behind trivia -/

theorem le_triviaFrom (comment : List Char → Option Nat) (cs : List Char) (inside : Nat) :
    min inside cs.length ≤ triviaFrom comment inside cs := by
  induction cs generalizing inside with
  | nil => simp
  | cons c rest ih =>
    cases inside with
    | zero => simp
    | succ n =>
      have := ih n
      simp only [triviaFrom, List.length_cons]
      omega

theorem comment?_le {cs : List Char} {n : Nat} (h : comment? cs = some n) : n ≤ cs.length := by
  have hend : ∀ {rest : List Char} {k : Nat}, blockEnd? rest = some k → k ≤ rest.length := by
    intro rest
    induction rest with
    | nil => intro k h; cases h
    | cons c rest ih =>
      intro k h
      by_cases hstop : ∃ tail, c = '*' ∧ rest = '/' :: tail
      · obtain ⟨tail, rfl, rfl⟩ := hstop
        cases h
        simp
      · obtain ⟨l, hl, rfl⟩ := blockEnd?_cons h hstop
        have := ih hl
        simpa using this
  unfold comment? lineComment? blockComment? at h
  split at h
  · next rest =>
    have := (List.takeWhile_prefix (l := rest) (· ≠ '\n')).length_le
    simp only [Option.some_or, Option.some.injEq] at h
    simp only [List.length_cons]
    omega
  · split at h
    · simp only [Option.none_or, Option.map_eq_some_iff] at h
      obtain ⟨k, hk, rfl⟩ := h
      have := hend hk
      simp only [List.length_cons]
      omega
    · cases h

/-- Cutting a text behind its trivia leaves the trivia as it is, also inside a comment. -/
theorem triviaFrom_take (cs : List Char) : ∀ (inside m : Nat),
    triviaFrom comment? inside cs ≤ m →
      triviaFrom comment? inside (cs.take m) = triviaFrom comment? inside cs := by
  induction cs with
  | nil => simp
  | cons c rest ih =>
    intro inside m hm
    cases m with
    | zero => simp [triviaFrom, Nat.le_zero.1 hm]
    | succ m =>
      rw [List.take_succ_cons]
      cases inside with
      | succ n =>
        simp only [triviaFrom] at hm ⊢
        rw [ih n m (by omega)]
      | zero =>
        simp only [triviaFrom] at hm ⊢
        by_cases hb : isBlank c = true
        · rw [if_pos hb] at hm ⊢
          rw [if_pos hb, ih 0 m (by omega)]
        · rw [if_neg hb] at hm ⊢
          rw [if_neg hb]
          cases hc : comment? (c :: rest) with
          | none =>
            have := comment?_take_none hc (m + 1)
            rw [List.take_succ_cons] at this
            rw [this]
          | some n =>
            rw [hc] at hm
            simp only at hm
            -- the comment ends inside the trivia, so it is not cut
            have hle := comment?_le hc
            have hmin := le_triviaFrom comment? rest (n - 1)
            simp only [List.length_cons] at hle
            have := comment?_take hc (show n ≤ m + 1 by omega)
            rw [List.take_succ_cons] at this
            rw [this]
            simp only
            rw [ih (n - 1) m (by omega)]

/-- Cutting a text behind its trivia leaves the trivia as it is. -/
theorem triviaLength_take {cs : List Char} {m : Nat} (h : triviaLength cs ≤ m) :
    triviaLength (cs.take m) = triviaLength cs :=
  triviaFrom_take cs 0 m h

/-- The trivia at the head of a text is trivia on its own. -/
theorem isTrivia_take (cs : List Char) : IsTrivia (cs.take (triviaLength cs)) := by
  rw [IsTrivia, triviaLength_take (Nat.le_refl _), List.length_take,
    Nat.min_eq_left (triviaLength_le cs)]

end VerilogLoops.Text
