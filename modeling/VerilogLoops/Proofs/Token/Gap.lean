import VerilogLoops.Proofs.Token.Append

/-!
# Gaps between tokens

A *gap* is what may stand between two tokens: blanks and comments, of which the line comments are
closed by a line feed. Trivia is a gap, unless it ends in a line comment that the end of the text
closes.

> `triviaLength_gap`: a gap is trivia whatever stands behind it;
> `triviaLength_extend`: the trivia in front of a token stays what it is when the text goes on.
-/

namespace VerilogLoops.Text

open VerilogLoops.Lexical

/-- Blanks and complete comments, a line comment being closed by a line feed. -/
inductive IsGap : List Char → Prop
  | nil : IsGap []
  | blank {c : Char} {g : List Char} (hc : isBlank c = true) (hg : IsGap g) : IsGap (c :: g)
  | line {body g : List Char} (hb : '\n' ∉ body) (hg : IsGap g) : IsGap ('/' :: '/' :: (body ++ '\n' :: g))
  /-- The body ends with the first closing mark in it. -/
  | block {body g : List Char} (hb : blockEnd? body = some body.length) (hg : IsGap g) :
    IsGap ('/' :: '*' :: (body ++ g))

variable {cs g : List Char} {c : Char} {n : Nat}

/-! ## Trivia, piece by piece -/

/-- The rest of a comment is trivia. -/
theorem triviaFrom_inside (comment : List Char → Option Nat) (cs : List Char) : ∀ {inside : Nat},
    inside ≤ cs.length →
      triviaFrom comment inside cs = inside + triviaFrom comment 0 (cs.drop inside) := by
  induction cs with
  | nil =>
    intro inside h
    obtain rfl : inside = 0 := by simpa using h
    rfl
  | cons c rest ih =>
    intro inside h
    cases inside with
    | zero => simp
    | succ n =>
      have := ih (show n ≤ rest.length by simpa using h)
      simp only [triviaFrom, List.drop_succ_cons]
      omega

theorem triviaLength_blank (hc : isBlank c = true) (cs : List Char) :
    triviaLength (c :: cs) = 1 + triviaLength cs := by
  rw [triviaLength, triviaFrom, if_pos hc, triviaLength]

theorem head_of_comment? (h : comment? cs = some n) : ∃ rest, cs = '/' :: rest := by
  unfold comment? lineComment? blockComment? at h
  split at h
  · exact ⟨_, rfl⟩
  · split at h
    · exact ⟨_, rfl⟩
    · cases h

/-- A comment is trivia, and so is the trivia behind it. -/
theorem triviaLength_comment (h : comment? cs = some n) :
    triviaLength cs = n + triviaLength (cs.drop n) := by
  have hpos := comment?_pos h
  have hle := comment?_le h
  obtain ⟨rest, rfl⟩ := head_of_comment? h
  obtain ⟨k, rfl⟩ := Nat.exists_eq_add_of_le' hpos
  rw [List.length_cons] at hle
  rw [triviaLength, triviaFrom, if_neg (by decide), h]
  simp only [Nat.add_sub_cancel]
  rw [triviaFrom_inside comment? rest (show k ≤ rest.length by omega), List.drop_succ_cons,
    triviaLength]
  omega

/-- No trivia stands at the head of the text. -/
def StartsBare (cs : List Char) : Prop :=
  (∀ c, cs.head? = some c → isBlank c = false) ∧ comment? cs = none

theorem triviaLength_of_startsBare (h : StartsBare cs) : triviaLength cs = 0 := by
  cases cs with
  | nil => rfl
  | cons c rest => rw [triviaLength, triviaFrom, if_neg (by simp [h.1 c rfl]), h.2]

/-- A text begins with a blank, with a comment or with no trivia. -/
theorem trivia_cases (cs : List Char) :
    (∃ c rest, cs = c :: rest ∧ isBlank c = true) ∨ (∃ n, comment? cs = some n) ∨ StartsBare cs := by
  cases hn : comment? cs with
  | some n => exact Or.inr (Or.inl ⟨n, rfl⟩)
  | none =>
    cases cs with
    | nil => exact Or.inr (Or.inr ⟨by simp, hn⟩)
    | cons c rest =>
      cases hc : isBlank c with
      | true => exact Or.inl ⟨c, rest, rfl, hc⟩
      | false => exact Or.inr (Or.inr ⟨by simp [hc], hn⟩)

/-- Behind the trivia at its head a text begins with none. -/
theorem startsBare_drop (cs : List Char) : StartsBare (cs.drop (triviaLength cs)) := by
  induction hl : cs.length using Nat.strongRecOn generalizing cs with
  | ind l ih =>
    rcases trivia_cases cs with ⟨c, rest, rfl, hc⟩ | ⟨n, hn⟩ | hbare
    · rw [triviaLength_blank hc, Nat.add_comm, List.drop_succ_cons]
      exact ih _ (by simp [← hl]) rest rfl
    · have hpos := comment?_pos hn
      have hle := comment?_le hn
      rw [triviaLength_comment hn, ← List.drop_drop]
      exact ih _ (by rw [List.length_drop]; omega) _ rfl
    · rwa [triviaLength_of_startsBare hbare, List.drop_zero]

/-! ## Gaps -/

/-- The two kinds of comments. -/
theorem comment?_eq_some (h : comment? cs = some n) :
    (∃ rest, cs = '/' :: '/' :: rest ∧ n = 2 + (rest.takeWhile (· ≠ '\n')).length) ∨
      ∃ rest k, cs = '/' :: '*' :: rest ∧ blockEnd? rest = some k ∧ n = 2 + k := by
  unfold comment? lineComment? blockComment? at h
  split at h
  · next rest =>
    cases h
    exact Or.inl ⟨rest, rfl, rfl⟩
  · split at h
    · next rest _ =>
      obtain ⟨k, hk, rfl⟩ := Option.map_eq_some_iff.1 (by simpa using h)
      exact Or.inr ⟨rest, k, rfl, hk, rfl⟩
    · cases h

/-- **A gap is trivia whatever stands behind it.** -/
theorem triviaLength_gap (h : IsGap g) (cs : List Char) :
    triviaLength (g ++ cs) = g.length + triviaLength cs := by
  induction h with
  | nil => simp
  | blank hc _ ih =>
    rw [List.cons_append, triviaLength_blank hc, ih, List.length_cons]
    omega
  | @line body g hb _ ih =>
    have hrun : ((body ++ '\n' :: (g ++ cs)).takeWhile (· ≠ '\n')) = body := by
      rw [List.takeWhile_append_of_pos (by simpa using fun a ha (h : a = '\n') => hb (h ▸ ha))]
      simp
    have hn : comment? ('/' :: '/' :: (body ++ '\n' :: (g ++ cs))) = some (2 + body.length) := by
      rw [comment?, lineComment?, hrun, Option.some_or]
    have hdrop : ('/' :: '/' :: (body ++ '\n' :: (g ++ cs))).drop (2 + body.length) =
        '\n' :: (g ++ cs) := by
      rw [Nat.add_comm, List.drop_succ_cons, List.drop_succ_cons, List.drop_left]
    rw [List.cons_append, List.cons_append, List.append_assoc, List.cons_append,
      triviaLength_comment hn, hdrop, triviaLength_blank (by decide), ih]
    simp only [List.length_cons, List.length_append]
    omega
  | @block body g hb _ ih =>
    have hn : comment? ('/' :: '*' :: (body ++ (g ++ cs))) = some (2 + body.length) := by
      rw [comment?, lineComment?, Option.none_or, blockComment?, blockEnd?_append hb,
        Option.map_some]
      rintro _ h
      cases h
    have hdrop : ('/' :: '*' :: (body ++ (g ++ cs))).drop (2 + body.length) = g ++ cs := by
      rw [Nat.add_comm, List.drop_succ_cons, List.drop_succ_cons, List.drop_left]
    rw [List.cons_append, List.cons_append, List.append_assoc, triviaLength_comment hn, hdrop, ih]
    simp only [List.length_cons, List.length_append]
    omega

theorem IsGap.isTrivia (h : IsGap g) : IsTrivia g := by
  have := triviaLength_gap h []
  rwa [List.append_nil, show triviaLength [] = 0 from rfl, Nat.add_zero] at this

theorem IsGap.append {g' : List Char} (h : IsGap g) (h' : IsGap g') : IsGap (g ++ g') := by
  induction h with
  | nil => exact h'
  | blank hc _ ih => exact .blank hc ih
  | line hb _ ih => simpa using IsGap.line hb ih
  | block hb _ ih => simpa using IsGap.block hb ih

/-- The text is a gap with no trivia behind it, or a gap and a line comment that its end closes. -/
def BeginsWithGap (cs : List Char) : Prop :=
  (∃ g rest, cs = g ++ rest ∧ IsGap g ∧ StartsBare rest) ∨
    ∃ g body, cs = g ++ '/' :: '/' :: body ∧ IsGap g ∧ '\n' ∉ body

theorem BeginsWithGap.behind (front : List Char) (hfront : ∀ g, IsGap g → IsGap (front ++ g))
    (h : BeginsWithGap cs) : BeginsWithGap (front ++ cs) := by
  rcases h with ⟨g, rest, rfl, hg, hrest⟩ | ⟨g, body, rfl, hg, hbody⟩
  · exact Or.inl ⟨front ++ g, rest, (List.append_assoc ..).symm, hfront g hg, hrest⟩
  · exact Or.inr ⟨front ++ g, body, (List.append_assoc ..).symm, hfront g hg, hbody⟩

/-- Blanks and comments are stripped off one after the other. -/
theorem beginsWithGap (cs : List Char) : BeginsWithGap cs := by
  induction hl : cs.length using Nat.strongRecOn generalizing cs with
  | ind l ih =>
    -- a blank, a comment, or neither; a comment at the end of the text need not be complete
    rcases trivia_cases cs with ⟨c, rest, rfl, hc⟩ | ⟨n, hn⟩ | hbare
    · exact .behind [c] (fun _ hg => .blank hc hg) (ih _ (by simp [← hl]) rest rfl)
    · rcases comment?_eq_some hn with ⟨rest, rfl, -⟩ | ⟨rest, k, rfl, hk, -⟩
      · have hbody : '\n' ∉ rest.takeWhile (· ≠ '\n') := fun h => by
          simpa using List.mem_takeWhile_imp h
        have hrest := List.takeWhile_append_dropWhile (p := (· ≠ '\n')) (l := rest)
        generalize rest.takeWhile (· ≠ '\n') = body at hbody hrest
        cases hmore : rest.dropWhile (· ≠ '\n') with
        | nil =>
          rw [hmore, List.append_nil] at hrest
          exact Or.inr ⟨[], rest, rfl, .nil, hrest ▸ hbody⟩
        | cons c more =>
          obtain rfl : c = '\n' := by
            have := List.head?_dropWhile_not (· ≠ '\n') rest
            rw [hmore] at this
            simpa using this
          rw [hmore] at hrest
          subst hrest
          have hgap : BeginsWithGap more :=
            ih _ (by simp only [← hl, List.length_cons, List.length_append]; omega) more rfl
          have hline := hgap.behind ('/' :: '/' :: (body ++ ['\n'])) fun g hg => by
            simpa using IsGap.line hbody hg
          simpa using hline
      · have hgap : BeginsWithGap (rest.drop k) :=
          ih _ (by simp only [← hl, List.length_cons, List.length_drop]; omega) _ rfl
        have hbody : blockEnd? (rest.take k) = some (rest.take k).length := by
          rw [List.length_take, Nat.min_eq_left (blockEnd?_le hk)]
          exact blockEnd?_take hk (Nat.le_refl _)
        have hblock := hgap.behind ('/' :: '*' :: rest.take k) fun g hg =>
          IsGap.block hbody hg
        simpa using hblock
    · exact Or.inl ⟨[], cs, rfl, .nil, hbare⟩

/-- Trivia in front of something is a gap, and trivia on its own is one with a line feed behind. -/
theorem isGap_trivia (cs : List Char) :
    (triviaLength cs < cs.length → IsGap (cs.take (triviaLength cs))) ∧
      (IsTrivia cs → IsGap (cs ++ ['\n'])) := by
  rcases beginsWithGap cs with ⟨g, rest, rfl, hg, hrest⟩ | ⟨g, body, rfl, hg, hbody⟩
  · have hlength : triviaLength (g ++ rest) = g.length := by
      rw [triviaLength_gap hg, triviaLength_of_startsBare hrest, Nat.add_zero]
    rw [IsTrivia, hlength, List.take_left]
    refine ⟨fun _ => hg, fun h => ?_⟩
    obtain rfl : rest = [] := by simpa using h
    simpa using hg.append (.blank (by decide) .nil)
  · have hcomment : comment? ('/' :: '/' :: body) = some (2 + body.length) := by
      rw [comment?, lineComment?, Option.some_or, List.takeWhile_eq_self_iff.2]
      rintro c hc
      exact decide_eq_true fun h => hbody (h ▸ hc)
    have hlength : triviaLength (g ++ '/' :: '/' :: body) = (g ++ '/' :: '/' :: body).length := by
      have hnone : ('/' :: '/' :: body).drop (2 + body.length) = [] := by
        rw [Nat.add_comm, List.drop_succ_cons, List.drop_succ_cons, List.drop_length]
      rw [triviaLength_gap hg, triviaLength_comment hcomment, hnone, List.length_append,
        Nat.add_comm 2]
      rfl
    refine ⟨fun h => ?_, fun _ => ?_⟩
    · omega
    · simpa using hg.append (.line hbody .nil)

/-- **The trivia in front of a token stays what it is** when the text goes on, if the token does not
become the opening of a comment. -/
theorem triviaLength_extend {rest : List Char} (h : triviaLength cs < cs.length)
    (hc : comment? (cs.drop (triviaLength cs) ++ rest) = none) :
    triviaLength (cs ++ rest) = triviaLength cs := by
  have hgap := (isGap_trivia cs).1 h
  have hbare := startsBare_drop cs
  have hsplit := List.take_append_drop (triviaLength cs) cs
  have hnil : cs.drop (triviaLength cs) ≠ [] := fun hnil => by
    have := congrArg List.length hnil
    rw [List.length_drop, List.length_nil] at this
    omega
  have hzero : triviaLength (cs.drop (triviaLength cs) ++ rest) = 0 := by
    refine triviaLength_of_startsBare ⟨fun c h' => hbare.1 c ?_, hc⟩
    cases hdrop : cs.drop (triviaLength cs) with
    | nil => exact absurd hdrop hnil
    | cons d more => rwa [hdrop] at h'
  conv => lhs; rw [← hsplit, List.append_assoc, triviaLength_gap hgap, hzero]
  rw [List.length_take, Nat.min_eq_left (triviaLength_le cs), Nat.add_zero]

end VerilogLoops.Text
