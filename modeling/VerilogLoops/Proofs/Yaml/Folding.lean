import VerilogLoops.Yaml.Reader
import VerilogLoops.Yaml.Writer

/-!
# Folded lines are joined again

A scalar that is too wide is written over several lines, and reading joins them. A blank gives way
to a line break only where it stands alone, so the break comes back as this blank. Inside single
quotes a row of line breaks is written with one break more, which is the one that joining drops.

> `foldPieces_plainFrom`: a plain scalar over several lines is its text.
>
> `foldsTo_singleFrom`: single quotes are read up to the closing one, and their pieces are the
> text.
-/

namespace VerilogLoops.Yaml

/-- The line breaks beyond ASCII. A reader takes some of them for others, so no text that holds one
is sure to come back. -/
def isSeparator (c : Char) : Bool :=
  c = '\x85' || c = '\u2028' || c = '\u2029'

/-- What is pending in front of a text agrees with the character in front of it: blanks that have
been read as they are, a break in the place of a blank, or line breaks of the text itself with the
one in front that is dropped. -/
inductive Agrees : Option Char → List Char → Pending → Prop
  | blanks {previous : Option Char} {cs bs : List Char} (hbreak : previous.any isBreak = false)
    (halone : previous ≠ some ' ' → bs = [])
    (hnext : previous = some ' ' → headIs isBreak cs = false) : Agrees previous cs (.blanks bs)
  | folded {cs : List Char} (hhead : headIs (fun c => c = ' ' || isBreak c) cs = false) :
    Agrees (some ' ') cs (.breaks (some '\n') [])
  | breaks {cs more : List Char} (hmore : more ≠ []) (hhead : headIs (· = ' ') cs = false) :
    Agrees (some '\n') cs (.breaks (some '\n') more)

variable {indent column : Nat} {previous : Option Char} {pending : Pending} {c : Char}
  {cs xs rest behind : List Char}

/-- A line feed is the only break that is no separator. -/
theorem isBreak_eq (h : isSeparator c = false) : isBreak c = decide (c = '\n') := by
  simp_all [isBreak, isSeparator]

/-- What can stand in single quotes is no tab. -/
theorem ne_tab_of_isSpecial (h : isSpecial c = false) : c ≠ '\t' := by
  rintro rfl
  exact absurd h (by decide)

/-- No neighbours of a text satisfy a condition if the first one does not with its neighbour, nor do
those behind it. -/
theorem hasNeighbours_cons {p : Char → Char → Bool} :
    hasNeighbours p (c :: rest) = false ↔
      headIs (p c) rest = false ∧ hasNeighbours p rest = false := by
  cases rest <;> simp [hasNeighbours, headIs]

/-- A blank next to a line break, as it must not stand in single quotes. -/
def isAtBreak (a b : Char) : Bool :=
  a = ' ' && isBreak b || isBreak a && b = ' '

theorem headIs_isAtBreak_blank : headIs (isAtBreak ' ') rest = headIs isBreak rest := by
  cases rest <;> simp [headIs, isAtBreak, isBreak]

theorem headIs_isAtBreak_break : headIs (isAtBreak '\n') rest = headIs (· = ' ') rest := by
  cases rest <;> simp [headIs, isAtBreak, isBreak]

section Pieces

variable {pieces : List Piece} {first : Option Char} {more : List Char}

theorem foldPieces_blank (bs : List Char) :
    foldPieces (.blanks bs) (.bare ' ' :: pieces) = foldPieces (.blanks (bs ++ [' '])) pieces :=
  rfl

theorem foldPieces_firstBreak :
    foldPieces (.blanks xs) (.bare '\n' :: pieces) = foldPieces (.breaks (some '\n') []) pieces :=
  rfl

/-- Blanks at the head of a line are dropped. -/
theorem foldPieces_indentation (n : Nat) :
    foldPieces (.breaks first more) (List.replicate n (Piece.bare ' ') ++ pieces)
      = foldPieces (.breaks first more) pieces := by
  induction n with
  | zero => rfl
  | succ n ih =>
    rw [List.replicate_succ, List.cons_append]
    exact ih

/-- A character that is neither a blank nor a break ends what is pending. -/
theorem foldPieces_bare (hblank : c ≠ ' ') (htab : c ≠ '\t') (hbreak : isBreak c = false) :
    foldPieces pending (.bare c :: pieces) = pending.flush ++ c :: foldPieces (.blanks []) pieces := by
  simp [foldPieces, hblank, htab, hbreak]

end Pieces

/-- Nothing is pending at the start of a text. -/
theorem Agrees.start : Agrees none cs (.blanks []) :=
  .blanks rfl (fun _ => rfl) (by rintro ⟨⟩)

/-- Nothing is pending behind a character that is neither a blank nor a break. -/
theorem Agrees.after (hblank : c ≠ ' ') (hbreak : isBreak c = false) :
    Agrees (some c) cs (.blanks []) :=
  .blanks hbreak (fun _ => rfl) fun h => absurd (Option.some.inj h) hblank

/-- A blank that has been read is pending. -/
theorem Agrees.blank (bs : List Char) (hnext : headIs isBreak cs = false) :
    Agrees (some ' ') cs (.blanks bs) :=
  .blanks rfl (fun h => absurd rfl h) fun _ => hnext

/-- The break that stands for a blank is pending. -/
theorem Agrees.newLine (hhead : headIs (· ≠ ' ') cs = true) (hnext : headIs isBreak cs = false) :
    Agrees (some ' ') cs (.breaks (some '\n') []) := by
  refine .folded ?_
  cases cs with
  | nil => rfl
  | cons d rest => simp_all [headIs]

theorem toList_newLine (indent : Nat) :
    (newLine indent).toList = '\n' :: List.replicate indent ' ' := by
  simp [newLine]

/-- Behind the line break that stands for a blank only the blank is pending. -/
theorem foldPieces_newLine (pieces : List Piece) :
    foldPieces (.blanks []) ((newLine indent).toList.map .bare ++ pieces)
      = foldPieces (.breaks (some '\n') []) pieces := by
  rw [toList_newLine, List.map_cons, List.map_replicate, List.cons_append, foldPieces_firstBreak,
    foldPieces_indentation]

/-- A blank that gives way to a line break stands alone. -/
theorem foldsAt_iff : foldsAt column previous rest = true ↔
    lineWidth < column ∧ previous.any (· ≠ ' ') = true ∧ headIs (· ≠ ' ') rest = true := by
  simp [foldsAt, and_assoc]

/-- A blank in front of which something is pending has only blanks in front of it. -/
theorem Agrees.eq_blanks (h : Agrees previous (' ' :: rest) pending) :
    ∃ bs, pending = .blanks bs ∧ (previous.any (· ≠ ' ') = true → bs = []) := by
  cases h with
  | blanks _ halone _ =>
    refine ⟨_, rfl, fun hprevious => halone ?_⟩
    rintro rfl
    exact absurd hprevious (by decide)
  | folded hhead => simp [headIs] at hhead
  | breaks _ hhead => simp [headIs] at hhead

/-- A line break in the place of a blank that stands alone comes back as the blank. -/
theorem foldPieces_plainFrom (hcs : ∀ c ∈ cs, isBreak c = false ∧ c ≠ '\t')
    (h : Agrees previous cs pending) :
    foldPieces pending ((plainFrom indent column previous cs).toList.map .bare)
      = pending.flush ++ cs := by
  induction cs generalizing column previous pending with
  | nil => simp [plainFrom, foldPieces]
  | cons c rest ih =>
    obtain ⟨hbreak, htab⟩ := hcs c List.mem_cons_self
    have hrest : ∀ c ∈ rest, isBreak c = false ∧ c ≠ '\t' :=
      fun c hc => hcs c (List.mem_cons_of_mem _ hc)
    by_cases hc : c = ' '
    · subst hc
      obtain ⟨bs, rfl, halone⟩ := h.eq_blanks
      have hnext : headIs isBreak rest = false := by
        cases rest with
        | nil => rfl
        | cons d rest => exact (hrest d List.mem_cons_self).1
      by_cases hfold : foldsAt column previous rest = true
      · -- the line break is dropped again, and the blank comes with what follows it
        obtain ⟨-, hprevious, hhead⟩ := foldsAt_iff.1 hfold
        rw [halone hprevious, plainFrom, if_pos (by simp [hfold]), String.toList_append,
          List.map_append, foldPieces_newLine, ih hrest (.newLine hhead hnext)]
        rfl
      · rw [plainFrom, if_neg (by simp [hfold]), String.toList_append, List.map_append,
          String.toList_singleton, List.map_singleton, List.singleton_append, foldPieces_blank,
          ih hrest (.blank _ hnext)]
        simp [Pending.flush]
    · rw [plainFrom, if_neg (by simp [hc]), String.toList_append, List.map_append,
        String.toList_singleton, List.map_singleton, List.singleton_append,
        foldPieces_bare hc htab hbreak, ih hrest (.after hc hbreak)]
      rfl

section Single

/-- What stands inside single quotes is read as some pieces, whatever follows. -/
def IsSingle (text : List Char) (pieces : List Piece) : Prop :=
  ∀ rest, readSingle? (text ++ rest)
    = (readSingle? rest).map fun r => (pieces ++ r.1, r.2 + text.length)

variable {ys : List Char} {ps qs : List Piece}

theorem IsSingle.nil : IsSingle [] [] := by
  intro rest
  simp

theorem IsSingle.append (hx : IsSingle xs ps) (hy : IsSingle ys qs) :
    IsSingle (xs ++ ys) (ps ++ qs) := by
  intro rest
  rw [List.append_assoc, hx, hy, Option.map_map]
  congr 1
  funext r
  simp only [Function.comp_apply, List.append_assoc, List.length_append, Prod.mk.injEq, true_and]
  omega

/-- A character other than the quote is read as it is. -/
theorem IsSingle.bare (hc : c ≠ '\'') : IsSingle [c] [.bare c] := by
  intro rest
  rw [List.singleton_append, readSingle?, if_neg hc]
  · rfl
  · rintro _ rfl
    exact fun _ => hc rfl

/-- Characters other than the quote are read as they are. -/
theorem IsSingle.bares (hxs : '\'' ∉ xs) : IsSingle xs (xs.map .bare) := by
  induction xs with
  | nil => exact .nil
  | cons c xs ih =>
    have hc : c ≠ '\'' := fun h => hxs (by simp [h])
    exact (IsSingle.bare hc).append (ih fun h => hxs (List.mem_cons_of_mem _ h))

/-- A doubled quote is one. -/
theorem IsSingle.quotes : IsSingle ['\'', '\''] [.bare '\''] := by
  intro rest
  rfl

/-- A quote is the closing one if no other follows. -/
theorem IsSingle.close (h : IsSingle xs ps) (hbehind : headIs (· = '\'') behind = false) :
    readSingle? (xs ++ '\'' :: behind) = some (ps, xs.length + 1) := by
  have hclose : readSingle? ('\'' :: behind) = some ([], 1) := by
    cases behind with
    | nil => rfl
    | cons c rest =>
      have hc : c ≠ '\'' := by simpa [headIs] using hbehind
      rw [readSingle?, if_pos rfl]
      rintro _ _ heq
      exact hc (List.cons.inj heq).1
  rw [h, hclose, Option.map_some, List.append_nil, Nat.add_comm]

/-- A break of the text is pending behind the one that is dropped. -/
theorem Agrees.foldPieces_break (h : Agrees previous ('\n' :: rest) pending) :
    ∃ more, more ≠ [] ∧ pending.flush ++ ['\n'] = more ∧ ∀ pieces,
      foldPieces pending
          (((if !previous.any isBreak then ['\n'] else []) ++ ['\n']).map .bare ++ pieces)
        = foldPieces (.breaks (some '\n') more) pieces := by
  cases h with
  | @blanks _ _ bs hbreak halone hnext =>
    have hbs : bs = [] := halone fun h => by simpa [headIs, isBreak] using hnext h
    subst hbs
    refine ⟨['\n'], by simp, rfl, fun pieces => ?_⟩
    rw [hbreak]
    rfl
  | folded hhead => simp [headIs, isBreak] at hhead
  | @breaks _ more hmore _ => exact ⟨more ++ ['\n'], by simp, by cases more <;> simp_all [Pending.flush], fun _ => rfl⟩

/-- What stands inside single quotes is read as pieces that come to the text, behind what is
pending. -/
def FoldsTo (pending : Pending) (written cs : List Char) : Prop :=
  ∃ pieces, IsSingle written pieces ∧ foldPieces pending pieces = pending.flush ++ cs

section FoldsTo

variable {written : List Char}

/-- A blank that gave way to a line break is the first character of what is joined. -/
theorem FoldsTo.newLine (indent : Nat) (h : FoldsTo (.breaks (some '\n') []) written rest) :
    FoldsTo (.blanks []) ((newLine indent).toList ++ written) (' ' :: rest) := by
  obtain ⟨ps, hps, hfold⟩ := h
  have hline : IsSingle (Yaml.newLine indent).toList ((Yaml.newLine indent).toList.map .bare) := by
    refine .bares ?_
    rw [toList_newLine]
    simp
  refine ⟨_, hline.append hps, ?_⟩
  rw [foldPieces_newLine, hfold]
  rfl

theorem FoldsTo.blank {bs : List Char} (h : FoldsTo (.blanks (bs ++ [' '])) written rest) :
    FoldsTo (.blanks bs) ([' '] ++ written) (' ' :: rest) := by
  obtain ⟨ps, hps, hfold⟩ := h
  refine ⟨_, (IsSingle.bare (by decide)).append hps, ?_⟩
  rw [List.singleton_append, foldPieces_blank, hfold]
  simp [Pending.flush]

theorem FoldsTo.quote (h : FoldsTo (.blanks []) written rest) :
    FoldsTo pending (['\'', '\''] ++ written) ('\'' :: rest) := by
  obtain ⟨ps, hps, hfold⟩ := h
  refine ⟨_, IsSingle.quotes.append hps, ?_⟩
  rw [List.singleton_append, foldPieces_bare (by decide) (by decide) (by decide), hfold]
  rfl

theorem FoldsTo.bare (hquote : c ≠ '\'') (hblank : c ≠ ' ') (htab : c ≠ '\t')
    (hbreak : isBreak c = false) (h : FoldsTo (.blanks []) written rest) :
    FoldsTo pending ([c] ++ written) (c :: rest) := by
  obtain ⟨ps, hps, hfold⟩ := h
  refine ⟨_, (IsSingle.bare hquote).append hps, ?_⟩
  rw [List.singleton_append, foldPieces_bare hblank htab hbreak, hfold]
  rfl

/-- The indentation of a line is dropped. -/
theorem FoldsTo.indentation {first : Option Char} {more : List Char} (indent : Nat)
    (h : FoldsTo (.breaks first more) written cs) :
    FoldsTo (.breaks first more) (List.replicate indent ' ' ++ written) cs := by
  obtain ⟨ps, hps, hfold⟩ := h
  have hnoquote : '\'' ∉ List.replicate indent ' ' := by simp
  have hblanks := IsSingle.bares hnoquote
  rw [List.map_replicate] at hblanks
  exact ⟨_, hblanks.append hps, by rw [foldPieces_indentation, hfold]⟩

/-- The first break of a row is doubled, for one is dropped. -/
theorem FoldsTo.lineBreak (h : Agrees previous ('\n' :: rest) pending)
    (hnext : ∀ more, more ≠ [] → FoldsTo (.breaks (some '\n') more) written rest) :
    FoldsTo pending ((if !previous.any isBreak then ['\n'] else []) ++ ['\n'] ++ written)
      ('\n' :: rest) := by
  obtain ⟨more, hmore, hflush, hpieces⟩ := h.foldPieces_break
  obtain ⟨ps, hps, hfold⟩ := hnext more hmore
  have hfront : IsSingle ((if !previous.any isBreak then ['\n'] else []) ++ ['\n'])
      (((if !previous.any isBreak then ['\n'] else []) ++ ['\n']).map .bare) := by
    refine .bares ?_
    split <;> decide
  have hend : Pending.flush (.breaks (some '\n') more) = more := by
    simp [Pending.flush, hmore]
  refine ⟨_, hfront.append hps, ?_⟩
  rw [hpieces, hfold, hend, ← hflush, List.append_assoc, List.singleton_append]

end FoldsTo

/-- A text in single quotes is read as pieces that come to the text. -/
theorem foldsTo_singleFrom (indent column : Nat)
    (hcs : ∀ c ∈ cs, isSpecial c = false ∧ isSeparator c = false)
    (hn : hasNeighbours isAtBreak cs = false) (h : Agrees previous cs pending) :
    FoldsTo pending (singleFrom indent column previous cs).toList cs := by
  induction cs generalizing column previous pending with
  | nil => exact ⟨[], .nil, by simp [foldPieces]⟩
  | cons c rest ih =>
    obtain ⟨hspecial, hseparator⟩ := hcs c List.mem_cons_self
    have hrest : ∀ c ∈ rest, isSpecial c = false ∧ isSeparator c = false :=
      fun c hc => hcs c (List.mem_cons_of_mem _ hc)
    obtain ⟨hnhead, hnrest⟩ := hasNeighbours_cons.1 hn
    by_cases hblank : c = ' '
    · subst hblank
      obtain ⟨bs, rfl, halone⟩ := h.eq_blanks
      rw [headIs_isAtBreak_blank] at hnhead
      by_cases hfold : foldsAt column previous rest = true
      · obtain ⟨-, hprevious, hhead⟩ := foldsAt_iff.1 hfold
        rw [halone hprevious, singleFrom, if_pos (by simp [hfold]), String.toList_append]
        exact (ih indent hrest hnrest (.newLine hhead hnhead)).newLine indent
      · rw [singleFrom, if_neg (by simp [hfold]), if_neg (by decide), if_neg (by decide),
          String.toList_append, String.toList_singleton]
        exact (ih (column + 1) hrest hnrest (.blank _ hnhead)).blank
    · rw [singleFrom, if_neg (by simp [hblank])]
      by_cases hquote : c = '\''
      · subst hquote
        rw [if_pos rfl, String.toList_append]
        exact (ih (column + 2) hrest hnrest (.after (by decide) (by decide))).quote
      · rw [if_neg hquote]
        by_cases hbreak : isBreak c = true
        · have hc : c = '\n' := by simpa [isBreak_eq hseparator] using hbreak
          subst hc
          rw [headIs_isAtBreak_break] at hnhead
          have hdoubled :
              (if ('\n' = '\n' && !previous.any isBreak : Bool) = true then "\n" else "").toList
                = if (!previous.any isBreak) = true then ['\n'] else [] := by
            simp only [decide_true, Bool.true_and]
            split <;> rfl
          rw [if_pos hbreak, String.toList_append, String.toList_append, String.toList_singleton,
            hdoubled]
          refine .lineBreak h fun more hmore => ?_
          -- only the last break of a row is followed by the indentation
          by_cases hhead : headIs isBreak rest = true
          · rw [if_pos hhead]
            exact ih 0 hrest hnrest (.breaks hmore hnhead)
          · rw [if_neg hhead, String.toList_append, String.toList_ofList]
            exact (ih indent hrest hnrest (.breaks hmore hnhead)).indentation indent
        · have hbreak : isBreak c = false := by simpa using hbreak
          rw [if_neg (by simp [hbreak]), String.toList_append, String.toList_singleton]
          exact (ih (column + 1) hrest hnrest (.after hblank hbreak)).bare hquote hblank
            (ne_tab_of_isSpecial hspecial) hbreak

end Single

end VerilogLoops.Yaml
