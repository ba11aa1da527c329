import VerilogLoops.Proofs.Token.Cut
import VerilogLoops.Proofs.Token.Gap
import VerilogLoops.Text.Source

/-!
# Tokens and line ends of two characters

A line may end in a carriage return and a line feed. In a text in which carriage returns stand nowhere else
they may be left out: the same trivia and the same tokens are found, only shorter by the carriage returns in
them. For a carriage return is a blank as the line feed behind it is, and every token that may not go on over
the one may not go on over the other.

> `triviaLength_withoutReturns`, `Token.length?_withoutReturns`: trivia and tokens of the text without
> carriage returns.
-/

namespace VerilogLoops.Text

variable {cs rest : List Char} {c : Char} {m n : Nat} {p : Char → Bool}

/-- Every carriage return of the text has a line feed directly behind it. -/
def IsPaired (cs : List Char) : Prop := ∀ i, cs[i]? = some '\r' → cs[i + 1]? = some '\n'

instance : Decidable (IsPaired cs) :=
  decidable_of_iff (∀ i < cs.length, cs[i]? = some '\r' → cs[i + 1]? = some '\n')
    ⟨fun h i hi => h i (List.getElem?_eq_some_iff.1 hi).1 hi, fun h i _ => h i⟩

/-- The text without its carriage returns. -/
def withoutReturns (cs : List Char) : List Char := cs.filter (· ≠ '\r')

/-- The offset at which a character of the text stands once the carriage returns are gone. -/
def shifted (cs : List Char) (n : Nat) : Nat := (withoutReturns (cs.take n)).length

/-! ## Paired texts -/

theorem isPaired_cons : IsPaired (c :: cs) ↔ (c = '\r' → cs.head? = some '\n') ∧ IsPaired cs := by
  constructor
  · intro h
    refine ⟨fun hc => ?_, fun i hi => h (i + 1) hi⟩
    rw [List.head?_eq_getElem?]
    exact h 0 (congrArg some hc)
  · rintro ⟨hhead, htail⟩ i hi
    cases i with
    | zero =>
      rw [List.head?_eq_getElem?] at hhead
      exact hhead (Option.some.inj hi)
    | succ i => exact htail i hi

theorem IsPaired.tail (h : IsPaired (c :: cs)) : IsPaired cs := (isPaired_cons.1 h).2

theorem IsPaired.lineFeed (h : IsPaired ('\r' :: cs)) : ∃ more, cs = '\n' :: more :=
  List.head?_eq_some_iff.1 ((isPaired_cons.1 h).1 rfl)

theorem IsPaired.drop (h : IsPaired cs) (n : Nat) : IsPaired (cs.drop n) := by
  intro i hi
  rw [List.getElem?_drop] at hi ⊢
  exact h (n + i) hi

theorem isPaired_of_not_mem (h : '\r' ∉ cs) : IsPaired cs :=
  fun _ hi => absurd (List.mem_of_getElem? hi) h

/-- A paired text may be cut where no carriage return stands in front. -/
theorem IsPaired.take (h : IsPaired cs) (hn : 0 < n → cs[n - 1]? ≠ some '\r') : IsPaired (cs.take n) := by
  intro i hi
  rw [List.getElem?_take] at hi ⊢
  split at hi
  · next hlt =>
    have hne : i ≠ n - 1 := by
      rintro rfl
      exact hn (by omega) hi
    rw [if_pos (by omega), h i hi]
  · cases hi

/-- A paired text is empty, or begins with a line end of two characters, or with another character. -/
theorem IsPaired.cases (h : IsPaired cs) : cs = [] ∨
    (∃ rest, cs = '\r' :: '\n' :: rest ∧ IsPaired rest) ∨ ∃ c rest, cs = c :: rest ∧ c ≠ '\r' ∧ IsPaired rest := by
  cases cs with
  | nil => exact .inl rfl
  | cons c rest =>
    by_cases hc : c = '\r'
    · subst hc
      obtain ⟨more, rfl⟩ := h.lineFeed
      exact .inr (.inl ⟨more, rfl, h.tail.tail⟩)
    · exact .inr (.inr ⟨c, rest, rfl, hc, h.tail⟩)

/-! ## Without carriage returns -/

@[simp] theorem withoutReturns_nil : withoutReturns [] = [] := rfl

@[simp] theorem withoutReturns_return (cs : List Char) : withoutReturns ('\r' :: cs) = withoutReturns cs := rfl

theorem withoutReturns_cons (hc : c ≠ '\r') (cs : List Char) : withoutReturns (c :: cs) = c :: withoutReturns cs := by
  simp [withoutReturns, hc]

theorem withoutReturns_append (cs ds : List Char) :
    withoutReturns (cs ++ ds) = withoutReturns cs ++ withoutReturns ds :=
  List.filter_append ..

theorem withoutReturns_eq_self (h : '\r' ∉ cs) : withoutReturns cs = cs := by
  refine List.filter_eq_self.2 fun c hc => ?_
  rw [decide_eq_true_eq]
  rintro rfl
  exact h hc

/-- In a paired text line ends become line feeds by leaving the carriage returns out. -/
theorem normalizeLineEnds_eq (h : IsPaired cs) : normalizeLineEnds cs = withoutReturns cs := by
  fun_induction normalizeLineEnds cs with
  | case1 => rfl
  | case2 rest ih =>
    rw [ih h.tail.tail, withoutReturns_return, withoutReturns_cons (by decide)]
  | case3 c rest hne ih =>
    have hc : c ≠ '\r' := by
      rintro rfl
      obtain ⟨more, rfl⟩ := h.lineFeed
      exact hne more rfl rfl
    rw [if_neg hc, ih h.tail, withoutReturns_cons hc]

/-- Without a line feed behind it nothing was made a line feed. -/
theorem normalizeLineEnds_eq_self (h : '\n' ∉ normalizeLineEnds cs) : normalizeLineEnds cs = cs := by
  fun_induction normalizeLineEnds cs with
  | case1 => rfl
  | case2 rest ih => exact absurd (List.mem_cons_self ..) h
  | case3 c rest hne ih =>
    rw [List.mem_cons, not_or] at h
    by_cases hc : c = '\r'
    · exact absurd (if_pos hc).symm h.1
    · rw [if_neg hc, ih h.2]

@[simp] theorem shifted_zero (cs : List Char) : shifted cs 0 = 0 := rfl

theorem shifted_return (cs : List Char) (n : Nat) : shifted ('\r' :: cs) (1 + n) = shifted cs n := by
  rw [shifted, Nat.add_comm, List.take_succ_cons, withoutReturns_return, shifted]

theorem shifted_cons (hc : c ≠ '\r') (cs : List Char) (n : Nat) : shifted (c :: cs) (1 + n) = 1 + shifted cs n := by
  rw [shifted, Nat.add_comm, List.take_succ_cons, withoutReturns_cons hc, List.length_cons, shifted, Nat.add_comm]

theorem shifted_cons_cons {d : Char} (hc : c ≠ '\r') (hd : d ≠ '\r') (cs : List Char) (n : Nat) :
    shifted (c :: d :: cs) (2 + n) = 2 + shifted cs n := by
  rw [Nat.add_assoc 1 1, shifted_cons hc, shifted_cons hd, ← Nat.add_assoc]

theorem shifted_add (cs : List Char) (m n : Nat) : shifted cs (m + n) = shifted cs m + shifted (cs.drop m) n := by
  rw [shifted, List.take_add, withoutReturns_append, List.length_append, shifted, shifted]

/-- What stands in front of an offset is a beginning of the text. -/
theorem shifted_of_prefix {ds : List Char} (h : ds <+: cs) : shifted cs ds.length = (withoutReturns ds).length := by
  rw [shifted, ← List.prefix_iff_eq_take.1 h]

theorem shifted_min (cs : List Char) (n : Nat) : shifted cs (cs.take n).length = shifted cs n :=
  shifted_of_prefix (List.take_prefix n cs)

theorem drop_withoutReturns (cs : List Char) (n : Nat) :
    (withoutReturns cs).drop (shifted cs n) = withoutReturns (cs.drop n) := by
  conv => lhs; rw [← List.take_append_drop n cs, withoutReturns_append]
  rw [shifted, List.take_append_drop, List.drop_left]

theorem take_withoutReturns (cs : List Char) (n : Nat) :
    (withoutReturns cs).take (shifted cs n) = withoutReturns (cs.take n) := by
  conv => lhs; rw [← List.take_append_drop n cs, withoutReturns_append]
  rw [shifted, List.take_append_drop, List.take_left]

/-- A character that is no line end begins the text if it begins the text without carriage returns. -/
theorem IsPaired.cons_of_withoutReturns (h : IsPaired cs) (heq : withoutReturns cs = c :: rest) (hc : c ≠ '\n') :
    ∃ more, cs = c :: more ∧ withoutReturns more = rest ∧ IsPaired more := by
  rcases h.cases with rfl | ⟨more, rfl, -⟩ | ⟨d, more, rfl, hd, hmore⟩
  · cases heq
  · rw [withoutReturns_return, withoutReturns_cons (by decide)] at heq
    cases heq
    exact absurd rfl hc
  · rw [withoutReturns_cons hd] at heq
    cases heq
    exact ⟨more, rfl, rfl, hmore⟩

/-- So does a text without line ends. -/
theorem IsPaired.append_of_withoutReturns {text more : List Char} (h : IsPaired cs)
    (heq : withoutReturns cs = text ++ more) (hfeed : '\n' ∉ text) :
    ∃ rest, cs = text ++ rest ∧ withoutReturns rest = more ∧ IsPaired rest := by
  induction text generalizing cs with
  | nil => exact ⟨cs, rfl, heq, h⟩
  | cons c text ih =>
    rw [List.mem_cons, not_or] at hfeed
    obtain ⟨rest, rfl, heq, hrest⟩ := h.cons_of_withoutReturns heq (Ne.symm hfeed.1)
    obtain ⟨rest, rfl, heq, hrest⟩ := ih hrest heq hfeed.2
    exact ⟨rest, rfl, heq, hrest⟩

theorem not_mem_takeWhile (hc : p c = false) : c ∉ cs.takeWhile p := fun hmem => by
  have := List.all_eq_true.1 List.all_takeWhile c hmem
  rw [hc] at this
  cases this

/-- A run of a class that holds of carriage returns if it holds of line feeds is a run without them. -/
theorem takeWhile_withoutReturns (hp : p '\n' = true → p '\r' = true) (h : IsPaired cs) :
    (withoutReturns cs).takeWhile p = withoutReturns (cs.takeWhile p) := by
  induction cs with
  | nil => rfl
  | cons c cs ih =>
    by_cases hc : c = '\r'
    · subst hc
      rw [withoutReturns_return, ih h.tail]
      obtain ⟨more, rfl⟩ := h.lineFeed
      cases hreturn : p '\r' with
      | true => rw [List.takeWhile_cons_of_pos hreturn, withoutReturns_return]
      | false =>
        have hfeed : ¬p '\n' = true := fun hfeed => by
          rw [hp hfeed] at hreturn
          cases hreturn
        rw [List.takeWhile_cons_of_neg hfeed, List.takeWhile_cons_of_neg (by rw [hreturn]; decide)]
    · rw [withoutReturns_cons hc]
      cases hpc : p c with
      | true =>
        rw [List.takeWhile_cons_of_pos hpc, List.takeWhile_cons_of_pos hpc, withoutReturns_cons hc, ih h.tail]
      | false =>
        have hneg : ¬p c = true := by rw [hpc]; decide
        rw [List.takeWhile_cons_of_neg hneg, List.takeWhile_cons_of_neg hneg, withoutReturns_nil]

/-- A run goes on as far as before. -/
theorem length_takeWhile_withoutReturns (hp : p '\n' = true → p '\r' = true) (h : IsPaired cs) :
    ((withoutReturns cs).takeWhile p).length = shifted cs (cs.takeWhile p).length := by
  rw [takeWhile_withoutReturns hp h, shifted_of_prefix (List.takeWhile_prefix p)]

/-- A recogniser finds the same in a paired text whether the carriage returns are left out or not. -/
def Follows (f : List Char → Option Nat) : Prop :=
  ∀ ⦃cs⦄, IsPaired cs → f (withoutReturns cs) = (f cs).map (shifted cs)

theorem follows_of {f : List Char → Option Nat}
    (hsome : ∀ {cs n}, IsPaired cs → f cs = some n → f (withoutReturns cs) = some (shifted cs n))
    (hback : ∀ {cs n}, IsPaired cs → f (withoutReturns cs) = some n → ∃ m, f cs = some m) : Follows f := by
  intro cs h
  cases hf : f cs with
  | some n => exact hsome h hf
  | none =>
    cases hf' : f (withoutReturns cs) with
    | none => rfl
    | some n =>
      obtain ⟨m, hm⟩ := hback h hf'
      rw [hf] at hm
      cases hm

theorem Follows.or {f g : List Char → Option Nat} (hf : Follows f) (hg : Follows g) :
    Follows fun cs => (f cs).or (g cs) := by
  intro cs h
  show (f _).or (g _) = ((f cs).or (g cs)).map _
  rw [hf h, hg h]
  cases f cs <;> rfl

theorem Follows.getD {f : List Char → Option Nat} (hf : Follows f) (h : IsPaired cs) :
    (f (withoutReturns cs)).getD 0 = shifted cs ((f cs).getD 0) := by
  rw [hf h]
  cases f cs <;> rfl

/-- A recogniser that does not go on over a line end: carriage returns make no difference to it, and none is in
what it finds. -/
structure Unbroken (f : List Char → Option Nat) : Prop where
  same : ∀ {cs}, IsPaired cs → f (withoutReturns cs) = f cs
  clean : ∀ {cs n}, IsPaired cs → f cs = some n → '\r' ∉ cs.take n

theorem Unbroken.follows {f : List Char → Option Nat} (hf : Unbroken f)
    (hle : ∀ {cs n}, f cs = some n → n ≤ cs.length) : Follows f := by
  intro cs h
  rw [hf.same h]
  cases hn : f cs with
  | none => rfl
  | some n =>
    rw [Option.map_some, shifted, withoutReturns_eq_self (hf.clean h hn), List.length_take, Nat.min_eq_left (hle hn)]

/-- What begins with a mark is the same without carriage returns if what stands behind the mark is. -/
theorem same_of_mark {f : List Char → Option Nat} (mark : Char) (hmark : mark ≠ '\r' ∧ mark ≠ '\n')
    (hnil : f [] = none) (hother : ∀ c rest, c ≠ mark → f (c :: rest) = none)
    (hsame : ∀ rest, IsPaired rest → f (mark :: withoutReturns rest) = f (mark :: rest)) (h : IsPaired cs) :
    f (withoutReturns cs) = f cs := by
  rcases h.cases with rfl | ⟨rest, rfl, -⟩ | ⟨c, rest, rfl, hc, hrest⟩
  · rw [withoutReturns_nil, hnil]
  · rw [withoutReturns_return, withoutReturns_cons (by decide), hother _ _ hmark.2.symm, hother _ _ hmark.1.symm]
  · rw [withoutReturns_cons hc]
    by_cases hcm : c = mark
    · rw [hcm, hsame rest hrest]
    · rw [hother _ _ hcm, hother _ _ hcm]

/-- Without line ends in it, a run is the same without carriage returns. -/
theorem takeWhile_unbroken (hreturn : p '\r' = false) (hfeed : p '\n' = false) (h : IsPaired cs) :
    (withoutReturns cs).takeWhile p = cs.takeWhile p := by
  rw [takeWhile_withoutReturns (fun hp => absurd hp (by rw [hfeed]; decide)) h]
  exact withoutReturns_eq_self (not_mem_takeWhile hreturn)

/-! ## Trivia -/

theorem follows_lineComment : Follows lineComment? := by
  refine follows_of (fun {cs n} h hn => ?_) fun {cs n} h hn => ?_
  · unfold lineComment? at hn
    split at hn
    · next rest =>
      cases hn
      have hrun := length_takeWhile_withoutReturns (p := (· ≠ '\n')) (by decide) h.tail.tail
      rw [withoutReturns_cons (by decide), withoutReturns_cons (by decide), lineComment?, hrun,
        shifted_cons_cons (by decide) (by decide)]
    · cases hn
  · unfold lineComment? at hn
    split at hn
    · next rest heq =>
      obtain ⟨more, rfl, heq, hmore⟩ := h.cons_of_withoutReturns heq (by decide)
      obtain ⟨more, rfl, -, -⟩ := hmore.cons_of_withoutReturns heq (by decide)
      exact ⟨_, rfl⟩
    · cases hn

/-- A line end parts a star and a slash, with and without a carriage return. -/
theorem follows_blockEnd : Follows blockEnd? := by
  intro cs h
  fun_induction blockEnd? cs with
  | case1 rest =>
    rw [withoutReturns_cons (by decide), withoutReturns_cons (by decide), blockEnd?]
    rfl
  | case2 c rest hne ih =>
    have hrest := h.tail
    by_cases hc : c = '\r'
    · subst hc
      rw [withoutReturns_return, ih hrest, Option.map_map]
      simp only [Function.comp_def, Nat.add_comm _ 1, shifted_return]
    · rw [withoutReturns_cons hc, blockEnd?, ih hrest, Option.map_map, Option.map_map]
      · simp only [Function.comp_def, Nat.add_comm _ 1, shifted_cons hc]
      · intro more hstar heq
        obtain ⟨more, rfl, -⟩ := hrest.cons_of_withoutReturns heq (by decide)
        exact hne more hstar rfl
  | case3 => rfl

theorem follows_blockComment : Follows blockComment? := by
  refine follows_of (fun {cs n} h hn => ?_) fun {cs n} h hn => ?_
  · unfold blockComment? at hn
    split at hn
    · next rest =>
      obtain ⟨m, hm, rfl⟩ := Option.map_eq_some_iff.1 hn
      rw [withoutReturns_cons (by decide), withoutReturns_cons (by decide), blockComment?,
        follows_blockEnd h.tail.tail, hm, shifted_cons_cons (by decide) (by decide)]
      rfl
    · cases hn
  · unfold blockComment? at hn
    split at hn
    · next rest heq =>
      obtain ⟨more, rfl, heq, hmore⟩ := h.cons_of_withoutReturns heq (by decide)
      obtain ⟨more, rfl, rfl, hmore⟩ := hmore.cons_of_withoutReturns heq (by decide)
      rw [follows_blockEnd hmore] at hn
      obtain ⟨m, hm, -⟩ := Option.map_eq_some_iff.1 hn
      obtain ⟨m, hm, -⟩ := Option.map_eq_some_iff.1 hm
      exact ⟨2 + m, by rw [blockComment?, hm, Option.map_some]⟩
    · cases hn

theorem follows_comment : Follows comment? := follows_lineComment.or follows_blockComment

/-- **Trivia goes on as far as before.** The characters that are known to belong to a comment are as many as
are left of them. -/
theorem triviaFrom_withoutReturns (h : IsPaired cs) (inside : Nat) :
    triviaFrom comment? (shifted cs inside) (withoutReturns cs) = shifted cs (triviaFrom comment? inside cs) := by
  induction cs generalizing inside with
  | nil => simp [triviaFrom]
  | cons c cs ih =>
    have hrest := h.tail
    cases inside with
    | succ inside =>
      rw [triviaFrom, Nat.add_comm inside]
      by_cases hc : c = '\r'
      · subst hc
        rw [shifted_return, shifted_return, withoutReturns_return, ih hrest]
      · rw [shifted_cons hc, shifted_cons hc, withoutReturns_cons hc, Nat.add_comm 1, triviaFrom, ih hrest]
    | zero =>
      have hzero := ih hrest 0
      rw [shifted_zero] at hzero ⊢
      by_cases hc : c = '\r'
      · -- outside comments a carriage return is a blank
        subst hc
        rw [withoutReturns_return, hzero, triviaFrom, if_pos (by decide), shifted_return]
      · rw [withoutReturns_cons hc, triviaFrom, triviaFrom, hzero, ← withoutReturns_cons hc, follows_comment h]
        split
        · rw [shifted_cons hc]
        · cases hn : comment? (c :: cs) with
          | none => rfl
          | some n =>
            obtain ⟨k, rfl⟩ : ∃ k, n = 1 + k := ⟨n - 1, by have := comment?_pos hn; omega⟩
            simp only [Option.map_some, shifted_cons hc, Nat.add_sub_cancel_left, ih hrest]

theorem triviaLength_withoutReturns (h : IsPaired cs) :
    triviaLength (withoutReturns cs) = shifted cs (triviaLength cs) :=
  triviaFrom_withoutReturns h 0

theorem IsTrivia.withoutReturns (ht : IsTrivia cs) (h : IsPaired cs) : IsTrivia (withoutReturns cs) := by
  rw [IsTrivia, triviaLength_withoutReturns h, ht, shifted, List.take_length]

end VerilogLoops.Text

namespace VerilogLoops.Lexical

open VerilogLoops.Text

variable {cs rest : List Char} {c : Char} {m n : Nat} {p : Char → Bool} {t : Token}

/-! ## Names and strings -/

/-- A character of one class and a run of another one behind it. -/
def headRun? (q p : Char → Bool) : List Char → Option Nat
  | c :: rest => if q c then some (1 + runLength p rest) else none
  | [] => none

theorem take_runLength (p : Char → Bool) (cs : List Char) : cs.take (runLength p cs) = cs.takeWhile p :=
  (List.prefix_iff_eq_take.1 (List.takeWhile_prefix p)).symm

theorem unbroken_headRun {q : Char → Bool} (hq : q '\r' = false ∧ q '\n' = false)
    (hp : p '\r' = false ∧ p '\n' = false) : Unbroken (headRun? q p) where
  same := by
    intro cs h
    rcases h.cases with rfl | ⟨rest, rfl, -⟩ | ⟨c, rest, rfl, hc, hrest⟩
    · rfl
    · rw [withoutReturns_return, withoutReturns_cons (by decide), headRun?, headRun?, hq.1, hq.2]
      rfl
    · rw [withoutReturns_cons hc, headRun?, headRun?, runLength, takeWhile_unbroken hp.1 hp.2 hrest, runLength]
  clean := by
    intro cs n _ hn
    cases cs with
    | nil => cases hn
    | cons c rest =>
      rw [headRun?] at hn
      split at hn
      · next hc =>
        cases hn
        rw [Nat.add_comm, List.take_succ_cons, take_runLength, List.mem_cons, not_or]
        refine ⟨?_, not_mem_takeWhile hp.1⟩
        rintro rfl
        rw [hq.1] at hc
        cases hc
      · cases hn

theorem unbroken_identifier : Unbroken identifier? := by
  have heq : identifier? = headRun? isIdentifierStart isIdentifierCharacter := by
    funext cs
    cases cs <;> rfl
  rw [heq]
  exact unbroken_headRun (by decide) (by decide)

theorem unbroken_escapedIdentifier : Unbroken escapedIdentifier? where
  same := same_of_mark '\\' (by decide) rfl (fun c rest hc => by simp [escapedIdentifier?, hc]) fun rest hrest => by
    rw [escapedIdentifier?, takeWhile_unbroken (by decide) (by decide) hrest, escapedIdentifier?]
  clean := by
    intro cs n _ hn
    unfold escapedIdentifier? at hn
    split at hn
    · split at hn
      · cases hn
      · cases hn
        rw [Nat.add_comm, List.take_succ_cons, ← runLength, take_runLength, List.mem_cons, not_or]
        exact ⟨by decide, not_mem_takeWhile (by decide)⟩
    · cases hn

theorem unbroken_systemName : Unbroken systemName? where
  same := same_of_mark '$' (by decide) rfl (fun c rest hc => by simp [systemName?, hc]) fun rest hrest => by
    rw [systemName?, takeWhile_unbroken (by decide) (by decide) hrest, systemName?]
  clean := by
    intro cs n _ hn
    unfold systemName? at hn
    split at hn
    · split at hn
      · cases hn
      · split at hn
        · cases hn
        · cases hn
          rw [Nat.add_comm, List.take_succ_cons, ← runLength, take_runLength, List.mem_cons, not_or]
          exact ⟨by decide, not_mem_takeWhile (by decide)⟩
    · cases hn

theorem stringEnd?_plain (hquote : c ≠ '"') (hslash : c ≠ '\\') (hfeed : c ≠ '\n') (cs : List Char) :
    stringEnd? (c :: cs) = (stringEnd? cs).map (1 + ·) := by
  rw [stringEnd?.eq_def]
  split <;> simp_all

theorem ne_slash_of_plain (hslash : c = '\\' → cs = [] → False)
    (hescape : ∀ d rest, c = '\\' → cs = d :: rest → False) : c ≠ '\\' := fun hc => by
  cases cs with
  | nil => exact hslash hc rfl
  | cons d rest => exact hescape d rest hc rfl

/-- A string does not go on over a line end, hidden or not. -/
theorem unbroken_stringEnd : Unbroken stringEnd? where
  same := by
    intro cs h
    fun_induction stringEnd? cs with
    | case1 => rfl
    | case2 rest =>
      rw [withoutReturns_cons (by decide)]
      rfl
    | case3 => rfl
    | case4 rest =>
      rw [withoutReturns_cons (by decide), withoutReturns_cons (by decide)]
      rfl
    | case5 c rest hc ih =>
      -- a hidden carriage return does not end the string, but the line feed behind it does
      rw [withoutReturns_cons (by decide)]
      by_cases hreturn : c = '\r'
      · subst hreturn
        obtain ⟨more, rfl⟩ := h.tail.lineFeed
        rw [withoutReturns_return, withoutReturns_cons (by decide)]
        rfl
      · rw [withoutReturns_cons hreturn, stringEnd?, if_neg hc, ih h.tail.tail]
    | case6 rest =>
      rw [withoutReturns_cons (by decide)]
      rfl
    | case7 c rest hquote hslash hescape hc ih =>
      by_cases hreturn : c = '\r'
      · subst hreturn
        obtain ⟨more, rfl⟩ := h.lineFeed
        rw [withoutReturns_return, withoutReturns_cons (by decide)]
        rfl
      · rw [withoutReturns_cons hreturn, stringEnd?_plain hquote (ne_slash_of_plain hslash hescape) hc, ih h.tail]
  clean := by
    intro cs n h hn
    fun_induction stringEnd? cs generalizing n with
    | case1 => cases hn
    | case2 rest =>
      cases hn
      simp
    | case3 => cases hn
    | case4 => cases hn
    | case5 c rest hc ih =>
      obtain ⟨m, hm, rfl⟩ := Option.map_eq_some_iff.1 hn
      rw [Nat.add_comm, List.take_succ_cons, List.take_succ_cons, List.mem_cons, List.mem_cons, not_or, not_or]
      refine ⟨by decide, ?_, ih h.tail.tail hm⟩
      rintro rfl
      obtain ⟨more, rfl⟩ := h.tail.lineFeed
      cases hm
    | case6 => cases hn
    | case7 c rest hquote hslash hescape hc ih =>
      obtain ⟨m, hm, rfl⟩ := Option.map_eq_some_iff.1 hn
      rw [Nat.add_comm, List.take_succ_cons, List.mem_cons, not_or]
      refine ⟨?_, ih h.tail hm⟩
      rintro rfl
      obtain ⟨more, rfl⟩ := h.lineFeed
      cases hm

theorem unbroken_string : Unbroken string? where
  same := same_of_mark '"' (by decide) rfl (fun c rest hc => by simp [string?, hc]) fun rest hrest => by
    rw [string?, unbroken_stringEnd.same hrest, string?]
  clean := by
    intro cs n h hn
    unfold string? at hn
    split at hn
    · obtain ⟨m, hm, rfl⟩ := Option.map_eq_some_iff.1 hn
      rw [Nat.add_comm, List.take_succ_cons, List.mem_cons, not_or]
      exact ⟨by decide, unbroken_stringEnd.clean h.tail hm⟩
    · cases hn

/-! ## Numbers -/

theorem runLength_withoutReturns (hp : p '\n' = true → p '\r' = true) (h : IsPaired cs) :
    runLength p (withoutReturns cs) = shifted cs (runLength p cs) :=
  length_takeWhile_withoutReturns hp h

theorem unbroken_decimal : Unbroken decimal? := by
  have heq : decimal? = headRun? isDecimalDigit fun d => isDecimalDigit d || d = '_' := by
    funext cs
    cases cs <;> rfl
  rw [heq]
  exact unbroken_headRun (by decide) (by decide)

theorem unbroken_basedDigits : Unbroken basedDigits? := by
  have heq : basedDigits? = headRun? isBasedDigit fun d => isBasedDigit d || d = '_' := by
    funext cs
    cases cs <;> rfl
  rw [heq]
  exact unbroken_headRun (by decide) (by decide)

theorem follows_decimal : Follows decimal? := unbroken_decimal.follows fun h => (decimal?_within h).2

theorem follows_basedDigits : Follows basedDigits? := unbroken_basedDigits.follows fun h => (basedDigits?_within h).2

theorem follows_fraction : Follows fraction? := by
  intro cs h
  rcases h.cases with rfl | ⟨rest, rfl, -⟩ | ⟨c, rest, rfl, hc, hrest⟩
  · rfl
  · rfl
  · rw [withoutReturns_cons hc]
    by_cases hpoint : c = '.'
    · subst hpoint
      rw [fraction?, fraction?, follows_decimal hrest, Option.map_map, Option.map_map]
      simp only [Function.comp_def, shifted_cons hc]
    · simp [fraction?, hpoint]

theorem signLength_withoutReturns (h : IsPaired cs) :
    signLength (withoutReturns cs) = shifted cs (signLength cs) := by
  rcases h.cases with rfl | ⟨rest, rfl, -⟩ | ⟨c, rest, rfl, hc, hrest⟩
  · rfl
  · rfl
  · rw [withoutReturns_cons hc, signLength, signLength, List.head?_cons, List.head?_cons]
    split
    · exact (shifted_cons hc rest 0).symm
    · rfl

theorem follows_exponent : Follows exponent? := by
  intro cs h
  rcases h.cases with rfl | ⟨rest, rfl, -⟩ | ⟨c, rest, rfl, hc, hrest⟩
  · rfl
  · rfl
  · rw [withoutReturns_cons hc, exponent?_cons, exponent?_cons]
    split
    · rw [signLength_withoutReturns hrest, drop_withoutReturns, follows_decimal (hrest.drop _), Option.map_map,
        Option.map_map]
      simp only [Function.comp_def, Nat.add_assoc, shifted_cons hc, shifted_add]
    · rfl

theorem follows_scientificNumber : Follows scientificNumber? := by
  intro cs h
  unfold scientificNumber?
  rw [follows_decimal h]
  cases hw : decimal? cs with
  | none => rfl
  | some w =>
    simp only [Option.map_some, Option.bind_eq_bind, Option.bind_some, drop_withoutReturns,
      follows_fraction.getD (h.drop w), ← shifted_add, follows_exponent (h.drop _)]
    cases he : exponent? (cs.drop (w + (fraction? (cs.drop w)).getD 0)) with
    | none => rfl
    | some e => simp [shifted_add]

theorem follows_fractionalNumber : Follows fractionalNumber? := by
  intro cs h
  unfold fractionalNumber?
  rw [follows_decimal h]
  cases hw : decimal? cs with
  | none => rfl
  | some w =>
    simp only [Option.map_some, Option.bind_eq_bind, Option.bind_some, drop_withoutReturns,
      follows_fraction (h.drop w)]
    cases hf : fraction? (cs.drop w) with
    | none => rfl
    | some f => simp [shifted_add]

theorem unbroken_base : Unbroken base? where
  same := same_of_mark '\'' (by decide) rfl (fun c rest hc => by simp [base?, hc]) fun rest hrest => by
    rcases hrest.cases with rfl | ⟨more, rfl, -⟩ | ⟨d, more, rfl, hd, hmore⟩
    · rfl
    · rfl
    · rw [withoutReturns_cons hd]
      rcases hmore.cases with rfl | ⟨last, rfl, -⟩ | ⟨e, last, rfl, he, -⟩
      · rfl
      · rfl
      · rw [withoutReturns_cons he]
        rfl
  clean := by
    intro cs n _ hn
    -- what a base consists of is known, and a carriage return is none of it
    have letter : ∀ {d}, "bBoOdDhH".toList.contains d = true → '\r' ≠ d := by
      rintro d hd rfl
      exact absurd hd (by decide)
    unfold base? at hn
    split at hn
    · next c rest _ =>
      split at hn
      · next hc =>
        cases hn
        simp [letter hc]
      · split at hn
        · next hs =>
          split at hn
          · next d rest _ =>
            split at hn
            · next hd =>
              cases hn
              have hc : '\r' ≠ c := by
                rintro rfl
                exact absurd hs (by decide)
              simp [hc, letter hd]
            · cases hn
          · cases hn
        · cases hn
    · cases hn

theorem follows_basedNumber : Follows basedNumber? := by
  have hwhite : isWhiteSpace '\n' = true → isWhiteSpace '\r' = true := by decide
  have follows_base : Follows base? := unbroken_base.follows fun h => (base?_within h).2
  intro cs h
  -- the blanks around the base are the one place in a number where a line may end
  rw [basedNumber?, basedNumber?]
  dsimp only
  rw [follows_decimal.getD h]
  generalize (decimal? cs).getD 0 = size
  rw [drop_withoutReturns, runLength_withoutReturns hwhite (h.drop size), ← shifted_add]
  generalize size + runLength isWhiteSpace (cs.drop size) = head
  rw [drop_withoutReturns, follows_base (h.drop head)]
  cases base? (cs.drop head) with
  | none => rfl
  | some b =>
    simp only [Option.map_some, Option.bind_eq_bind, Option.bind_some, ← shifted_add]
    rw [drop_withoutReturns, runLength_withoutReturns hwhite (h.drop _), ← shifted_add]
    generalize head + b + runLength isWhiteSpace (cs.drop (head + b)) = gap
    rw [drop_withoutReturns, follows_basedDigits (h.drop gap)]
    cases basedDigits? (cs.drop gap) with
    | none => rfl
    | some d => simp [shifted_add]

theorem unbroken_unbasedBit : Unbroken unbasedBit? where
  same := same_of_mark '\'' (by decide) rfl (fun c rest hc => by simp [unbasedBit?, hc]) fun rest hrest => by
    rcases hrest.cases with rfl | ⟨more, rfl, -⟩ | ⟨d, more, rfl, hd, -⟩
    · rfl
    · rfl
    · rw [withoutReturns_cons hd]
      rfl
  clean := by
    intro cs n _ hn
    unfold unbasedBit? at hn
    split at hn
    · next c rest _ =>
      split at hn
      · next hc =>
        cases hn
        have hne : '\r' ≠ c := by
          rintro rfl
          exact absurd hc (by decide)
        simp [hne]
      · cases hn
    · cases hn

theorem follows_number : Follows number? :=
  follows_basedNumber.or (follows_scientificNumber.or (follows_fractionalNumber.or
    (follows_decimal.or (unbroken_unbasedBit.follows fun h => (unbasedBit?_within h).2))))

theorem fraction?_ends (h : fraction? cs = some n) : ∃ d, n = 1 + d ∧ decimal? (cs.drop 1) = some d := by
  unfold fraction? at h
  split at h
  · obtain ⟨d, hd, rfl⟩ := Option.map_eq_some_iff.1 h
    exact ⟨d, rfl, hd⟩
  · cases h

theorem exponent?_ends (h : exponent? cs = some n) : ∃ m d, n = m + d ∧ decimal? (cs.drop m) = some d := by
  cases cs with
  | nil => cases h
  | cons c rest =>
    rw [exponent?_cons] at h
    split at h
    · obtain ⟨d, hd, rfl⟩ := Option.map_eq_some_iff.1 h
      exact ⟨1 + signLength rest, d, rfl, by rw [Nat.add_comm, List.drop_succ_cons, hd]⟩
    · cases h

/-- A number ends in digits. -/
theorem number?_ends (h : number? cs = some n) : ∃ m d, n = m + d ∧
    (decimal? (cs.drop m) = some d ∨ basedDigits? (cs.drop m) = some d ∨ unbasedBit? (cs.drop m) = some d) := by
  simp only [number?, Option.or_eq_some_iff] at h
  rcases h with h | ⟨-, h | ⟨-, h | ⟨-, h | ⟨-, h⟩⟩⟩⟩
  · obtain ⟨_, _, _, gap, d, _, _, _, _, hd, rfl⟩ := basedNumber?_eq_some.1 h
    exact ⟨gap, d, rfl, .inr (.inl hd)⟩
  · obtain ⟨w, f, e, _, _, he, rfl⟩ := scientificNumber?_eq_some.1 h
    obtain ⟨m, d, rfl, hd⟩ := exponent?_ends he
    exact ⟨w + f + m, d, by omega, .inl (by rw [← List.drop_drop, hd])⟩
  · simp only [fractionalNumber?, Option.bind_eq_bind, Option.bind_eq_some_iff, Option.pure_def,
      Option.some.injEq] at h
    obtain ⟨w, _, f, hf, rfl⟩ := h
    obtain ⟨d, rfl, hd⟩ := fraction?_ends hf
    exact ⟨w + 1, d, by omega, .inl (by rw [← List.drop_drop, hd])⟩
  · exact ⟨0, n, (Nat.zero_add n).symm, .inl h⟩
  · exact ⟨0, n, (Nat.zero_add n).symm, .inr (.inr h)⟩

/-- There may be line ends in a number, but none of them is cut in two. -/
theorem isPaired_number (h : IsPaired cs) (hn : number? cs = some n) : IsPaired (cs.take n) := by
  obtain ⟨m, d, rfl, hd⟩ := number?_ends hn
  have hclean : '\r' ∉ (cs.drop m).take d := by
    rcases hd with hd | hd | hd
    · exact unbroken_decimal.clean (h.drop m) hd
    · exact unbroken_basedDigits.clean (h.drop m) hd
    · exact unbroken_unbasedBit.clean (h.drop m) hd
  have hpos : 0 < d := by
    rcases hd with hd | hd | hd
    · exact (decimal?_within hd).1
    · exact (basedDigits?_within hd).1
    · exact (unbasedBit?_within hd).1
  refine h.take fun _ hlast => hclean ?_
  refine List.mem_of_getElem? (i := d - 1) ?_
  rw [List.getElem?_take, if_pos (by omega), List.getElem?_drop, ← hlast]
  congr 1
  omega

/-! ## All tokens -/

/-- A spelling that fits has no line end in it and bars none. -/
def Spelling.isUnbroken (s : Spelling) : Bool :=
  !s.text.contains '\r' && !s.text.contains '\n' && !s.barrier.bars '\r' && !s.barrier.bars '\n'

theorem Token.spellings_unbroken : ∀ t : Token, t.spellings.all Spelling.isUnbroken = true := by
  simp only [← Token.spelled_eq]
  decide +kernel

theorem Spelling.fits_withoutReturns {s : Spelling} (hs : s.isUnbroken = true) (h : IsPaired cs) :
    s.fits (withoutReturns cs) = s.fits cs := by
  simp only [isUnbroken, Bool.and_eq_true, Bool.not_eq_true', List.contains_eq_mem, decide_eq_false_iff_not] at hs
  obtain ⟨⟨⟨hreturn, hfeed⟩, hbarreturn⟩, hbarfeed⟩ := hs
  rw [Bool.eq_iff_iff, Spelling.fits_iff, Spelling.fits_iff]
  constructor
  · rintro ⟨more, heq, hbar⟩
    obtain ⟨rest, rfl, rfl, hrest⟩ := h.append_of_withoutReturns heq hfeed
    refine ⟨rest, rfl, fun c hc => ?_⟩
    rcases hrest.cases with rfl | ⟨_, rfl, -⟩ | ⟨d, rest, rfl, hd, -⟩
    · cases hc
    · cases hc
      exact hbarreturn
    · exact hbar c (by rw [withoutReturns_cons hd]; exact hc)
  · rintro ⟨rest, rfl, hbar⟩
    refine ⟨withoutReturns rest, by rw [withoutReturns_append, withoutReturns_eq_self hreturn], fun c hc => ?_⟩
    have hrest : IsPaired rest := by simpa using h.drop s.text.length
    rcases hrest.cases with rfl | ⟨_, rfl, -⟩ | ⟨d, rest, rfl, hd, -⟩
    · cases hc
    · cases hc
      exact hbarfeed
    · exact hbar c (by rw [withoutReturns_cons hd] at hc; exact hc)

theorem unbroken_firstFit {spellings : List Spelling} (hs : spellings.all Spelling.isUnbroken = true) :
    Unbroken (firstFit spellings) where
  same := by
    intro cs h
    have hfind : spellings.find? (·.fits (withoutReturns cs)) = spellings.find? (·.fits cs) := by
      induction spellings with
      | nil => rfl
      | cons s spellings ih =>
        rw [List.all_cons, Bool.and_eq_true] at hs
        rw [List.find?_cons, List.find?_cons, Spelling.fits_withoutReturns hs.1 h, ih hs.2]
    rw [firstFit, hfind, firstFit]
  clean := by
    intro cs n _ hn
    obtain ⟨s, hmem, hfits, rfl⟩ := firstFit_eq_some hn
    obtain ⟨rest, rfl, -⟩ := Spelling.fits_iff.1 hfits
    have hreturn := List.all_eq_true.1 hs s hmem
    simp only [Spelling.isUnbroken, Bool.and_eq_true, Bool.not_eq_true', List.contains_eq_mem,
      decide_eq_false_iff_not] at hreturn
    rw [List.take_left]
    exact hreturn.1.1.1

/-- Only comments and numbers go on over line ends. -/
def Token.isUnbroken (t : Token) : Bool := t ≠ .lineComment && t ≠ .blockComment && t ≠ .number

theorem Token.unbroken {t : Token} (ht : t.isUnbroken = true) : Unbroken t.length? := by
  cases t with
  | lineComment | blockComment | number => cases ht
  | identifier => exact unbroken_identifier
  | escapedIdentifier => exact unbroken_escapedIdentifier
  | systemName => exact unbroken_systemName
  | string => exact unbroken_string
  | endOfInput =>
    refine ⟨fun {cs} h => ?_, fun {cs n} _ hn => ?_⟩
    · rcases h.cases with rfl | ⟨rest, rfl, -⟩ | ⟨c, rest, rfl, hc, -⟩
      · rfl
      · rfl
      · rw [withoutReturns_cons hc]
        rfl
    · rw [(length?_endOfInput.1 hn).2]
      simp
  | _ => exact unbroken_firstFit (Token.spellings_unbroken _)

/-- **A token is found without the carriage returns as it is found with them**, and is shorter by those in it. -/
theorem Token.length?_withoutReturns (t : Token) : Follows t.length? := by
  by_cases ht : t.isUnbroken = true
  · exact (Token.unbroken ht).follows Token.length?_le
  · simp only [Token.isUnbroken, Bool.and_eq_true, decide_eq_true_eq, not_and, Classical.not_not] at ht
    by_cases hline : t = .lineComment
    · exact hline ▸ follows_lineComment
    · by_cases hblock : t = .blockComment
      · exact hblock ▸ follows_blockComment
      · exact ht ⟨hline, hblock⟩ ▸ follows_number

end VerilogLoops.Lexical
