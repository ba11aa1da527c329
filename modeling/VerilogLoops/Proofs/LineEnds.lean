import VerilogLoops.Proofs.Moving
import VerilogLoops.Proofs.Spans
import VerilogLoops.Proofs.Token.LineEnds
import VerilogLoops.Proofs.Unplaced

/-!
# Line ends do not matter

A text whose lines end in a carriage return and a line feed is longer than the text with plain line feeds, and
everything in it stands at another offset. But the same tokens stand in the same lines and columns, since a
carriage return is the last character of its line. So both texts have the same parse tree up to offsets. The one
token that may hold a line end is a number, and its text is kept as it is written; so the syntax trees differ
in the texts of such numbers and in nothing else.

> `Derives.unreturned`: leaving out the carriage returns is a simulation of matching;
> `parse_line_ends`: a text and the text with plain line feeds have the same syntax tree.
-/

namespace VerilogLoops.Text

variable {cs : List Char} {n : Nat} {loc : Location}

/-- The line feed behind a carriage return makes its column immaterial. -/
theorem Location.behind_withoutReturns (h : IsPaired cs) : loc.behind (withoutReturns cs) = loc.behind cs := by
  induction cs generalizing loc with
  | nil => rfl
  | cons c cs ih =>
    by_cases hc : c = '\r'
    · subst hc
      obtain ⟨more, rfl⟩ := h.lineFeed
      rw [withoutReturns_return, ih h.tail]
      rfl
    · rw [withoutReturns_cons hc]
      exact ih h.tail

/-- An offset that no line end is cut at keeps its place. -/
theorem Location.ofOffset_withoutReturns (h : IsPaired (cs.take n)) :
    Location.ofOffset (withoutReturns cs) (shifted cs n) = Location.ofOffset cs n := by
  rw [ofOffset, take_withoutReturns, behind_withoutReturns h, ofOffset]

end VerilogLoops.Text

namespace VerilogLoops.Grammar

open VerilogLoops.Text VerilogLoops.Lexical

variable {text : List Char} {x : Pattern} {s a : Place} {k : Token} {l : Leaf} {ls : List Leaf}
  {ts : List ParseTree} {r : Option (List ParseTree × Place)} {n : Nat}

/-! ## Matching -/

/-- The place in the text without carriage returns. -/
def Place.unreturned (text : List Char) (s : Place) : Place := ⟨shifted text s.offset, withoutReturns s.rest⟩

mutual

/-- The tree in the text without carriage returns. -/
def ParseTree.unreturned (text : List Char) : ParseTree → ParseTree
  | .leaf k start word => .leaf k (shifted text start) (String.ofList (withoutReturns word.toList))
  | .node label ts => .node label (unreturnedAll text ts)

/-- The trees in the text without carriage returns. -/
def unreturnedAll (text : List Char) : List ParseTree → List ParseTree
  | [] => []
  | t :: ts => t.unreturned text :: unreturnedAll text ts

end

@[simp] theorem unreturnedAll_append (ts us : List ParseTree) :
    unreturnedAll text (ts ++ us) = unreturnedAll text ts ++ unreturnedAll text us := by
  induction ts with
  | nil => rfl
  | cons t ts ih => rw [List.cons_append, unreturnedAll, ih, unreturnedAll, List.cons_append]

/-- The verdict in the text without carriage returns. -/
def unreturnedVerdict (text : List Char) (r : Option (List ParseTree × Place)) : Option (List ParseTree × Place) :=
  r.map fun found => (unreturnedAll text found.1, found.2.unreturned text)

theorem Place.In.skip_unreturned (hs : s.In text) (n : Nat) :
    (s.unreturned text).skip (shifted s.rest n) = (s.skip n).unreturned text := by
  obtain ⟨offset, rest⟩ := s
  obtain ⟨-, hrest⟩ := hs
  simp only at hrest
  subst hrest
  simp only [Place.skip, Place.unreturned, take_withoutReturns, drop_withoutReturns, shifted_add, shifted_min]
  rfl

/-- A token stands in the text without carriage returns exactly if it stands in the text. -/
theorem tokenAt_unreturned (hp : IsPaired text) (hs : s.In text) : tokenAt k (s.unreturned text) =
    (tokenAt k s).map fun found => (found.1.unreturned text, found.2.unreturned text) := by
  have hrest : IsPaired s.rest := hs.2 ▸ hp.drop _
  -- trivia is passed over in both texts before the token is looked for
  have hhere : (s.unreturned text).skip (triviaLength (s.unreturned text).rest)
      = (s.skip (triviaLength s.rest)).unreturned text := by
    rw [← hs.skip_unreturned, Place.unreturned, triviaLength_withoutReturns hrest]
  have hin := hs.skip (triviaLength s.rest)
  have hpaired : IsPaired (s.skip (triviaLength s.rest)).rest := hrest.drop _
  rw [tokenAt, tokenAt, hhere]
  generalize s.skip (triviaLength s.rest) = here at hin hpaired
  rw [show (here.unreturned text).rest = withoutReturns here.rest from rfl, k.length?_withoutReturns hpaired,
    Option.map_map, Option.map_map]
  congr 1
  funext n
  simp only [Function.comp_apply, hin.skip_unreturned, take_withoutReturns, ParseTree.unreturned,
    String.toList_ofList]
  rfl

/-- **Leaving out the carriage returns is a simulation.** The verdict on a pattern in the text without
carriage returns is that in the text, moved. -/
theorem Derives.unreturned (hp : IsPaired text) (h : Derives x s r) (hs : s.In text) :
    Derives x (s.unreturned text) (unreturnedVerdict text r) := by
  have found : ∀ {k : Token} {s m : Place} {leaf : ParseTree}, s.In text → tokenAt k s = some (leaf, m) →
      tokenAt k (s.unreturned text) = some (leaf.unreturned text, m.unreturned text) := by
    intro k s m leaf hs h
    rw [tokenAt_unreturned hp hs, h]
    rfl
  have missed : ∀ {k : Token} {s : Place}, s.In text → tokenAt k s = none →
      tokenAt k (s.unreturned text) = none := by
    intro k s hs h
    rw [tokenAt_unreturned hp hs, h]
    rfl
  have join : ∀ {ts us : List ParseTree} {a : Place}, unreturnedVerdict text (some (ts ++ us, a))
      = some (unreturnedAll text ts ++ unreturnedAll text us, a.unreturned text) := by
    intro ts us a
    rw [← unreturnedAll_append]
    rfl
  -- one case for each rule; places in the text move by the returns in front of them
  induction h with
  | token h => exact .token (found hs h)
  | noToken h => exact .noToken (missed hs h)
  | phrase _ ih => exact .phrase (ih hs)
  | noPhrase _ ih => exact .noPhrase (ih hs)
  | seq hx _ ihx ihy =>
    rw [join]
    exact .seq (ihx hs) (ihy ((Takes.ahead hx).inText hs))
  | noFirst _ ihx => exact .noFirst (ihx hs)
  | noSecond hx _ ihx ihy => exact .noSecond (ihx hs) (ihy ((Takes.ahead hx).inText hs))
  | altFirst _ ihx => exact .altFirst (ihx hs)
  | altSecond _ _ ihx ihy => exact .altSecond (ihx hs) (ihy hs)
  | opt _ ihx => exact .opt (ihx hs)
  | optNone _ ihx => exact .optNone (ihx hs)
  | manyStop _ ihx => exact .manyStop (ihx hs)
  | manyStep hx _ ihx ihr =>
    rw [join]
    exact .manyStep (ihx hs) (ihr ((Takes.ahead hx).inText hs))
  | tailStop h => exact .tailStop (missed hs h)
  | tailDangling h _ ihx => exact .tailDangling (found hs h) (ihx ((tokenAt_ahead h).inText hs))
  | tailStep h hx _ ihx ihr =>
    have hm := (tokenAt_ahead h).inText hs
    rw [join]
    exact .tailStep (found hs h) (ihx hm) (ihr ((Takes.ahead hx).inText hm))
  | absent _ ihx => exact .absent (ihx hs)
  | present _ ihx => exact .present (ihx hs)

/-! ## Tidy trees -/

theorem withoutLastComma_unreturned (ts : List ParseTree) :
    withoutLastComma (unreturnedAll text ts) = unreturnedAll text (withoutLastComma ts) := by
  fun_induction withoutLastComma ts with
  | case1 => rfl
  | case2 => rfl
  | case3 t rest hne ih =>
    rw [unreturnedAll, withoutLastComma, ih, unreturnedAll]
    intro start word ht hrest
    cases rest with
    | cons u rest => cases hrest
    | nil =>
      cases t with
      | node label ts => cases ht
      | leaf k start word =>
        cases ht
        exact hne _ _ rfl rfl

theorem tidied_unreturned (label : Label) (ts : List ParseTree) :
    label.tidied (unreturnedAll text ts) = unreturnedAll text (label.tidied ts) := by
  unfold Label.tidied
  split
  · exact withoutLastComma_unreturned ts
  · rfl

mutual

/-- A tree is tidied in the same way whatever its line ends are. -/
theorem tidy_unreturned : ∀ t : ParseTree, (t.unreturned text).tidy = t.tidy.unreturned text
  | .leaf .. => rfl
  | .node label ts => by
    rw [ParseTree.unreturned, ParseTree.tidy, tidyAll_unreturned, tidied_unreturned, ParseTree.tidy,
      ParseTree.unreturned]

theorem tidyAll_unreturned : ∀ ts : List ParseTree, tidyAll (unreturnedAll text ts) = unreturnedAll text (tidyAll ts)
  | [] => rfl
  | t :: ts => by rw [unreturnedAll, tidyAll, tidy_unreturned, tidyAll_unreturned, tidyAll, unreturnedAll]

end

@[simp] theorem start_unreturned : ∀ t : ParseTree, (t.unreturned text).start = shifted text t.start
  | .leaf .. => rfl
  | .node _ [] => rfl
  | .node _ (t :: _) => start_unreturned t

/-! ## Leaves -/

/-- The leaf begins at a place that no line end is cut at. If its token is no comment and no number, there is no
carriage return in it, and a number has none but in line ends. -/
structure Leaf.IsSettled (text : List Char) (l : Leaf) : Prop where
  place : IsPaired (text.take l.start)
  clean : l.token.isUnbroken = true → '\r' ∉ l.text.toList
  paired : l.token = .number → IsPaired l.text.toList

theorem isSettled_of_tokenAt (hp : IsPaired text) (hs : s.In text)
    (h : tokenAt l.token s = some (.leaf l.token l.start l.text, a)) : l.IsSettled text := by
  obtain ⟨word, hdrop, hlen, heq, -⟩ := tokenAt_iff.1 h
  rw [ParseTree.leaf.injEq] at heq
  obtain ⟨-, hstart, hword⟩ := heq
  have hrest : text.drop l.start = word ++ a.rest := by
    rw [hstart, ← hdrop, hs.2, List.drop_drop]
  have hpaired : IsPaired (word ++ a.rest) := hrest ▸ hp.drop _
  have htake : (word ++ a.rest).take word.length = word := List.take_left
  refine ⟨hp.take fun hpos hreturn => ?_, fun hk => ?_, fun hk => ?_⟩
  · -- else the leaf would begin with a line feed
    have hfeed := hp _ hreturn
    rw [Nat.sub_add_cancel hpos, ← Nat.add_zero l.start, ← List.getElem?_drop, ← List.head?_eq_getElem?, hrest,
      ← hdrop] at hfeed
    exact absurd ((startsBare_drop s.rest).1 _ hfeed) (by decide)
  · rw [hword, String.toList_ofList, ← htake]
    exact (Token.unbroken hk).clean hpaired hlen
  · rw [hword, String.toList_ofList, ← htake]
    rw [hk] at hlen
    exact isPaired_number hpaired hlen

theorem Lays.isSettled (hp : IsPaired text) (hs : s.In text) (h : Lays s ls a) : ∀ l ∈ ls, l.IsSettled text := by
  induction ls generalizing s with
  | nil => simp
  | cons l ls ih =>
    obtain ⟨m, hm, hrest⟩ := h
    intro k hk
    rcases List.mem_cons.1 hk with rfl | hk
    · exact isSettled_of_tokenAt hp hs hm
    · exact ih ((tokenAt_ahead hm).inText hs) hrest k hk

end VerilogLoops.Grammar

namespace VerilogLoops.Ast

open VerilogLoops.Text VerilogLoops.Lexical VerilogLoops.Grammar

variable {text : List Char} {origin : String} {t : ParseTree} {v : Value} {p : Phrase} {pos : Position}
  {vs : List Value} {b : Built}

/-! ## Values -/

mutual

/-- The value with plain line feeds in its numbers. -/
def Value.unreturned : Value → Value
  | .node .numberLiteral pos [.text s] => .node .numberLiteral pos [.text (String.ofList (normalizeLineEnds s.toList))]
  | .node k pos fields => .node k pos (unreturnedValues fields)
  | .seq items => .seq (unreturnedValues items)
  | v => v

/-- The values with plain line feeds in their numbers. -/
def unreturnedValues : List Value → List Value
  | [] => []
  | v :: rest => v.unreturned :: unreturnedValues rest

end

theorem unreturnedValues_eq_map (vs : List Value) : unreturnedValues vs = vs.map Value.unreturned := by
  induction vs with
  | nil => rfl
  | cons v vs ih => rw [unreturnedValues, ih, List.map_cons]

theorem unreturned_node {k : Kind} (hk : k ≠ .numberLiteral) (pos : Position) (vs : List Value) :
    (Value.node k pos vs).unreturned = .node k pos (vs.map Value.unreturned) := by
  rw [← unreturnedValues_eq_map]
  unfold Value.unreturned
  split <;> simp_all

theorem recasts_unreturned : Recasts id Value.unreturned where
  null := by rw [Value.unreturned] <;> simp
  text s := by rw [Value.unreturned] <;> simp
  bool x := by rw [Value.unreturned] <;> simp
  int n := by rw [Value.unreturned] <;> simp
  real x := by rw [Value.unreturned] <;> simp
  seq vs := by rw [Value.unreturned, unreturnedValues_eq_map]
  node pos vs _ _ hk := unreturned_node hk pos vs
  name k pos vs := by
    unfold Value.unreturned
    split <;> simp_all

/-- A phrase makes of values with plain line feeds what it makes of the values, with plain line feeds. -/
theorem assemble_unreturned (h : assemble p pos vs = .ok b) :
    assemble p pos (vs.map Value.unreturned) = .ok (b.map Value.unreturned) :=
  recasts_unreturned.assemble_words (fun _ pos vs hk => unreturned_node hk pos vs) h

/-! ## Parse trees -/

theorem isUnbroken_of_ne_number {k : Token} (hk : (k.isSpelled || k.isFree) = true) (hn : k ≠ .number) :
    k.isUnbroken = true := by
  cases k <;> first | exact absurd rfl hn | rfl | cases hk

theorem buildLeaf_unreturned {l : Leaf} (hl : l.IsSettled text) (hk : (l.token.isSpelled || l.token.isFree) = true)
    (pos : Position) : buildLeaf l.token pos (String.ofList (withoutReturns l.text.toList))
      = (buildLeaf l.token pos l.text).map Value.unreturned := by
  by_cases hn : l.token = .number
  · rw [hn, ← normalizeLineEnds_eq (hl.paired hn), buildLeaf, buildLeaf, Built.map, Value.unreturned]
  · rw [withoutReturns_eq_self (hl.clean (isUnbroken_of_ne_number hk hn)), String.ofList_toList]
    unfold buildLeaf
    split
    · rfl
    · next heq => exact absurd heq hn
    · simp [Built.map, recasts_unreturned.node, recasts_unreturned.text]
    · rw [Built.map, recasts_unreturned.text]

theorem placed_unreturned {n : Nat} (h : IsPaired (text.take n)) :
    placed origin (withoutReturns text) (shifted text n) = placed origin text n := by
  rw [placed, placed, LocationTable.locate_of, LocationTable.locate_of, Location.ofOffset_withoutReturns h]

mutual

/-- The tree in the text without carriage returns stands for what the tree stands for, with plain line feeds in
the numbers. -/
theorem buildTree_unreturned : ∀ (t : ParseTree) {b : Built},
    (∀ l ∈ t.leaves, l.IsSettled text ∧ (l.token.isSpelled || l.token.isFree) = true) →
      buildTree (placed origin text) t = .ok b →
        buildTree (placed origin (withoutReturns text)) (t.unreturned text) = .ok (b.map Value.unreturned)
  | .leaf k start word, b, hl, h => by
    obtain ⟨hsettled, hk⟩ := hl ⟨k, start, word⟩ (by simp)
    cases h
    rw [ParseTree.unreturned, buildTree, placed_unreturned hsettled.place]
    exact congrArg Except.ok (buildLeaf_unreturned hsettled hk _)
  | .node label children, b, hl, h => by
    have hstart : IsPaired (text.take (ParseTree.node label children).start) := by
      rcases start_mem_leaves (.node label children) with h' | ⟨l, hmem, h'⟩
      · rw [h', List.take_zero]
        exact isPaired_of_not_mem (by simp)
      · exact h' ▸ (hl l hmem).1.place
    unfold buildTree at h
    obtain ⟨vs, hvs, h⟩ := bind_eq_ok.1 h
    have hall := buildAll_unreturned children (by simpa using hl) hvs
    cases label with
    | phrase p =>
      rw [ParseTree.unreturned, buildTree_phrase hall, ← ParseTree.unreturned, start_unreturned,
        placed_unreturned hstart]
      exact assemble_unreturned h
    | whole =>
      rw [ParseTree.unreturned]
      unfold buildTree
      rw [hall]
      rcases vs with _ | ⟨v, _ | ⟨w, rest⟩⟩
      all_goals
        cases h
        rfl

theorem buildAll_unreturned : ∀ (ts : List ParseTree) {vs : List Value},
    (∀ l ∈ leavesOf ts, l.IsSettled text ∧ (l.token.isSpelled || l.token.isFree) = true) →
      buildAll (placed origin text) ts = .ok vs →
        buildAll (placed origin (withoutReturns text)) (unreturnedAll text ts) = .ok (vs.map Value.unreturned)
  | [], vs, _, h => by
    cases h
    rfl
  | t :: rest, vs, hl, h => by
    obtain ⟨b, ws, hb, hws, rfl⟩ := buildAll_cons.1 h
    refine buildAll_cons.2 ⟨_, _, buildTree_unreturned t (fun l hmem => hl l (by simp [hmem])) hb,
      buildAll_unreturned rest (fun l hmem => hl l (by simp [hmem])) hws, ?_⟩
    rw [values_map, List.map_append]

end

/-- No number of the tree is written over a line end. -/
def Value.NumbersInLine (v : Value) : Prop :=
  ∀ pos s, .node .numberLiteral pos [.text s] ∈ v.nodes → '\n' ∉ s.toList

/-- The value is no number that is written over a line end. -/
def Value.isInLine : Value → Bool
  | .node .numberLiteral _ [.text s] => !s.toList.contains '\n'
  | _ => true

instance (v : Value) : Decidable v.NumbersInLine :=
  decidable_of_iff (∀ n ∈ v.nodes, n.isInLine = true) <| by
    constructor
    · intro h pos s hn
      simpa [Value.isInLine] using h _ hn
    · intro h n hn
      unfold Value.isInLine
      split
      · simpa using h _ _ hn
      · rfl

mutual

/-- A value without line ends in its numbers is the same with plain line feeds. -/
theorem unreturned_eq_self : ∀ v : Value, v.unreturned.NumbersInLine → v.unreturned = v
  | .null, _ => recasts_unreturned.null
  | .text s, _ => recasts_unreturned.text s
  | .bool x, _ => recasts_unreturned.bool x
  | .int n, _ => recasts_unreturned.int n
  | .real x, _ => recasts_unreturned.real x
  | .seq vs, h => by
    rw [Value.unreturned] at h ⊢
    rw [unreturnedValues_eq_self vs fun pos s hn => h pos s (by rwa [Value.nodes])]
  | .node k pos vs, h => by
    by_cases hnumber : k = .numberLiteral ∧ ∃ s, vs = [.text s]
    · obtain ⟨rfl, s, rfl⟩ := hnumber
      have hplain := h pos _ (by rw [Value.unreturned, Value.nodes]; exact List.mem_cons_self ..)
      rw [String.toList_ofList] at hplain
      rw [Value.unreturned, normalizeLineEnds_eq_self hplain, String.ofList_toList]
    · have hnode : (Value.node k pos vs).unreturned = .node k pos (unreturnedValues vs) := by
        rw [Value.unreturned]
        rintro s rfl rfl
        exact hnumber ⟨rfl, s, rfl⟩
      rw [hnode] at h ⊢
      rw [unreturnedValues_eq_self vs fun pos s hn => h pos s (by rw [Value.nodes]; exact List.mem_cons_of_mem _ hn)]

theorem unreturnedValues_eq_self : ∀ vs : List Value,
    (∀ pos s, .node .numberLiteral pos [.text s] ∈ nodesOfAll (unreturnedValues vs) → '\n' ∉ s.toList) →
      unreturnedValues vs = vs
  | [], _ => rfl
  | v :: vs, h => by
    rw [unreturnedValues] at h ⊢
    rw [unreturned_eq_self v fun pos s hn => h pos s (by rw [nodesOfAll]; exact List.mem_append_left _ hn),
      unreturnedValues_eq_self vs fun pos s hn => h pos s (by rw [nodesOfAll]; exact List.mem_append_right _ hn)]

end

end VerilogLoops.Ast

namespace VerilogLoops

open VerilogLoops.Text VerilogLoops.Lexical VerilogLoops.Grammar VerilogLoops.Ast

variable {origin text : String} {v : Value}

/-- The text with plain line feeds has the syntax tree of the text, with plain line feeds in the numbers. -/
theorem parse_unreturned (hp : IsPaired text.toList) (h : parse origin text = .ok v) :
    parse origin (String.ofList (normalizeLineEnds text.toList)) = .ok v.unreturned := by
  have hlist : (String.ofList (normalizeLineEnds text.toList)).toList = withoutReturns text.toList := by
    rw [String.toList_ofList, normalizeLineEnds_eq hp]
  obtain ⟨t, m, -, -, ht, htrivia, -, -⟩ := exists_loop h
  obtain ⟨b, hb, htidy⟩ := exists_buildTree (placed origin text.toList) rfl ht
  obtain ⟨w, hw, hisA⟩ : ∃ w, buildTree (placed origin text.toList) t = .ok (.one w) ∧ w.isA .loop = true :=
    exists_buildTree_loop (.inl rfl) ht
  rw [hb] at hw
  cases hw
  have hwhole := (parse_of_takes ht (buildIn_eq_ok.2 hb) hisA).1 htrivia
  rw [h] at hwhole
  cases hwhole
  -- the same tree is taken of the other text
  have hin := Place.in_first text.toList
  have hu : Takes (.phrase .loop) (.first (withoutReturns text.toList)) [t.unreturned text.toList]
      (m.unreturned text.toList) := Derives.unreturned hp ht hin
  have hrest : IsPaired m.rest := ((Takes.ahead ht).inText hin).2 ▸ hp.drop _
  -- and stands for the same there
  have hreads : Reads (.phrase .loop) (.first text.toList) [t.tidy] m := ht.reads_phrase rfl
  have hleaves : ∀ l ∈ t.tidy.leaves, l.IsSettled text.toList ∧ (l.token.isSpelled || l.token.isFree) = true := by
    intro l hl
    exact ⟨Lays.isSettled hp hin hreads.lays l (by simpa using hl),
      tokens_of_fits hreads.fits (by decide) l (by simpa using hl)⟩
  have hbuilt := buildTree_unreturned t.tidy hleaves htidy
  rw [← tidy_unreturned] at hbuilt
  rw [← hlist] at hu hbuilt
  refine (parse_of_takes hu (buildIn_eq_ok.2 (buildTree_of_tidy _ hbuilt).1) ?_).1 (htrivia.withoutReturns hrest)
  rw [recasts_unreturned.isA, hisA]

/-- A text is a loop statement or it is refused. -/
theorem parse_cases (origin text : String) : (∃ v, parse origin text = .ok v) ∨
    (Refuses (.phrase .loopUnit) (.first text.toList) ∧ ∃ l, parse origin text = .error (.mismatch l)) := by
  rcases parseSymbol_loop (Or.inr rfl) origin text with ⟨_, _, v, -, -, -, heq⟩ | ⟨hrefuses, l, heq⟩
  · exact .inl ⟨v, by simp only [parse, heq]; rfl⟩
  · exact .inr ⟨hrefuses, l, by simp only [parse, heq]; rfl⟩

/-- Both the text and the text with plain line feeds are loop statements, or none of them is. -/
theorem parse_fails_iff (hp : IsPaired text.toList) : (∃ l, parse origin text = .error (.mismatch l)) ↔
    ∃ l, parse origin (String.ofList (normalizeLineEnds text.toList)) = .error (.mismatch l) := by
  rcases parse_cases origin text with ⟨v, hv⟩ | ⟨hrefuses, hl⟩
  · have hplain := parse_unreturned hp hv
    simp only [hv, hplain, reduceCtorEq, exists_false]
  · refine iff_of_true hl ?_
    have hu : Refuses (.phrase .loopUnit) (.first (withoutReturns text.toList)) :=
      Derives.unreturned hp hrefuses (Place.in_first _)
    rw [← normalizeLineEnds_eq hp, ← String.toList_ofList (l := normalizeLineEnds text.toList)] at hu
    rcases parse_cases origin (String.ofList (normalizeLineEnds text.toList)) with ⟨w, hw⟩ | ⟨-, hl'⟩
    · obtain ⟨_, _, ht, -⟩ := parse_eq_ok.1 hw
      exact absurd ht hu.not_takes
    · exact hl'

/-- The trees are the same if no number is written over a line end. -/
theorem parse_of_plain (hp : IsPaired text.toList)
    (h : parse origin (String.ofList (normalizeLineEnds text.toList)) = .ok v) (hv : v.NumbersInLine) :
    parse origin text = .ok v := by
  rcases parse_cases origin text with ⟨w, hw⟩ | ⟨-, hl⟩
  · have hplain := parse_unreturned hp hw
    rw [h] at hplain
    cases hplain
    rw [hw, unreturned_eq_self w hv]
  · obtain ⟨l, hl⟩ := (parse_fails_iff hp).1 hl
    rw [h] at hl
    cases hl

/-- A file is read with plain line feeds. -/
theorem parseFile_eq {directory name : String} {octets : ByteArray} (h : String.fromUTF8? octets = some text) :
    parseFile directory name (some octets) =
      match parse (pathIn directory name) (String.ofList (normalizeLineEnds text.toList)) with
      | .ok v => .ok v
      | .error e => .error (.parse (pathIn directory name) e) := by
  cases hplain : parse (pathIn directory name) (String.ofList (normalizeLineEnds text.toList)) <;>
    simp only [parseFile, sourceText?, h, Option.map_some, hplain]

/-- **Line ends do not matter.** If every carriage return of a text has a line feed directly behind it, then the
text is a loop statement exactly if the text with plain line feeds is one. If no number of the tree of the latter
is written over a line end, then both have this tree, with all its positions. So a file and its raw text have the
same tree under the path of the file. -/
theorem parse_line_ends {text : String} (hp : IsPaired text.toList) :
    (∀ origin,
      ((∃ l, parse origin text = .error (.mismatch l)) ↔
        ∃ l, parse origin (String.ofList (normalizeLineEnds text.toList)) = .error (.mismatch l)) ∧
      ∀ v, parse origin (String.ofList (normalizeLineEnds text.toList)) = .ok v → v.NumbersInLine →
        parse origin text = .ok v) ∧
    ∀ directory name octets, String.fromUTF8? octets = some text →
      ((∃ l, parse (pathIn directory name) text = .error (.mismatch l)) ↔
        ∃ l, parseFile directory name (some octets) = .error (.parse (pathIn directory name) (.mismatch l))) ∧
      ∀ v, parseFile directory name (some octets) = .ok v → v.NumbersInLine →
        parse (pathIn directory name) text = .ok v := by
  refine ⟨fun origin => ⟨parse_fails_iff hp, fun v h hv => parse_of_plain hp h hv⟩,
    fun directory name octets hoctets => ?_⟩
  rw [parseFile_eq hoctets, parse_fails_iff hp]
  rcases parse_cases (pathIn directory name) (String.ofList (normalizeLineEnds text.toList)) with
    ⟨w, hw⟩ | ⟨-, l, hl⟩
  · rw [hw]
    refine ⟨by simp, fun v hv hnumbers => ?_⟩
    cases hv
    exact parse_of_plain hp hw hnumbers
  · rw [hl]
    refine ⟨by simp, fun v hv => ?_⟩
    cases hv

/-- A file with line ends in comments and between tokens. -/
theorem parse_line_ends_comments : ∃ v,
    parseFile "d" "a.sv" (some "forever // x\r\n i /*\r\n*/ = 8'hff;\r\n".toUTF8) = .ok v ∧
      v.NumbersInLine ∧ parse (pathIn "d" "a.sv") "forever // x\r\n i /*\r\n*/ = 8'hff;\r\n" = .ok v := by
  have hp : IsPaired "forever // x\r\n i /*\r\n*/ = 8'hff;\r\n".toList := by
    rw [String.toList_ofList]
    decide +kernel
  have hoctets : String.fromUTF8? "forever // x\r\n i /*\r\n*/ = 8'hff;\r\n".toUTF8
      = some "forever // x\r\n i /*\r\n*/ = 8'hff;\r\n" := by decide +kernel
  obtain ⟨v, hplain, hv⟩ : ∃ v, parse (pathIn "d" "a.sv")
      (String.ofList (normalizeLineEnds "forever // x\r\n i /*\r\n*/ = 8'hff;\r\n".toList)) = .ok v ∧
        v.NumbersInLine := by
    rw [parse_afresh String.toList_ofList, String.toList_ofList]
    exact exists_of_any (by decide +kernel)
  have h : parseFile "d" "a.sv" (some "forever // x\r\n i /*\r\n*/ = 8'hff;\r\n".toUTF8) = .ok v := by
    rw [parseFile_eq hoctets, hplain]
  exact ⟨v, h, hv, ((parse_line_ends hp).2 "d" "a.sv" _ hoctets).2 v h hv⟩

/-- A number that is written over a line end keeps it, so the trees differ. -/
example : parse "a.sv" "forever a = 8'h\r\nff;" ≠ parse "a.sv" "forever a = 8'h\nff;" := by
  rw [parse_afresh String.toList_ofList, parse_afresh String.toList_ofList]
  decide +kernel

end VerilogLoops
