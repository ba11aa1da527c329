import VerilogLoops.Proofs.Meaning
import VerilogLoops.Proofs.Statement.Frame

/-!
# How polished trees begin

Polishing moves parentheses, and these stand in expressions. So it leaves a statement as it is up to its
first expression: the first leaf stays, and the second one too if the first is an identifier, since no
expression stands directly behind an identifier. This is all that decides whether a tree is clear, and all
that the frame of a statement tells of its leaves.

> `admits_polished`: a node admits its polished children if it admits its children;
> `frame_polished`: a polished tree has the frame of the tree.
-/

namespace VerilogLoops.Grammar

open VerilogLoops.Text VerilogLoops.Lexical VerilogLoops.Ast

variable {x : Pattern} {p : Phrase} {t u : ParseTree} {ts us : List ParseTree} {l : Leaf} {ls ms ks ns : List Leaf}

/-! ## The foremost leaves -/

/-- The first leaf, and the second one too if the first is an identifier. -/
def foremost : List Leaf → List Leaf
  | [] => []
  | l :: ls => if l.token = .identifier then l :: ls.take 1 else [l]

theorem head?_foremost (ls : List Leaf) : (foremost ls).head? = ls.head? := by
  cases ls with
  | nil => rfl
  | cons l ls =>
    rw [foremost]
    split <;> rfl

theorem head?_eq_of_foremost (h : foremost ls = foremost ms) : ls.head? = ms.head? := by
  rw [← head?_foremost, h, head?_foremost]

theorem openingOf_foremost (ls : List Leaf) : openingOf (foremost ls) = openingOf ls := by
  rcases ls with _ | ⟨⟨k, start, text⟩, _ | ⟨m, ls⟩⟩
  · rfl
  · by_cases hk : k = .identifier <;> simp [foremost, hk]
  · by_cases hk : k = .identifier
    · subst hk
      rfl
    · unfold openingOf
      simp [foremost, hk]

theorem ne_nil_of_foremost (h : foremost ls = foremost ms) (hms : ms ≠ []) : ls ≠ [] := by
  rintro rfl
  have hhead := head?_eq_of_foremost h
  cases ms with
  | nil => exact hms rfl
  | cons m ms => cases hhead

/-- The foremost leaves are told by those of the first part, and by the first leaf behind it if the first
part is nothing but an identifier. -/
theorem foremost_append (hls : ls ≠ []) (hms : ms ≠ []) (h : foremost ls = foremost ms)
    (hrest : ∀ l, ls = [l] → l.token = .identifier → ks.head? = ns.head?) :
    foremost (ls ++ ks) = foremost (ms ++ ns) := by
  obtain ⟨l, ls, rfl⟩ := List.exists_cons_of_ne_nil hls
  obtain ⟨m, ms, rfl⟩ := List.exists_cons_of_ne_nil hms
  have hhead := head?_eq_of_foremost h
  cases hhead
  rw [List.cons_append, List.cons_append]
  by_cases hl : l.token = .identifier
  · rw [foremost, foremost, if_pos hl, if_pos hl, List.cons.injEq] at h
    rw [foremost, foremost, if_pos hl, if_pos hl]
    cases ls with
    | nil =>
      have hnil : ms = [] := by simpa using h.2.symm
      have hnext := hrest l rfl hl
      rw [hnil, List.nil_append, List.nil_append, List.take_one, List.take_one, hnext]
    | cons k ls =>
      cases ms with
      | nil => simp at h
      | cons n ms =>
        have hsame : k = n := by simpa using h.2
        rw [hsame, List.cons_append, List.cons_append, List.take_one, List.take_one]
        rfl
  · rw [foremost, foremost, if_neg hl, if_neg hl]

/-! ## Phrases that begin without an expression -/

/-- The phrase does not begin with an expression. -/
def Phrase.leadsPlain (p : Phrase) : Bool := !p.isOperation && p ≠ .argument && p ≠ .arguments

/-- What is matched does not begin with an expression. -/
def Pattern.leadsPlain : Pattern → Bool
  | .token _ => true
  | .phrase p => p.leadsPlain
  | _ => false

/-- Such a phrase begins with a token or another such phrase, and no expression stands behind an identifier
in it. -/
theorem Phrase.leadsPlain_body (hp : p.leadsPlain = true) : (∀ x ∈ p.body.starts, x.leadsPlain = true) ∧
    ∀ x ∈ p.body.neighbours, Token.identifier ∈ x.1.lastTokens → x.2.leadsPlain = true := by
  revert p
  decide +kernel

/-- A tree that fits has leaves. -/
theorem leaves_ne_nil {s a : Unit} (h : Shape LexemeForm x s ts a) (ht : t ∈ ts) : t.leaves ≠ [] :=
  (written_inked h t ht).1

/-- A tree that fits ends with a token with which it may end. -/
theorem last_mem_lastTokens {s a : Unit} (h : Shape LexemeForm x s ts a) (ht : t ∈ ts)
    (hl : t.leaves.getLast? = some l) : l.token ∈ t.symbol.lastTokens := by
  obtain ⟨x, hx, htoken⟩ := (isMeeting_of_fits h t ht).1.last
  rw [← map_leaf_inked, List.getLast?_map, hx, Option.map_some, Option.some.injEq] at hl
  exact hl ▸ htoken

/-- A polished tree begins as the tree does, unless this is an expression. -/
theorem foremost_polished {s a : Unit} (h : Shape LexemeForm x s ts a) : ∀ t ∈ ts, t.symbol.leadsPlain = true →
    foremost t.polish.settled.leaves = foremost t.leaves := by
  refine h.forall_mem (fun _ ht _ => ?_) fun p ts _ _ _ hts ih hplain => ?_
  · obtain ⟨_, _, _, -, rfl, -⟩ | ⟨_, _, _, -, rfl, -⟩ | ⟨_, -, rfl⟩ := ht.cases <;> rfl
  · have hplain : p.leadsPlain = true := hplain
    have hoperation : p.isOperation = false := by
      simp only [Phrase.leadsPlain, Bool.and_eq_true, Bool.not_eq_true'] at hplain
      exact hplain.1.1
    have hsettled : (ParseTree.node (.phrase p) ts).polish.settled
        = .node (.phrase p) (ts.map fun t => t.polish.settled) := by
      rw [polish_node hoperation]
      cases p <;> first | rfl | cases hoperation
    -- what leads the phrase, and what stands behind a leading identifier, is no expression
    obtain ⟨hstarts, hneighbours⟩ := Phrase.leadsPlain_body hplain
    have hstrung := strung_of_fits hts
    rw [hsettled, leaves_node, leaves_node]
    cases ts with
    | nil => rfl
    | cons c rest =>
      have hc := ih c (List.mem_cons_self ..) (hstarts _ (hstrung.start c rfl))
      have hne : c.leaves ≠ [] := leaves_ne_nil hts (List.mem_cons_self ..)
      rw [List.map_cons, leavesOf_cons, leavesOf_cons]
      refine (foremost_append hne ?_ hc.symm fun l hl hidentifier => ?_).symm
      · exact ne_nil_of_foremost hc hne
      · -- an identifier is followed by the first leaf of the next child
        cases rest with
        | nil => rfl
        | cons d rest =>
          have hlast : l.token ∈ c.symbol.lastTokens :=
            last_mem_lastTokens hts (List.mem_cons_self ..) (by rw [hl]; rfl)
          rw [hidentifier] at hlast
          have hd := ih d (by simp) (hneighbours _ (List.isChain_cons_cons.1 hstrung.chain).1 hlast)
          have hdne : d.leaves ≠ [] := leaves_ne_nil hts (by simp)
          have hdne' : d.polish.settled.leaves ≠ [] := ne_nil_of_foremost hd hdne
          rw [List.map_cons, leavesOf_cons, leavesOf_cons, List.head?_append_of_ne_nil _ hdne,
            List.head?_append_of_ne_nil _ hdne', head?_eq_of_foremost hd]

/-! ## What a polished node admits -/

/-- The phrases that are signs, names and scopes, without expressions in them. -/
def Phrase.isName (p : Phrase) : Bool :=
  ([.assignSign, .identifier, .packageScope, .classHandle, .qualifier, .hierarchicalName] : List Phrase).contains p

/-- What is matched has no expressions in it. -/
def Pattern.isName : Pattern → Bool
  | .token _ => true
  | .phrase p => p.isName
  | _ => false

theorem settled_polish_node (hp : p.isOperation = false) (ts : List ParseTree) :
    (ParseTree.node (.phrase p) ts).polish.settled = .node (.phrase p) (ts.map fun t => t.polish.settled) := by
  rw [polish_node hp]
  cases p <;> first | rfl | cases hp

/-- The children of a tree that fits are matches of tokens and of the phrases that the pattern calls. -/
theorem symbol_of_mem {s a : Unit} (h : Shape LexemeForm x s ts a) (ht : t ∈ ts) :
    (∃ k, t.symbol = .token k) ∨ ∃ q, t.symbol = .phrase q ∧ q ∈ x.calls := by
  have hcalls := mem_calls_of_fits h t ht
  cases t with
  | leaf k start text => exact .inl ⟨k, rfl⟩
  | node label cs =>
    cases label with
    | whole => exact .inl ⟨.endOfInput, rfl⟩
    | phrase q => exact .inr ⟨q, rfl, hcalls q rfl⟩

/-- There is nothing to polish about a name. -/
theorem polished_name {s a : Unit} (h : Shape LexemeForm x s ts a) : ∀ t ∈ ts, t.symbol.isName = true →
    t.polish.settled = t := by
  refine h.forall_mem (fun _ ht _ => ?_) fun p ts _ _ _ hts ih hname => ?_
  · obtain ⟨_, _, _, -, rfl, -⟩ | ⟨_, _, _, -, rfl, -⟩ | ⟨_, -, rfl⟩ := ht.cases <;> rfl
  · have hname : p.isName = true := hname
    have key : ∀ p : Phrase, p.isName = true → p.isOperation = false ∧ ∀ q ∈ p.body.calls, q.isName = true := by
      decide +kernel
    have hall := key p hname
    rw [settled_polish_node hall.1]
    congr 1
    refine (List.map_congr_left fun t ht => ih t ht ?_).trans (List.map_id ts)
    rcases symbol_of_mem hts ht with ⟨k, hk⟩ | ⟨q, hq, hcalls⟩
    · rw [hk]
      rfl
    · rw [hq]
      exact hall.2 q hcalls

/-- A node admits its polished children if it admits its children. -/
theorem admits_polished (h : Fits p.body ts) (hfits : ∀ t ∈ ts, Fits t.symbol [t.polish.settled])
    (hadmits : Label.admits (.phrase p) ts = true) :
    Label.admits (.phrase p) (ts.map fun t => t.polish.settled) = true := by
  have hstrung := strung_of_fits h
  -- a scope `this` and the name behind it are the same
  have hsuper : (p = .arrayName ∨ p = .routineName ∨ p = .variableReference) →
      superGlued (ts.map fun t => t.polish.settled) = superGlued ts := by
    intro hp
    have hstarts : ∀ x ∈ p.body.starts, x.isName = true := by
      rcases hp with rfl | rfl | rfl <;> decide
    have hneighbours : ∀ x, (.phrase .qualifier, x) ∈ p.body.neighbours → x.isName = true := by
      have key : ∀ n ∈ p.body.neighbours, n.1 = .phrase .qualifier → n.2.isName = true := by
        rcases hp with rfl | rfl | rfl <;> decide
      exact fun x hx => key _ hx rfl
    rcases ts with _ | ⟨q, _ | ⟨t, rest⟩⟩
    · rfl
    · rfl
    · have hq := polished_name h q (by simp) (hstarts _ (hstrung.start q rfl))
      rw [List.map_cons, List.map_cons, superGlued, superGlued, hq]
      cases hthis : q.isThis with
      | false => rfl
      | true =>
        obtain ⟨start, text, w, rfl⟩ := isThis_iff.1 hthis
        rw [polished_name h t (by simp) (hneighbours _ (List.isChain_cons_cons.1 hstrung.chain).1)]
  have hvar : p = .forDeclaration → varGlued (ts.map fun t => t.polish.settled) = varGlued ts := by
    rintro rfl
    have hstarts : ∀ x ∈ Phrase.forDeclaration.body.starts, x.leadsPlain = true := by decide
    cases ts with
    | nil => rfl
    | cons t rest =>
      have hforemost := foremost_polished h t (by simp) (hstarts _ (hstrung.start t rfl))
      have hfitting : IsFitting t := isFitting_of_fits h t (by simp)
      have hfitting' : IsFitting t.polish.settled :=
        isFitting_of_fits (hfits t (by simp)) _ (List.mem_singleton_self _)
      obtain ⟨⟨l, hl, -, htext⟩, -⟩ := hfitting.ends
      obtain ⟨⟨m, hm, -, htext'⟩, -⟩ := hfitting'.ends
      rw [head?_eq_of_foremost hforemost, hl, Option.some.injEq] at hm
      subst hm
      rw [List.map_cons, varGlued, varGlued, ParseTree.startsGlued, ParseTree.startsGlued, ← htext', htext]
  cases p
  case forDeclaration =>
    show (!varGlued _) = true
    rw [hvar rfl]
    exact hadmits
  case arrayName | routineName | variableReference =>
    show (!superGlued _) = true
    rw [hsuper (by simp)]
    exact hadmits
  all_goals rfl

/-! ## The frame of a polished tree -/

/-- **A polished tree has the frame of the tree.** -/
theorem frame_polished {s a : Unit} (h : Shape LexemeForm x s ts a) : ∀ t ∈ ts,
    (∀ q, t.symbol = .phrase q → q.isOperation = true → q = .expression) → t.polish.settled.frame = t.frame := by
  refine h.forall_mem (fun _ ht _ => ?_) fun p ts _ _ hp hts ih hop => ?_
  · obtain ⟨_, _, _, -, rfl, -⟩ | ⟨_, _, _, -, rfl, -⟩ | ⟨_, -, rfl⟩ := ht.cases <;> rfl
  · have hnode : Shape LexemeForm (.phrase p) _ [.node (.phrase p) ts] _ := .phrase hp hts
    cases hoperation : p.isOperation with
    | true =>
      cases hop p rfl hoperation
      have hpolished : IsPolished (fun _ => .unknown) _ := isPolished_of_fits hnode _ (List.mem_singleton_self _)
      have hsymbol := hpolished.symbol_settled hop
      cases hnode : (ParseTree.node (.phrase .expression) ts).polish.settled with
      | leaf k start text =>
        rw [hnode] at hsymbol
        cases hsymbol
      | node label us =>
        rw [hnode] at hsymbol
        cases label with
        | whole => cases hsymbol
        | phrase q =>
          cases hsymbol
          rfl
    | false =>
      rw [settled_polish_node hoperation]
      -- an unframed node is cut off; of a framed one the opening and the children count
      cases hframed : p.isFramed with
      | false => rw [frame_unframed hframed, frame_unframed hframed]
      | true =>
        have hplain : p.leadsPlain = true := by
          cases p <;> first | rfl | cases hframed
        have hforemost := foremost_polished hnode _ (List.mem_singleton_self _) hplain
        rw [settled_polish_node hoperation, leaves_node, leaves_node] at hforemost
        rw [frame_framed hframed, frame_framed hframed, ← openingOf_foremost, hforemost, openingOf_foremost,
          frameAll_eq_map, frameAll_eq_map, List.map_map]
        congr 1
        refine List.map_congr_left fun t ht => ih t ht fun q hq ho => ?_
        exact calls_body hoperation (mem_calls_of_fits hts t ht q hq) ho

end VerilogLoops.Grammar
