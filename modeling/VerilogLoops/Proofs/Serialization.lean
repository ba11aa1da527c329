import VerilogLoops.Proofs.Storing
import VerilogLoops.Proofs.Yaml.Block

/-!
# Trees as texts and back

A tree from source text has a simple document, a simple document is read back from its text, and a
tree from its document.

> `json_loses_nothing`: a parsed tree is read back from its JSON text in any layout.
>
> `yaml_loses_nothing`: a parsed tree is read back from its YAML text, unless a text in it is torn.
-/

namespace VerilogLoops

open VerilogLoops.Ast VerilogLoops.Document VerilogLoops.Grammar

/-- The tree of a text, or of the loop statement that a text begins with. -/
def IsParsed (origin code : String) (v : Value) : Prop :=
  parse origin code = .ok v ∨ ∃ rest, parsePrefix origin code = .ok (v, rest)

/-- What is parsed is a complete node, and the documents of a text that is not too long are
simple. -/
theorem IsParsed.isStored {origin code : String} {v : Value} (h : IsParsed origin code v)
    (letter : Char → Prop) (hkinds : ∀ kind : Kind, TextOf letter kind.name)
    (horigin : TextOf letter origin) (hcode : TextOf letter code)
    (hlength : code.length + 1 < 10 ^ Number.digitLimit) (b : Bool) :
    (∃ e es, v.encode b = .map (e :: es)) ∧ Simple (TextOf letter) (· ∈ entryNames) (v.encode b) ∧
      decodeTree (v.encode b) = .ok (some (v.located b)) := by
  obtain ⟨p, hp, tree, a, ht, hb⟩ : ∃ p, (p = .loop ∨ p = .loopUnit) ∧ ∃ tree a,
      Takes (.phrase p) (.first code.toList) [tree] a ∧
        buildIn origin code.toList tree = .ok (.one v) := by
    rcases h with h | ⟨rest, h⟩
    · obtain ⟨tree, a, ht, hb⟩ := parse_eq_ok.1 h
      exact ⟨_, Or.inr rfl, tree, a, ht, hb⟩
    · obtain ⟨tree, a, ht, hb, -⟩ := parsePrefix_eq_ok.1 h
      exact ⟨_, Or.inl rfl, tree, a, ht, hb⟩
  obtain ⟨hloop, htyped⟩ := isTyped_of_takes hp ht hb
  have hcomplete := isComplete_of_isTyped htyped
  have hstorable := storable_of_takes ht hb horigin hcode (by rwa [String.length_toList])
  have hnode := isNode_of_isA hloop
  refine ⟨?_, simple_encode hkinds b v hstorable hcomplete, decodeTree_encode b hnode hcomplete⟩
  obtain ⟨kind, position, fields, rfl⟩ := hnode
  exact ⟨_, _, rfl⟩

/-- **JSON loses nothing.** The tree of a text is read back from its JSON text, written on one line
or with any indentation. If positions are left out of it, the tree is read back with the unknown
position at every node. A number of lines that is longer than numbers may be is the only thing that
would not be read; no text has so many. -/
theorem json_loses_nothing {origin code : String} {v : Value} (h : IsParsed origin code v)
    (hlength : code.length + 1 < 10 ^ Number.digitLimit) (indent : Option Int) :
    (∃ d, Json.read (Json.write indent (v.encode true)) = .ok d ∧
      decodeTree d = .ok (some v)) ∧
    ∃ d, Json.read (Json.write indent (v.encode false)) = .ok d ∧
      decodeTree d = .ok (some v.withoutPositions) := by
  have hall := h.isStored (fun _ => True) (fun _ _ _ => trivial) (fun _ _ => trivial)
    (fun _ _ => trivial) hlength
  exact ⟨⟨_, Json.read_write (hall true).2.1 indent, (hall true).2.2⟩,
    ⟨_, Json.read_write (hall false).2.1 indent, (hall false).2.2⟩⟩

/-- An origin beyond the first plane of characters, a based number with a line break in it, an
escaped name with marks of the format and a string with escapes, with an indentation of less than
nothing. -/
theorem json_loses_nothing_escapes :
    ∃ v, parse "\"a\" 😀.sv" "repeat (8'h\n F) \\x\"\x7b\\ = \"\\t\t\\\"é\";" = .ok v ∧
      (∃ d, Json.read (Json.write (some (-2)) (v.encode true)) = .ok d ∧
        decodeTree d = .ok (some v)) ∧
      ∃ d, Json.read (Json.write (some (-2)) (v.encode false)) = .ok d ∧
        decodeTree d = .ok (some v.withoutPositions) := by
  obtain ⟨v, h⟩ : ∃ v, parse "\"a\" 😀.sv" "repeat (8'h\n F) \\x\"\x7b\\ = \"\\t\t\\\"é\";" = .ok v := by
    rw [parse_afresh String.toList_ofList]
    exact exists_of_isOk (by decide +kernel)
  exact ⟨v, h, json_loses_nothing (Or.inl h) (by decide +kernel) (some (-2))⟩

/-- Every name of an entry may be a key. -/
theorem isKeyText_of_mem_entryNames {s : String} (h : s ∈ entryNames) :
    Yaml.isKeyText s.toList = true := by
  have hall : entryNames.all (fun s => Yaml.isKeyText s.toList) = true := by decide +kernel
  exact List.all_eq_true.1 hall s h

/-- **YAML loses nothing, unless a text is torn.** The tree of a text without separators is read back
from its YAML text, and with the unknown position at every node if positions are left out. Nothing
in it is taken for a number, a truth value or a date, and no blank is lost, unless the text has a
place as described at `Yaml.isTorn`. -/
theorem yaml_loses_nothing {origin code : String} {v : Value} (h : IsParsed origin code v)
    (horigin : ∀ c ∈ origin.toList, Yaml.isSeparator c = false)
    (hcode : ∀ c ∈ code.toList, Yaml.isSeparator c = false)
    (hlength : code.length + 1 < 10 ^ Number.digitLimit) (b : Bool)
    (huntorn : Yaml.isUntorn 0 0 (v.encode b) = true) :
    ∃ d, Yaml.read (Yaml.write (v.encode b)) = .ok d ∧
      decodeTree d = .ok (some (if b then v else v.withoutPositions)) := by
  have hkinds : ∀ kind : Kind, TextOf (fun c => Yaml.isSeparator c = false) kind.name := by
    intro kind
    cases kind <;> exact .of_toList String.toList_ofList (by decide)
  obtain ⟨⟨e, es, hmap⟩, hsimple, hdecode⟩ := h.isStored _ hkinds horigin hcode hlength b
  rw [hmap] at huntorn hsimple hdecode ⊢
  exact ⟨_, Yaml.read_write hsimple (fun _ hs => hs) (fun _ => isKeyText_of_mem_entryNames) huntorn,
    hdecode⟩

/-- A number as the origin, a truth value as a name, a based number with a line break in it, and a
string with a tab, with quotes and with what looks like a comment and a key. -/
theorem yaml_loses_nothing_lookalikes :
    ∃ v, parse "1:20" "repeat (8'h\n F) yes = \"yes\ta 'b' \\\" # : c\";" = .ok v ∧
      (∃ d, Yaml.read (Yaml.write (v.encode true)) = .ok d ∧ decodeTree d = .ok (some v)) ∧
      ∃ d, Yaml.read (Yaml.write (v.encode false)) = .ok d ∧
        decodeTree d = .ok (some v.withoutPositions) := by
  obtain ⟨v, h, huntorn⟩ : ∃ v, parse "1:20" "repeat (8'h\n F) yes = \"yes\ta 'b' \\\" # : c\";" = .ok v ∧
      Yaml.isUntorn 0 0 (v.encode true) = true ∧ Yaml.isUntorn 0 0 (v.encode false) = true := by
    rw [parse_afresh String.toList_ofList]
    exact exists_of_any (by decide +kernel)
  have horigin : ∀ c ∈ "1:20".toList, Yaml.isSeparator c = false :=
    TextOf.of_toList String.toList_ofList (by decide)
  have hcode : ∀ c ∈ "repeat (8'h\n F) yes = \"yes\ta 'b' \\\" # : c\";".toList,
      Yaml.isSeparator c = false :=
    TextOf.of_toList String.toList_ofList (by decide)
  exact ⟨v, h, yaml_loses_nothing (Or.inl h) horigin hcode (by decide +kernel) true huntorn.1,
    yaml_loses_nothing (Or.inl h) horigin hcode (by decide +kernel) false huntorn.2⟩

end VerilogLoops
