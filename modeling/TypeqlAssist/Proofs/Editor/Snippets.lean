import TypeqlAssist.Editor.Engine
import TypeqlAssist.Proofs.Completion.Offers
import TypeqlAssist.Proofs.Completion.Replacement

/-!
# Snippets

Whether a text is a snippet is seen from its blocks, not from what it stands for. But labels and
variables consist of the characters of words and have no braces, and of the fixed words only the
templates of nested patterns have blocks. So only these become snippets (`snippet_iff_template`),
and the sign of a variable is never read as a tab stop.
-/

namespace TypeqlAssist

namespace Editor

open Completion (Candidate Generator KeywordSet Result isWordChar)

/-! ## Texts without blocks -/

/-- A text without braces has no blocks. -/
lemma blockCount_eq_zero {cs : Text} (h : '{' ∉ cs) : blockCount cs = 0 := by
  fun_induction blockCount cs with
  | case1 => rfl
  | case2 cs ih => exact absurd (.head _) h
  | case3 c cs _ ih => exact ih fun mem => h (.tail _ mem)

/-- Words have no blocks. -/
lemma snippet?_of_isWordChar {s : String} (h : ∀ c ∈ s.toList, isWordChar c = true) :
    snippet? s = none := by
  have count : blockCount s.toList = 0 :=
    blockCount_eq_zero fun brace => absurd (h _ brace) (by decide)
  rw [snippet?, count]
  rfl

/-! ## Candidates -/

/-- The labels and the variables of a document consist of the characters of words. -/
lemma isWordChar_of_mem_wordsOf {text : Text} {k : Kind} (hk : k = .var ∨ k = .label) {s : String}
    (h : s ∈ wordsOf text k) : ∀ c ∈ s.toList, isWordChar c = true := by
  obtain ⟨t, ht, rfl, rfl⟩ := mem_wordsOf.mp h
  obtain ⟨c, cs, kind, same⟩ := exists_lexeme ht
  have spelled := same []
  rw [List.append_nil] at spelled
  rw [spelled, String.toList_ofList]
  exact Lexer.measure_isWordChar (kind ▸ hk)

/-- Of the sets of words, that of the templates has blocks in its words. -/
lemma snippet?_of_set {set : KeywordSet} {w : String} (h : w ∈ set.words) :
    (snippet? w).isSome = true ↔ set = .nestedPatterns := by
  have all : ∀ set ∈ KeywordSet.all, ∀ w ∈ set.words,
      ((snippet? w).isSome = true ↔ set = .nestedPatterns) := by decide +kernel
  exact all set (by cases set <;> decide) w h

variable {text : Text} {g : Generator} {c : Candidate}

/-- Every candidate inserts its label. -/
lemma insertText_of_mem (h : c ∈ g.block text) : c.insertText = c.label := by
  obtain ⟨w, info, boost, rfl⟩ := Completion.Generator.exists_of_mem h
  rfl

/-- The candidates with blocks are the templates. -/
lemma snippet?_of_mem (h : c ∈ g.block text) :
    ((snippet? c.insertText).isSome = true ↔ c.category = .template) ∧
      (c.category = .template → c ∈ KeywordSet.nestedPatterns.candidates) := by
  cases g with
  | labels =>
    obtain ⟨s, hs, rfl⟩ := List.mem_map.mp h
    have word := snippet?_of_isWordChar (isWordChar_of_mem_wordsOf (.inr rfl) hs)
    simp [Candidate.ofLabel, word]
  | variableNames boost =>
    obtain ⟨s, hs, rfl⟩ := List.mem_map.mp h
    have word := snippet?_of_isWordChar
      (isWordChar_of_mem_wordsOf (.inl rfl) (List.mem_filter.mp hs).1)
    simp [Candidate.ofLabel, word]
  | keywords set =>
    have category : c.category = .template ↔ set = .nestedPatterns := by
      rw [Completion.Generator.category_of_mem h]
      cases set <;> decide
    obtain ⟨w, hw, rfl⟩ := List.mem_map.mp h
    exact ⟨(snippet?_of_set hw).trans category.symm, fun template => category.mp template ▸ h⟩

/-! ## Items -/

/-- The format of an item tells whether its new text is a snippet or what its candidate inserts. -/
lemma itemOf_format (config : Config) (range : Range) (c : Candidate) (rank : Nat) :
    ((itemOf config range c rank).format = .snippet ↔
      config.snippets = true ∧ (snippet? c.insertText).isSome = true) ∧
    ((itemOf config range c rank).format ≠ .snippet →
      (itemOf config range c rank).format = .plain ∧
        (itemOf config range c rank).newText = c.insertText) := by
  cases enabled : config.snippets with
  | false => simp [itemOf, enabled]
  | true => cases found : snippet? c.insertText <;> simp [itemOf, enabled, found]

/-- Every item is made from one of the candidates. -/
lemma exists_candidate_of_mem_render {config : Config} {cursor : Nat} {result : Result}
    {item : Item} (h : item ∈ render config text cursor result) :
    ∃ c ∈ result.candidates, ∃ rank,
      item = itemOf config (rangeOf text result.replaceFrom cursor) c rank := by
  obtain ⟨rank, within, rfl⟩ := List.mem_mapIdx.mp h
  have perm : (ranked result.candidates).Perm result.candidates := List.mergeSort_perm _ _
  exact ⟨_, perm.mem_iff.mp (List.mem_of_mem_take (List.getElem_mem within)), rank, rfl⟩

/--
At a boundary there are items, each made from a candidate that is offered there. An item is a
snippet exactly where snippets are wanted and its candidate is a template, which is then one of the
fixed ones; every other item is plain text and inserts its label.
-/
theorem snippet_iff_template (config : Config) (text : Text) (offset : Nat)
    (boundary : text.isBoundary offset = true) :
    ∃ offer items, completeAt text offset = .ok offer ∧ itemsAt config text offset = .ok items ∧
      ∀ item ∈ items, ∃ result ∈ offer, ∃ c ∈ result.candidates, ∃ rank,
        item = itemOf config (rangeOf text result.replaceFrom offset) c rank ∧
        (item.format = .snippet ↔ config.snippets = true ∧ c.category = .template) ∧
        (item.format = .snippet → c ∈ KeywordSet.nestedPatterns.candidates) ∧
        (item.format ≠ .snippet → item.format = .plain ∧ item.newText = item.label) := by
  have found : completeAt text offset =
      .ok (Completion.complete (parseTree text) text offset) := if_pos boundary
  rw [itemsAt, found]
  cases offered : Completion.complete (parseTree text) text offset with
  | none => exact ⟨none, [], rfl, rfl, nofun⟩
  | some result =>
    refine ⟨some result, render config text offset result, rfl, rfl, ?_⟩
    intro item mem
    obtain ⟨c, hc, rank, rfl⟩ := exists_candidate_of_mem_render mem
    obtain ⟨_, _, gs, _, _, blocks⟩ := Completion.complete_generators offered
    obtain ⟨g, _, hg⟩ := List.mem_flatMap.mp (blocks ▸ hc)
    obtain ⟨template, fixed⟩ := snippet?_of_mem hg
    obtain ⟨format, plain⟩ := itemOf_format config (rangeOf text result.replaceFrom offset) c rank
    rw [template] at format
    rw [insertText_of_mem hg] at plain
    exact ⟨result, rfl, c, hc, rank, rfl, format, fun snippet => fixed (format.mp snippet).2, plain⟩

/-- Inside a block: the variable behind the cursor inserts its label, the templates are snippets. -/
theorem snippet_iff_template_in_block :
    Text.isBoundary "match not \x7b $x".toList 12 = true ∧
    ∃ items, itemsAt Config.default "match not \x7b $x".toList 12 = .ok items ∧
      items.map (fun item => (item.label, item.format, item.newText)) =
        [("$x", .plain, "$x"), ("not \x7b\x7d;", .snippet, "not \x7b $0 \x7d;"),
          ("\x7b\x7d or \x7b\x7d;", .snippet, "\x7b $1 \x7d or \x7b $2 \x7d;"),
          ("try \x7b\x7d;", .snippet, "try \x7b $0 \x7d;")] ∧
      ∀ item ∈ items, item.format ≠ .snippet → item.format = .plain ∧ item.newText = item.label := by
  have boundary : Text.isBoundary "match not \x7b $x".toList 12 = true := by decide
  obtain ⟨_, items, _, found, made⟩ := snippet_iff_template Config.default _ 12 boundary
  have offered : Completion.complete (parseTree "match not \x7b $x".toList)
      "match not \x7b $x".toList 12 =
      some ⟨12, .ofLabel "$x" .variableName 10 :: KeywordSet.nestedPatterns.candidates⟩ := by
    decide +kernel
  have rendered := found
  rw [itemsAt, completeAt, if_pos boundary, offered] at rendered
  refine ⟨boundary, items, found, ?_, ?_⟩
  · have order : ranked (.ofLabel "$x" .variableName 10 :: KeywordSet.nestedPatterns.candidates) =
        .ofLabel "$x" .variableName 10 :: KeywordSet.nestedPatterns.candidates :=
      List.mergeSort_of_pairwise (by decide)
    rw [← Except.ok.inj rendered, render, order]
    decide
  · intro item mem
    obtain ⟨_, _, _, _, _, _, _, _, plain⟩ := made item mem
    exact plain

end Editor

end TypeqlAssist
