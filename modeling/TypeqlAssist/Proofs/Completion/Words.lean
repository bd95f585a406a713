import TypeqlAssist.Completion.Generator
import TypeqlAssist.Proofs.Distinct
import TypeqlAssist.Proofs.Document.Cursor
import TypeqlAssist.Proofs.Token.Lexeme

/-!
# The words of a document

Generators look for the nodes of a kind in the tree of a text. What they find are the words that
the tokens of the text spell (`textsOfKind_parseTree`), so what is offered can be told from the
text without its tree.
-/

namespace TypeqlAssist

open TypeqlAssist.Tree Grammar

/-! ## Spelling -/

/-- What a token covers of a text. -/
def Token.spelling (text : Text) (t : Token) : String :=
  String.ofList (text.slice t.start t.stop)

/-- The distinct words of a kind in a text, in the order of the text. -/
def wordsOf (text : Text) (k : Kind) : List String :=
  distinct (((tokenize text).filter (·.kind == k)).map (·.spelling text))

/-- A string has as many bytes as its characters. -/
lemma utf8ByteSize_ofList (cs : Text) : (String.ofList cs).utf8ByteSize = cs.byteSize := by
  induction cs with
  | nil => rfl
  | cons c cs ih =>
    rw [String.ofList_cons, String.utf8ByteSize_append, String.utf8ByteSize_singleton, ih]
    rfl

/-- A token covers what was measured, which is the same with more text behind it. -/
lemma exists_lexeme {text : Text} {t : Token} (h : t ∈ tokenize text) :
    ∃ (c : Char) (cs : Text), t.kind = (Lexer.measure c cs).1 ∧
      ∀ b, t.spelling (text ++ b) = String.ofList ((c :: cs).take (Lexer.measure c cs).2) := by
  obtain ⟨x, c, cs, rfl, rfl⟩ := tokenize_measured h
  refine ⟨c, cs, rfl, fun b => ?_⟩
  have split : x ++ c :: cs ++ b = x ++ ((c :: cs).take (Lexer.measure c cs).2 ++
      ((c :: cs).drop (Lexer.measure c cs).2 ++ b)) := by
    rw [← List.append_assoc ((c :: cs).take _), List.take_append_drop, List.append_assoc]
  rw [Token.spelling, split, Text.slice_append]

/-- Every word has a character. -/
lemma spelling_ne_empty {text : Text} {t : Token} (h : t ∈ tokenize text) :
    t.spelling text ≠ "" := by
  obtain ⟨c, cs, _, same⟩ := exists_lexeme h
  have spelled := same []
  obtain ⟨n, e⟩ := Nat.exists_eq_succ_of_ne_zero (Nat.ne_of_gt (Lexer.measure_pos c cs))
  rw [List.append_nil] at spelled
  rw [spelled, e, List.take_succ_cons, ne_eq, String.ofList_eq_empty_iff]
  exact nofun

/-- A variable starts with its sign. -/
lemma Lexer.measure_var {c : Char} {cs : Text} (h : (measure c cs).1 = .var) : c = '$' := by
  unfold measure at h
  split at h
  next sign => exact eq_of_beq sign
  split at h
  next => exact absurd h (wordKind_isToken _).2
  split at h
  next => cases h
  split at h
  next => cases h
  next => exact absurd h (measureSymbol_kind c cs).2

/-- A variable is more than its sign if it has more than one byte. -/
lemma spelling_var {text : Text} {t : Token} (h : t ∈ tokenize text) (hk : t.kind = .var) :
    decide (1 < (t.spelling text).utf8ByteSize) = (t.spelling text != "$") := by
  obtain ⟨c, cs, kind, same⟩ := exists_lexeme h
  have spelled := same []
  obtain ⟨n, e⟩ := Nat.exists_eq_succ_of_ne_zero (Nat.ne_of_gt (Lexer.measure_pos c cs))
  cases Lexer.measure_var (kind.symm.trans hk)
  rw [List.append_nil, e, List.take_succ_cons] at spelled
  rw [spelled, utf8ByteSize_ofList]
  cases cs.take n with
  | nil => rfl
  | cons d ds =>
    have pos := d.utf8Size_pos
    have other : String.ofList ('$' :: d :: ds) ≠ "$" := by
      intro e
      have alone : '$' :: d :: ds = ['$'] := String.ofList_injective e
      cases alone
    have long : 1 < Text.byteSize ('$' :: d :: ds) := by
      rw [Text.byteSize_cons, Text.byteSize_cons, show '$'.utf8Size = 1 from rfl]
      omega
    rw [decide_eq_true long, bne_iff_ne.mpr other]

/-! ## The words of a tree -/

variable {text : Text} {k : Kind}

/-- A node of the kind of a token is a leaf. -/
lemma isLeaf_of_isToken {n : Tree} (hn : n ∈ (parseTree text).preorder)
    (hk : n.kind.isToken = true) : n.isLeaf = true := by
  have empty := children_of_isToken hn hk
  rcases List.mem_cons.mp hn with rfl | hn
  · cases hk
  · by_contra inner
    rcases placed_of_text hn with placed | ⟨t, width, rfl⟩
    · rw [placed.of_children_nil empty (Bool.eq_false_iff.mpr inner)] at hk
      cases hk
    · exact inner (decide_eq_true width)

/-- The nodes of the kind of a token are the tokens of that kind. -/
lemma textIn_of_isToken (hk : k.isToken = true) :
    ((parseTree text).preorder.filter (·.kind == k)).map (·.textIn text) =
      ((tokenize text).filter (·.kind == k)).map (·.spelling text) := by
  have root : (parseTree text).kind ≠ k := by
    rintro rfl
    cases hk
  have leaves : (parseTree text).preorder.filter (·.kind == k) =
      ((preorderAll (parseTree text).children).filter isLeaf).filter (·.kind == k) := by
    change List.filter _ (parseTree text :: preorderAll (parseTree text).children) = _
    rw [List.filter_cons_of_neg (by simpa using root), List.filter_filter]
    refine List.filter_congr fun n hn => ?_
    cases e : n.kind == k with
    | false => rfl
    | true => exact (isLeaf_of_isToken (.tail _ hn) (eq_of_beq e ▸ hk)).symm
  rw [leaves, ← tokensOf_text, tokensOf, List.filter_map, List.map_map]
  rfl

/-- What is found in the tree of a text are its words. -/
theorem textsOfKind_parseTree (text : Text) (hk : k.isToken = true) :
    Completion.textsOfKind (parseTree text) text k = wordsOf text k := by
  rw [Completion.textsOfKind, textIn_of_isToken hk, List.filter_eq_self.mpr]
  · rfl
  · intro s hs
    obtain ⟨t, ht, rfl⟩ := List.mem_map.mp hs
    exact bne_iff_ne.mpr (spelling_ne_empty (List.mem_filter.mp ht).1)

/-- The words of a kind are what the tokens of that kind spell. -/
lemma mem_wordsOf {s : String} :
    s ∈ wordsOf text k ↔ ∃ t ∈ tokenize text, t.kind = k ∧ t.spelling text = s := by
  rw [wordsOf, mem_distinct, List.mem_map]
  constructor
  · rintro ⟨t, ht, rfl⟩
    obtain ⟨ht, hk⟩ := List.mem_filter.mp ht
    exact ⟨t, ht, eq_of_beq hk, rfl⟩
  · rintro ⟨t, ht, hk, rfl⟩
    exact ⟨t, List.mem_filter.mpr ⟨ht, beq_iff_eq.mpr hk⟩, rfl⟩

/-- More text without words of a kind leaves the words of that kind as they are. -/
lemma wordsOf_append {a b : Text} {ts : List Token} (e : tokenize (a ++ b) = tokenize a ++ ts)
    (other : ∀ t ∈ ts, t.kind ≠ k) : wordsOf (a ++ b) k = wordsOf a k := by
  have none : ts.filter (·.kind == k) = [] :=
    List.filter_eq_nil_iff.mpr fun t ht => by simpa using other t ht
  rw [wordsOf, e, List.filter_append, none, List.append_nil, wordsOf]
  congr 1
  refine List.map_congr_left fun t ht => ?_
  obtain ⟨c, cs, _, same⟩ := exists_lexeme (List.mem_filter.mp ht).1
  rw [same b, ← same [], List.append_nil]

/-! ## Candidates -/

namespace Completion

/-- The labels of a text as they are offered. -/
def labelCandidates (text : Text) : List Candidate :=
  (wordsOf text .label).map fun s => .ofLabel s .typeLabel 0

/-- The variables of a text as they are offered, without a sign that stands alone. -/
def variableCandidates (text : Text) (boost : Int) : List Candidate :=
  ((wordsOf text .var).filter (· != "$")).map fun s => .ofLabel s .variableName boost

/-- The labels offered in the tree of a text are those of its tokens. -/
lemma candidates_labels (text : Text) :
    Generator.labels.candidates (parseTree text) text = labelCandidates text := by
  rw [Generator.candidates, textsOfKind_parseTree text rfl, labelCandidates]

/-- The variables offered in the tree of a text are those of its tokens. -/
lemma candidates_variableNames (text : Text) (boost : Int) :
    (Generator.variableNames boost).candidates (parseTree text) text =
      variableCandidates text boost := by
  rw [Generator.candidates, textsOfKind_parseTree text rfl, variableCandidates]
  congr 1
  refine List.filter_congr fun s hs => ?_
  obtain ⟨t, ht, hk, rfl⟩ := mem_wordsOf.mp hs
  exact spelling_var ht hk

/-- What tells candidates apart. -/
def Candidate.key (c : Candidate) : String × Category :=
  (c.label, c.category)

/-- Different words make different candidates. -/
lemma nodup_ofLabel {ws : List String} (h : ws.Nodup) (category : Category) (boost : Int) :
    ((ws.map fun s => Candidate.ofLabel s category boost).map Candidate.key).Nodup := by
  rw [List.map_map]
  exact h.map fun s s' e => congrArg Prod.fst e

/-- Labels and variables are all kept. -/
lemma nodup_words (text : Text) (boost : Int) :
    ((labelCandidates text ++ variableCandidates text boost).map Candidate.key).Nodup := by
  rw [List.map_append]
  refine List.Nodup.append (nodup_ofLabel (nodup_distinct _) _ _)
    (nodup_ofLabel ((nodup_distinct _).filter _) _ _) ?_
  intro key hl hv
  obtain ⟨c, hc, rfl⟩ := List.mem_map.mp hl
  obtain ⟨c', hc', e⟩ := List.mem_map.mp hv
  obtain ⟨_, _, rfl⟩ := List.mem_map.mp hc
  obtain ⟨_, _, rfl⟩ := List.mem_map.mp hc'
  cases congrArg Prod.snd e

end Completion

end TypeqlAssist
