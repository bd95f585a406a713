import Mathlib.Tactic
import TypeqlAssist.Completion.Result
import TypeqlAssist.Proofs.Completion.Words
import TypeqlAssist.Proofs.Document.Composition
import TypeqlAssist.Proofs.Document.Stages

/-!
# What is offered behind a terminated document

The queries in front of an unfinished one do not change what may follow it, however broken they
are: they only add their variables and labels. `offered_behind` says what is offered in four
unfinished queries behind any terminated text.
-/

namespace TypeqlAssist

open TypeqlAssist.Tree Grammar Location

/-! ## Texts that are single tokens -/

/-- The text is a single token. -/
def Spells (w : Text) (k : Kind) : Prop :=
  tokenize w = [⟨k, 0, w.byteSize⟩]

variable {w : Text} {k : Kind}

/-- A token is read alone if what follows cannot be part of it. -/
lemma Spells.tokenize_append (h : Spells w k) (hk : k ≠ .stringLiteral) {s : Char}
    (hs : Lexer.separates s = true) (b : Text) :
    tokenize (w ++ s :: b) =
      ⟨k, 0, w.byteSize⟩ :: (tokenize (s :: b)).map (Token.shift w.byteSize) := by
  have finished : Finished s w := by
    constructor
    · intro t ht
      rw [h] at ht
      cases ht
      exact hk
    · right
      rw [h]
      rfl
  rw [TypeqlAssist.tokenize_append hs b finished, h]
  rfl

/-- A token in front of a blank is read alone. -/
lemma Spells.tokenize_blank (h : Spells w k) (hk : k ≠ .stringLiteral) (b : Text) :
    tokenize (w ++ ' ' :: b) =
      ⟨k, 0, w.byteSize⟩ :: (tokenize b).map (Token.shift (w.byteSize + 1)) := by
  rw [h.tokenize_append hk rfl, TypeqlAssist.tokenize_blank rfl, map_shift_shift]
  rfl

/-! ## The node at the end of a text -/

/-- The last tokens of a text are read as if nothing stood before them. -/
def EndsWith (text : Text) (ts : List Token) : Prop :=
  ∃ ns, (parseTree text).children = ns ++ (readDocument text.byteSize ts).nodes

/-- What follows a terminated text, or none, is read as if it stood alone. -/
lemma endsWith_terminated {p b : Text} {ts : List Token} (h : p = [] ∨ isTerminated p = true)
    (tokens : tokenize b = ts) :
    EndsWith (p ++ '\n' :: b) (ts.map (Token.shift (p.byteSize + 1))) := by
  refine ⟨(parseTree p).children, ?_⟩
  rw [← tokens, Text.byteSize_newline, readDocument_shift]
  exact congrArg Parsed.nodes (readDocument_terminated h b)

/-- A node over the last tokens has a location. -/
lemma EndsWith.exists_location {text : Text} {ts : List Token} {n : Tree} (h : EndsWith text ts)
    (hn : n ∈ preorderAll (readDocument text.byteSize ts).nodes) :
    ∃ l, Reaches (ofRoot (parseTree text)) l ∧ l.focus = n := by
  obtain ⟨ns, e⟩ := h
  obtain ⟨q, hq, hn⟩ := mem_preorderAll hn
  have child : q ∈ (parseTree text).children := e ▸ List.mem_append_right ns hq
  exact exists_reaches [] (parseTree text) (.tail _ (mem_preorderAll_of_mem child hn))

/-- A production is neither an error nor a punctuation mark. -/
lemma Kind.ne_error_of_isProduction {k : Kind} (h : k.isProduction = true) :
    k.isError = false ∧ k.isPunctuation = false := by
  cases k <;> first | exact ⟨rfl, rfl⟩ | cases h

/-- What stands before a cursor behind the first of some children, in front of the others. -/
lemma kindsUpTo_append {t : Tree} {pos : Nat} {ms zs : List Tree} (h : t.children = ms ++ zs)
    (hk : t.kind.isError = false) (before : ∀ m ∈ ms, m.start < pos)
    (after : ∀ z ∈ zs, pos ≤ z.start) : t.kindsUpTo pos = ms.map kind := by
  have dropped : ∀ z ∈ zs.reverse, decide (pos ≤ z.start) = true :=
    fun z hz => decide_eq_true (after z (List.mem_reverse.mp hz))
  have kept : ms.reverse.dropWhile (fun c => decide (pos ≤ c.start)) = ms.reverse := by
    cases e : ms.reverse with
    | nil => rfl
    | cons m ms' =>
      have lt := before m (List.mem_reverse.mp (e ▸ .head _))
      rw [List.dropWhile_cons_of_neg]
      simpa using lt
  rw [kindsUpTo, hk, h, List.reverse_append, List.dropWhile_append_of_pos dropped, kept]
  rw [List.reverse_reverse]
  rfl

/--
A production reaches to the end of a text, behind its first children and in front of the others:
the first ones stop before the end, and the others only start there.
-/
structure Open (text : Text) (n : Tree) (ms : List Tree) : Prop where
  inner : n.kind ≠ .source
  production : n.kind.isProduction = true
  starts : n.start < text.byteSize
  stops : n.stop = text.byteSize
  before : ∀ m ∈ ms, m.start < text.byteSize ∧ m.stop < text.byteSize
  split : ∃ zs, n.children = ms ++ zs ∧ ∀ z ∈ zs, text.byteSize ≤ z.start

variable {text : Text} {l : Location} {ms : List Tree}

/-- The cursor at the end of a text is resolved to a node that is open there. -/
lemma Open.resolve (h : Open text l.focus ms) (reached : Reaches (ofRoot (parseTree text)) l) :
    (parseTree text).resolve text.byteSize = l := by
  obtain ⟨zs, split, after⟩ := h.split
  have last : min text.byteSize (parseTree text).stop = text.byteSize := Nat.min_self _
  refine resolve_eq (orderly_of_text text) ?_ ?_
  · rw [last]
    refine ⟨reached, ?_, h.starts, Nat.le_of_eq h.stops.symm, ?_, ?_⟩
    · rintro rfl
      exact h.inner rfl
    · exact (Kind.ne_error_of_isProduction h.production).2
    · exact clear_of_isProduction reached h.production
  · intro c hc
    rw [last, Bool.eq_false_iff, ne_eq, touches_iff]
    rintro ⟨start, stop, _⟩
    have mem := hc.mem
    rw [split] at mem
    rcases List.mem_append.mp mem with mem | mem
    · have := h.before c.focus mem
      omega
    · have := after c.focus mem
      omega

/-- The kinds before the end of the text are those of the children read so far. -/
lemma Open.kindsUpTo {n : Tree} (h : Open text n ms) :
    n.kindsUpTo text.byteSize = ms.map kind := by
  obtain ⟨zs, split, after⟩ := h.split
  exact kindsUpTo_append split (Kind.ne_error_of_isProduction h.production).1
    (fun m hm => (h.before m hm).1) after

/-! ## What is offered -/

namespace Completion

/-- What is offered at the end of a text. -/
def offered (text : Text) : Option (List Candidate) :=
  (complete (parseTree text) text text.byteSize).map (·.candidates)

variable {cs : List Candidate} {t root : Tree} {preceding : List Kind} {path : List Step}
  {pos : Nat}

/-- Candidates that differ in their labels or categories are offered as they were collected. -/
lemma offered_of_climb (h : Open text l.focus ms) (reached : Reaches (ofRoot (parseTree text)) l)
    (collected : climb (parseTree text) text text.byteSize
      (contextsAlong l.focus (ms.map kind) l.path) = some cs)
    (nodup : (cs.map Candidate.key).Nodup) :
    offered text = if cs.isEmpty then none else some cs := by
  have same : distinctBy (fun c : Candidate => (c.label, c.category)) cs = cs :=
    distinctBy_of_nodup nodup
  simp only [offered, complete, Nat.min_self, h.resolve reached, contextsAt, h.kindsUpTo,
    collected, same]
  split <;> rfl

/-- The first rule that fires decides, if it does not continue. -/
lemma climb_fires {rule : Completion.Rule} (h : consult pos ⟨t, preceding⟩ = .fires rule)
    (hr : rule.continues = false) :
    climb root text pos (contextsAlong t preceding path) = some (rule.candidates root text) := by
  cases path <;> simp [contextsAlong, climb, h, hr]

/-- A node with nothing to say leaves the offer to its parent. -/
lemma climb_silent {s : Step} (h : consult pos ⟨t, preceding⟩ = .silent) :
    climb root text pos (contextsAlong t preceding (s :: path)) =
      climb root text pos (contextsAlong s.parent
        ((s.parent.children.take s.index).map kind ++ preceding) path) := by
  rw [contextsAlong, climb, h]

/-- Where a rule fires that does not continue, its candidates are offered. -/
lemma offered_of_fires {rule : Completion.Rule} (h : Open text l.focus ms)
    (reached : Reaches (ofRoot (parseTree text)) l)
    (fires : consult text.byteSize ⟨l.focus, ms.map kind⟩ = .fires rule)
    (hr : rule.continues = false) (candidates : rule.candidates (parseTree text) text = cs)
    (nodup : (cs.map Candidate.key).Nodup) :
    offered text = if cs.isEmpty then none else some cs := by
  refine offered_of_climb h reached ?_ nodup
  rw [climb_fires fires hr, candidates]

/-! ## The unfinished queries -/

variable {a b c d f g h i j m n r eof : Nat}

/-- A clause without a pattern lacks one at the end of the input. -/
lemma readDocument_match :
    (readDocument eof [⟨.kwMatch, a, b⟩]).nodes =
      [node .query a eof [node .queryPipeline a eof [node .clauseMatch a eof
        [leaf ⟨.kwMatch, a, b⟩, node .error eof eof []]]]] :=
  calc
    _ = [enclose .query a [enclose .queryPipeline a [enclose .clauseMatch a
          [leaf ⟨.kwMatch, a, b⟩, node .error eof eof []] (some eof)] (some eof)]
          (some eof)] := by cbv
    _ = _ := by simp [enclose, leaf]

/-- A variable alone is a statement that stays open. -/
lemma readDocument_subject (hd : d < eof) :
    (readDocument eof [⟨.kwMatch, a, b⟩, ⟨.var, c, d⟩]).nodes =
      [node .query a eof [node .queryPipeline a eof [node .clauseMatch a eof
        [leaf ⟨.kwMatch, a, b⟩, node .statement c eof [leaf ⟨.var, c, d⟩],
          node .error eof eof []]]]] :=
  calc
    _ = [enclose .query a [enclose .queryPipeline a [enclose .clauseMatch a
          [leaf ⟨.kwMatch, a, b⟩, enclose .statement c [leaf ⟨.var, c, d⟩] (some eof),
            node .error eof eof []] (some eof)] (some eof)] (some eof)] := by cbv
    _ = _ := by simp [enclose, leaf, Nat.le_of_lt hd]

/-- A constraint without its type is a statement about a thing that stays open. -/
lemma readDocument_isa :
    (readDocument eof [⟨.kwMatch, a, b⟩, ⟨.var, c, d⟩, ⟨.kwIsa, f, g⟩]).nodes =
      [node .query a eof [node .queryPipeline a eof [node .clauseMatch a eof
        [leaf ⟨.kwMatch, a, b⟩, node .statement c eof [node .statementThing c eof
          [leaf ⟨.var, c, d⟩, leaf ⟨.kwIsa, f, g⟩, node .error eof eof []]],
          node .error eof eof []]]]] :=
  calc
    _ = [enclose .query a [enclose .queryPipeline a [enclose .clauseMatch a
          [leaf ⟨.kwMatch, a, b⟩, enclose .statement c [enclose .statementThing c
            [leaf ⟨.var, c, d⟩, leaf ⟨.kwIsa, f, g⟩, node .error eof eof []] (some eof)]
            (some eof), node .error eof eof []] (some eof)] (some eof)] (some eof)] := by cbv
    _ = _ := by simp [enclose, leaf]

/-- A comma behind a constraint leaves a definition open. -/
lemma readDocument_definable :
    (readDocument eof [⟨.kwDefine, a, b⟩, ⟨.rootKind, c, d⟩, ⟨.label, f, g⟩, ⟨.kwSub, h, i⟩,
      ⟨.label, j, m⟩, ⟨.comma, n, r⟩]).nodes =
      [node .query a eof [node .querySchema a eof [leaf ⟨.kwDefine, a, b⟩, node .definable c eof
        [leaf ⟨.rootKind, c, d⟩, leaf ⟨.label, f, g⟩,
          node .typeConstraint h m [leaf ⟨.kwSub, h, i⟩, node .typeRef j m [leaf ⟨.label, j, m⟩]],
          leaf ⟨.comma, n, r⟩, node .error eof eof []], node .error eof eof []]]] :=
  calc
    _ = [enclose .query a [enclose .querySchema a [leaf ⟨.kwDefine, a, b⟩, enclose .definable c
          [leaf ⟨.rootKind, c, d⟩, leaf ⟨.label, f, g⟩, enclose .typeConstraint h
            [leaf ⟨.kwSub, h, i⟩, enclose .typeRef j [leaf ⟨.label, j, m⟩] none] none,
            leaf ⟨.comma, n, r⟩, node .error eof eof []] (some eof), node .error eof eof []]
          (some eof)] (some eof)] := by cbv
    _ = _ := by simp [enclose, leaf]

/-- Behind `match`, variables and labels are offered. -/
lemma offered_match (ends : EndsWith text [⟨.kwMatch, a, b⟩]) (ha : a < text.byteSize)
    (hb : b < text.byteSize) :
    offered text = if (variableCandidates text 10 ++ labelCandidates text).isEmpty then none
      else some (variableCandidates text 10 ++ labelCandidates text) := by
  obtain ⟨l, reached, focus⟩ := ends.exists_location (n := node .clauseMatch a text.byteSize
    [leaf ⟨.kwMatch, a, b⟩, node .error text.byteSize text.byteSize []])
    (by rw [readDocument_match]; simp)
  have opened : Open text l.focus [leaf ⟨.kwMatch, a, b⟩] := by
    rw [focus]
    refine ⟨nofun, rfl, ha, rfl, ?_, _, rfl, ?_⟩
    · simpa [leaf] using ⟨ha, hb⟩
    · simp
  have fires : consult text.byteSize ⟨l.focus, [.kwMatch]⟩ =
      .fires ⟨[[.kwMatch]], [freshVariables, .labels], false⟩ := by
    rw [focus]
    rfl
  refine offered_of_fires opened reached fires rfl ?_ ?_
  · simp [Completion.Rule.candidates, freshVariables, candidates_labels, candidates_variableNames]
  · have words := nodup_words text 10
    rw [List.map_append] at words ⊢
    exact List.nodup_append_comm.mp words

/-- Behind the subject of a statement, constraints on things and on types are offered. -/
lemma offered_subject (ends : EndsWith text [⟨.kwMatch, a, b⟩, ⟨.var, c, d⟩])
    (hc : c < text.byteSize) (hd : d < text.byteSize) :
    offered text =
      some (KeywordSet.thingConstraints.candidates ++ KeywordSet.typeConstraints.candidates) := by
  obtain ⟨l, reached, focus⟩ := ends.exists_location (n := node .statement c text.byteSize
    [leaf ⟨.var, c, d⟩]) (by rw [readDocument_subject hd]; simp)
  have opened : Open text l.focus [leaf ⟨.var, c, d⟩] := by
    rw [focus]
    refine ⟨nofun, rfl, hc, rfl, ?_, [], rfl, nofun⟩
    simpa [leaf] using ⟨hc, hd⟩
  have before : (l.focus.childBefore? text.byteSize).map kind = some .var := by
    rw [focus]
    simp [Tree.childBefore?, leaf, hc]
  have fires : consult text.byteSize ⟨l.focus, [.var]⟩ = .fires ⟨[[.var], [.comma]],
      [.keywords .thingConstraints, .keywords .typeConstraints], false⟩ := by
    simp only [consult, Entry.rulesFor?, before]
    rw [focus]
    rfl
  have nodup : ((KeywordSet.thingConstraints.candidates ++
      KeywordSet.typeConstraints.candidates).map Candidate.key).Nodup := by decide
  exact offered_of_fires opened reached fires rfl rfl nodup

/-- Behind `isa`, labels and demoted variables are offered. -/
lemma offered_isa (ends : EndsWith text [⟨.kwMatch, a, b⟩, ⟨.var, c, d⟩, ⟨.kwIsa, f, g⟩])
    (hc : c < text.byteSize) (hd : d < text.byteSize) (hf : f < text.byteSize)
    (hg : g < text.byteSize) :
    offered text = if (labelCandidates text ++ variableCandidates text (-10)).isEmpty then none
      else some (labelCandidates text ++ variableCandidates text (-10)) := by
  let thing := node .statementThing c text.byteSize
    [leaf ⟨.var, c, d⟩, leaf ⟨.kwIsa, f, g⟩, node .error text.byteSize text.byteSize []]
  obtain ⟨⟨statement, path⟩, above, focus⟩ := ends.exists_location
    (n := node .statement c text.byteSize [thing]) (by rw [readDocument_isa]; simp [thing])
  cases focus
  have reached : Reaches (ofRoot (parseTree text))
      ⟨thing, ⟨node .statement c text.byteSize [thing], 0⟩ :: path⟩ := .tail above ⟨0, rfl⟩
  have opened : Open text thing [leaf ⟨.var, c, d⟩, leaf ⟨.kwIsa, f, g⟩] := by
    refine ⟨nofun, rfl, hc, rfl, ?_, _, rfl, ?_⟩
    · simpa [leaf] using ⟨⟨hc, hd⟩, hf, hg⟩
    · simp
  have before : ((node .statement c text.byteSize [thing]).childBefore? text.byteSize).map kind =
      some .statementThing := by
    simp [Tree.childBefore?, thing, hc]
  have fires : consult text.byteSize ⟨node .statement c text.byteSize [thing], [.var, .kwIsa]⟩ =
      .fires ⟨[[.kwHas], [.kwIsa]], [.labels, demotedVariables], false⟩ := by
    simp only [consult, Entry.rulesFor?, before]
    rfl
  refine offered_of_climb opened reached ?_ (nodup_words text (-10))
  -- a statement about a thing has no rules of its own, the statement above it has
  refine (climb_silent rfl).trans ((climb_fires fires rfl).trans ?_)
  simp [Completion.Rule.candidates, demotedVariables, candidates_labels, candidates_variableNames]

/-- Behind a comma in a definition, constraints on types are offered. -/
lemma offered_definable (ends : EndsWith text [⟨.kwDefine, a, b⟩, ⟨.rootKind, c, d⟩, ⟨.label, f, g⟩,
      ⟨.kwSub, h, i⟩, ⟨.label, j, m⟩, ⟨.comma, n, r⟩])
    (hd : c ≤ d ∧ d ≤ f) (hg : f ≤ g ∧ g ≤ h) (hm : h ≤ m ∧ m ≤ n)
    (hr : n ≤ r ∧ r < text.byteSize) :
    offered text = some KeywordSet.typeConstraints.candidates := by
  let before := [leaf ⟨.rootKind, c, d⟩, leaf ⟨.label, f, g⟩,
    node .typeConstraint h m [leaf ⟨.kwSub, h, i⟩, node .typeRef j m [leaf ⟨.label, j, m⟩]],
    leaf ⟨.comma, n, r⟩]
  obtain ⟨l, reached, focus⟩ := ends.exists_location (n := node .definable c text.byteSize
    (before ++ [node .error text.byteSize text.byteSize []]))
    (by rw [readDocument_definable]; simp [before])
  have opened : Open text l.focus before := by
    rw [focus]
    refine ⟨nofun, rfl, by rw [start_node]; omega, rfl, ?_, _, rfl, ?_⟩
    · simp [before, leaf]
      omega
    · simp
  have fires : consult text.byteSize ⟨l.focus, before.map kind⟩ =
      .fires ⟨[[.comma], [.rootKind, .label]], [.keywords .typeConstraints], false⟩ := by
    rw [focus]
    rfl
  have nodup : (KeywordSet.typeConstraints.candidates.map Candidate.key).Nodup := by decide
  exact offered_of_fires opened reached fires rfl rfl nodup

/-! ## Behind a terminated text -/

variable {p v l₁ l₂ : Text}

/-- The tokens of `match` and a variable. -/
lemma tokenize_subject (hv : Spells v .var) :
    tokenize ("match ".toList ++ v ++ " ".toList) =
      [⟨.kwMatch, 0, 5⟩, ⟨.var, 6, 6 + v.byteSize⟩] := by
  have keyword : Spells "match".toList .kwMatch := rfl
  change tokenize ("match".toList ++ ' ' :: (v ++ [' '])) = _
  rw [keyword.tokenize_blank nofun, hv.tokenize_blank nofun]
  rfl

/-- The tokens of `match`, a variable and `isa`. -/
lemma tokenize_isa (hv : Spells v .var) :
    tokenize ("match ".toList ++ v ++ " isa ".toList) =
      [⟨.kwMatch, 0, 5⟩, ⟨.var, 6, 6 + v.byteSize⟩,
        ⟨.kwIsa, 7 + v.byteSize, 10 + v.byteSize⟩] := by
  have keyword : Spells "match".toList .kwMatch := rfl
  have isa : tokenize "isa ".toList = [⟨.kwIsa, 0, 3⟩] := by decide
  change tokenize ("match".toList ++ ' ' :: (v ++ ' ' :: "isa ".toList)) = _
  rw [keyword.tokenize_blank nofun, hv.tokenize_blank nofun, isa]
  have five : Text.byteSize "match".toList = 5 := rfl
  simp only [List.map_cons, List.map_nil, Token.shift, five, List.cons.injEq, Token.mk.injEq,
    true_and, and_true]
  omega

/-- The tokens of the definition of a relation with a supertype and a comma. -/
lemma tokenize_definable (h₁ : Spells l₁ .label) (h₂ : Spells l₂ .label) :
    tokenize ("define relation ".toList ++ l₁ ++ " sub ".toList ++ l₂ ++ ", ".toList) =
      [⟨.kwDefine, 0, 6⟩, ⟨.rootKind, 7, 15⟩, ⟨.label, 16, 16 + l₁.byteSize⟩,
        ⟨.kwSub, 17 + l₁.byteSize, 20 + l₁.byteSize⟩,
        ⟨.label, 21 + l₁.byteSize, 21 + l₁.byteSize + l₂.byteSize⟩,
        ⟨.comma, 21 + l₁.byteSize + l₂.byteSize, 22 + l₁.byteSize + l₂.byteSize⟩] := by
  have define : Spells "define".toList .kwDefine := rfl
  have kind : Spells "relation".toList .rootKind := rfl
  have sub : Spells "sub".toList .kwSub := rfl
  have comma : tokenize ", ".toList = [⟨.comma, 0, 1⟩] := by decide
  have split : "define relation ".toList ++ l₁ ++ " sub ".toList ++ l₂ ++ ", ".toList =
      "define".toList ++ ' ' :: ("relation".toList ++ ' ' :: (l₁ ++ ' ' :: ("sub".toList ++ ' ' ::
        (l₂ ++ ',' :: [' '])))) := by simp
  rw [split, define.tokenize_blank nofun, kind.tokenize_blank nofun, h₁.tokenize_blank nofun,
    sub.tokenize_blank nofun, h₂.tokenize_append nofun rfl]
  change _ :: (_ :: (_ :: (_ :: (_ :: (tokenize ", ".toList).map _).map _).map _).map _).map _ = _
  have sizes : Text.byteSize "define".toList = 6 ∧ Text.byteSize "relation".toList = 8 ∧
      Text.byteSize "sub".toList = 3 := ⟨rfl, rfl, rfl⟩
  simp only [comma, List.map_cons, List.map_nil, Token.shift, sizes, List.cons.injEq,
    Token.mk.injEq, true_and, and_true]
  omega

/-- More text on the next line without words of a kind does not add any. -/
lemma wordsOf_terminated (hp : p = [] ∨ isTerminated p = true) {q : Text} {k : Kind}
    (other : ∀ t ∈ tokenize q, t.kind ≠ k) : wordsOf (p ++ '\n' :: q) k = wordsOf p k := by
  refine wordsOf_append (tokenize_terminated hp q) fun t ht => ?_
  obtain ⟨u, hu, rfl⟩ := List.mem_map.mp ht
  exact other u hu

/-- A variable of more than its sign is among those that are offered. -/
lemma variableCandidates_ne_nil (hp : p = [] ∨ isTerminated p = true) (hv : Spells v .var)
    (long : 1 < v.length) (boost : Int) :
    variableCandidates (p ++ '\n' :: ("match ".toList ++ v ++ " isa ".toList)) boost ≠ [] := by
  have token : ⟨.var, p.byteSize + 1 + 6, p.byteSize + 1 + (6 + v.byteSize)⟩ ∈
      tokenize (p ++ '\n' :: ("match ".toList ++ v ++ " isa ".toList)) := by
    rw [tokenize_terminated hp, tokenize_isa hv]
    exact List.mem_append_right _ (.tail _ (.head _))
  have spelled : Token.spelling (p ++ '\n' :: ("match ".toList ++ v ++ " isa ".toList))
      ⟨.var, p.byteSize + 1 + 6, p.byteSize + 1 + (6 + v.byteSize)⟩ = String.ofList v := by
    have slice := Text.slice_append (p ++ '\n' :: "match ".toList) v " isa ".toList
    rw [Text.byteSize_newline, Nat.add_assoc _ _ v.byteSize, List.append_assoc] at slice
    rw [Token.spelling, List.append_assoc "match ".toList]
    exact congrArg String.ofList slice
  have word := mem_wordsOf.mpr ⟨_, token, rfl, spelled⟩
  have other : String.ofList v ≠ "$" := by
    intro e
    have sign : v = ['$'] := String.ofList_injective e
    rw [sign] at long
    exact Nat.lt_irrefl _ long
  refine List.ne_nil_of_mem (List.mem_map_of_mem (List.mem_filter.mpr ⟨word, ?_⟩))
  exact bne_iff_ne.mpr other

/-- What `match` offers is what stands before it, variables first. -/
lemma offered_match_behind (hp : p = [] ∨ isTerminated p = true) :
    offered (p ++ '\n' :: "match ".toList) =
      if (variableCandidates p 10 ++ labelCandidates p).isEmpty then none
      else some (variableCandidates p 10 ++ labelCandidates p) := by
  have tokens : tokenize "match ".toList = [⟨.kwMatch, 0, 5⟩] := by decide
  have ends : EndsWith (p ++ '\n' :: "match ".toList)
      [⟨.kwMatch, p.byteSize + 1 + 0, p.byteSize + 1 + 5⟩] :=
    endsWith_terminated hp tokens
  have size : Text.byteSize (p ++ '\n' :: "match ".toList) = p.byteSize + 1 + 6 :=
    Text.byteSize_newline p _
  -- the keyword adds neither a label nor a variable
  have labels : wordsOf (p ++ '\n' :: "match ".toList) .label = wordsOf p .label :=
    wordsOf_terminated hp (by rw [tokens]; decide)
  have vars : wordsOf (p ++ '\n' :: "match ".toList) .var = wordsOf p .var :=
    wordsOf_terminated hp (by rw [tokens]; decide)
  rw [offered_match ends (by omega) (by omega), variableCandidates, vars, labelCandidates, labels]
  rfl

/-- A variable that starts a statement offers the constraints it may have. -/
lemma offered_subject_behind (hp : p = [] ∨ isTerminated p = true) (hv : Spells v .var) :
    offered (p ++ '\n' :: ("match ".toList ++ v ++ " ".toList)) =
      some (KeywordSet.thingConstraints.candidates ++ KeywordSet.typeConstraints.candidates) := by
  have ends : EndsWith (p ++ '\n' :: ("match ".toList ++ v ++ " ".toList))
      [⟨.kwMatch, p.byteSize + 1 + 0, p.byteSize + 1 + 5⟩,
        ⟨.var, p.byteSize + 1 + 6, p.byteSize + 1 + (6 + v.byteSize)⟩] :=
    endsWith_terminated hp (tokenize_subject hv)
  have size : Text.byteSize (p ++ '\n' :: ("match ".toList ++ v ++ " ".toList)) =
      p.byteSize + 1 + (6 + v.byteSize + 1) := by
    rw [Text.byteSize_newline, Text.byteSize_append, Text.byteSize_append]
    rfl
  exact offered_subject ends (by omega) (by omega)

/-- `isa` offers all labels, and then the variables. -/
lemma offered_isa_behind (hp : p = [] ∨ isTerminated p = true) (hv : Spells v .var)
    (long : 1 < v.length) :
    offered (p ++ '\n' :: ("match ".toList ++ v ++ " isa ".toList)) =
      some (labelCandidates (p ++ '\n' :: ("match ".toList ++ v ++ " isa ".toList)) ++
        variableCandidates (p ++ '\n' :: ("match ".toList ++ v ++ " isa ".toList)) (-10)) := by
  have ends : EndsWith (p ++ '\n' :: ("match ".toList ++ v ++ " isa ".toList))
      [⟨.kwMatch, p.byteSize + 1 + 0, p.byteSize + 1 + 5⟩,
        ⟨.var, p.byteSize + 1 + 6, p.byteSize + 1 + (6 + v.byteSize)⟩,
        ⟨.kwIsa, p.byteSize + 1 + (7 + v.byteSize), p.byteSize + 1 + (10 + v.byteSize)⟩] :=
    endsWith_terminated hp (tokenize_isa hv)
  have size : Text.byteSize (p ++ '\n' :: ("match ".toList ++ v ++ " isa ".toList)) =
      p.byteSize + 1 + (6 + v.byteSize + 5) := by
    rw [Text.byteSize_newline, Text.byteSize_append, Text.byteSize_append]
    rfl
  have some := variableCandidates_ne_nil hp hv long (-10)
  rw [offered_isa ends (by omega) (by omega) (by omega) (by omega), if_neg]
  rw [List.isEmpty_iff]
  exact fun empty => some (List.append_eq_nil_iff.mp empty).2

/-- A comma in a definition offers the constraints of types. -/
lemma offered_definable_behind (hp : p = [] ∨ isTerminated p = true) (h₁ : Spells l₁ .label)
    (h₂ : Spells l₂ .label) :
    offered (p ++ '\n' :: ("define relation ".toList ++ l₁ ++ " sub ".toList ++ l₂ ++
      ", ".toList)) = some KeywordSet.typeConstraints.candidates := by
  have ends : EndsWith (p ++ '\n' :: ("define relation ".toList ++ l₁ ++ " sub ".toList ++ l₂ ++
      ", ".toList))
      [⟨.kwDefine, p.byteSize + 1 + 0, p.byteSize + 1 + 6⟩,
        ⟨.rootKind, p.byteSize + 1 + 7, p.byteSize + 1 + 15⟩,
        ⟨.label, p.byteSize + 1 + 16, p.byteSize + 1 + (16 + l₁.byteSize)⟩,
        ⟨.kwSub, p.byteSize + 1 + (17 + l₁.byteSize), p.byteSize + 1 + (20 + l₁.byteSize)⟩,
        ⟨.label, p.byteSize + 1 + (21 + l₁.byteSize),
          p.byteSize + 1 + (21 + l₁.byteSize + l₂.byteSize)⟩,
        ⟨.comma, p.byteSize + 1 + (21 + l₁.byteSize + l₂.byteSize),
          p.byteSize + 1 + (22 + l₁.byteSize + l₂.byteSize)⟩] :=
    endsWith_terminated hp (tokenize_definable h₁ h₂)
  have size : Text.byteSize (p ++ '\n' :: ("define relation ".toList ++ l₁ ++ " sub ".toList ++
      l₂ ++ ", ".toList)) = p.byteSize + 1 + (16 + l₁.byteSize + 5 + l₂.byteSize + 2) := by
    rw [Text.byteSize_newline, Text.byteSize_append, Text.byteSize_append, Text.byteSize_append,
      Text.byteSize_append]
    rfl
  exact offered_definable ends (by omega) (by omega) (by omega) (by omega)

/--
Behind a terminated text, or none, an unfinished query on the next line is offered what it is
offered alone, with the words of the whole document: after `match` variables and labels, after a
variable the constraints on things and on types, after `isa` labels and demoted variables, and
after the comma of a definition the constraints on types.
-/
theorem offered_behind (p v l₁ l₂ : Text) (hp : p = [] ∨ isTerminated p = true)
    (hv : Spells v .var) (long : 1 < v.length) (h₁ : Spells l₁ .label) (h₂ : Spells l₂ .label) :
    offered (p ++ '\n' :: "match ".toList) =
      (if (variableCandidates p 10 ++ labelCandidates p).isEmpty then none
        else some (variableCandidates p 10 ++ labelCandidates p)) ∧
    (offered (p ++ '\n' :: ("match ".toList ++ v ++ " ".toList))).map (·.map (·.label)) =
      some ["isa", "has", "links", "sub", "owns", "relates", "plays"] ∧
    offered (p ++ '\n' :: ("match ".toList ++ v ++ " isa ".toList)) =
      some (labelCandidates (p ++ '\n' :: ("match ".toList ++ v ++ " isa ".toList)) ++
        variableCandidates (p ++ '\n' :: ("match ".toList ++ v ++ " isa ".toList)) (-10)) ∧
    (offered (p ++ '\n' :: ("define relation ".toList ++ l₁ ++ " sub ".toList ++ l₂ ++
      ", ".toList))).map (·.map (·.label)) = some ["sub", "owns", "relates", "plays"] := by
  refine ⟨offered_match_behind hp, ?_, offered_isa_behind hp hv long, ?_⟩
  · rw [offered_subject_behind hp hv]
    rfl
  · rw [offered_definable_behind hp h₁ h₂]
    rfl

/-- Behind a query that lacks a type and has a bracket too many. -/
theorem offered_behind_broken :
    isTerminated "match $x isa; $ has name); end;".toList = true ∧ Spells "$y".toList .var ∧
    1 < "$y".toList.length ∧ Spells "friendship".toList .label ∧ Spells "bond".toList .label ∧
    offered ("match $x isa; $ has name); end;".toList ++ '\n' :: "match ".toList) =
      some [.ofLabel "$x" .variableName 10, .ofLabel "name" .typeLabel 0] ∧
    (offered ("match $x isa; $ has name); end;".toList ++ '\n' :: ("match ".toList ++
      "$y".toList ++ " ".toList))).map (·.map (·.label)) =
      some ["isa", "has", "links", "sub", "owns", "relates", "plays"] ∧
    offered ("match $x isa; $ has name); end;".toList ++ '\n' :: ("match ".toList ++
      "$y".toList ++ " isa ".toList)) =
      some [.ofLabel "name" .typeLabel 0, .ofLabel "$x" .variableName (-10),
        .ofLabel "$y" .variableName (-10)] ∧
    (offered ("match $x isa; $ has name); end;".toList ++ '\n' :: ("define relation ".toList ++
      "friendship".toList ++ " sub ".toList ++ "bond".toList ++ ", ".toList))).map
      (·.map (·.label)) = some ["sub", "owns", "relates", "plays"] := by
  have terminated : isTerminated "match $x isa; $ has name); end;".toList = true := by decide
  have long : 1 < "$y".toList.length := by decide
  have friendship : Spells "friendship".toList .label := rfl
  have bond : Spells "bond".toList .label := rfl
  obtain ⟨opened, subject, isa, definable⟩ := offered_behind "match $x isa; $ has name); end;".toList
    "$y".toList "friendship".toList "bond".toList (.inr terminated) rfl long friendship bond
  refine ⟨terminated, rfl, long, friendship, bond, ?_, subject, ?_, definable⟩
  · exact opened.trans (by decide)
  · exact isa.trans (by decide)

end Completion

end TypeqlAssist
