import TypeqlAssist.Proofs.Document.Parents
import TypeqlAssist.Proofs.Grammar.Strays
import TypeqlAssist.Proofs.Token.Isolation

/-!
# A word typed at the end of a text

Where a word behind a blank is an error of its own in a production that takes strays, it is one
label behind the tokens of the text (`Typed.tokenize_eq`). So the trees without the word and with it
differ by this stray only (`Typed.follows`), and the way to the production that holds the word is
the same in both (`Follows.exists_beside`).
-/

namespace TypeqlAssist

open TypeqlAssist.Tree Grammar Location Lexer

variable {s w : Text}

/-! ## The node of the word -/

/-- What is at the end of a text with a word behind it. -/
def wordAt (s w : Text) : Location :=
  (parseTree (s ++ w)).resolve (Text.byteSize (s ++ w))

/-- The label that a word is. -/
def wordToken (s w : Text) : Token :=
  ⟨.label, s.byteSize, Text.byteSize (s ++ w)⟩

/--
A word behind a blank at the end of a text is an error node of its own in a production that takes
strays.
-/
structure Typed (s w : Text) : Prop where
  blank : ∃ c ∈ s.getLast?, isBlank c = true
  word : ∀ c ∈ w, Completion.isWordChar c = true
  kind : (wordAt s w).focus.kind = .error
  start : (wordAt s w).focus.start = s.byteSize
  stop : (wordAt s w).focus.stop = Text.byteSize (s ++ w)
  parent : ∃ p ∈ (wordAt s w).parent?, p.focus.kind.takesStrays = true

-- Bounded quantifiers over `Char` may be decided by running through all characters, so the first
-- two are written with `any` and `all`.
instance (s w : Text) : Decidable (Typed s w) :=
  decidable_of_iff (s.getLast?.any isBlank = true ∧ w.all Completion.isWordChar = true ∧
      (wordAt s w).focus.kind = .error ∧ (wordAt s w).focus.start = s.byteSize ∧
      (wordAt s w).focus.stop = Text.byteSize (s ++ w) ∧
      (wordAt s w).parent?.any (·.focus.kind.takesStrays) = true)
    ⟨fun ⟨blank, word, kind, start, stop, parent⟩ => ⟨(Option.any_eq_true _ _).mp blank,
        List.all_eq_true.mp word, kind, start, stop, (Option.any_eq_true _ _).mp parent⟩,
      fun ⟨blank, word, kind, start, stop, parent⟩ => ⟨(Option.any_eq_true _ _).mpr blank,
        List.all_eq_true.mpr word, kind, start, stop, (Option.any_eq_true _ _).mpr parent⟩⟩

/-- The word is reached from the root. -/
lemma reaches_wordAt : Reaches (ofRoot (parseTree (s ++ w))) (wordAt s w) :=
  reaches_resolve _ _

/-- An error holds nothing but tokens, and has no width without them. -/
lemma Grammar.Placed.of_error {n : Tree} (h : Placed n) (hk : n.kind = .error) :
    ∃ ts : List Token, n.children = ts.map leaf ∧ (∀ t ∈ ts, t.start < t.stop) ∧
      (ts = [] → n.start = n.stop) := by
  cases h with
  | token other => exact absurd hk other
  | fault width flat => exact ⟨_, rfl, width, flat⟩
  | production other => exact absurd hk other

/-- The way down from a token ends there. -/
lemma Tree.Location.Reaches.of_leaf {l m : Location} {t : Token} (h : Reaches l m)
    (hl : l.focus = leaf t) : m = l := by
  rcases h.cases_head with e | ⟨c, hc, _⟩
  · exact e.symm
  · have child := hc.mem
    rw [hl] at child
    cases child

namespace Typed

variable (h : Typed s w)
include h

/-- The node of the word is at the end of the text. -/
lemma isAt : (wordAt s w).IsAt (parseTree (s ++ w)) (Text.byteSize (s ++ w)) := by
  have resolved := (resolve_isAt (orderly_of_text (s ++ w)) (Text.byteSize (s ++ w))).2
  rw [show min (Text.byteSize (s ++ w)) (parseTree (s ++ w)).stop = Text.byteSize (s ++ w) from
    Nat.min_self _] at resolved
  rcases resolved with here | root
  · exact here
  · have kind := h.kind
    rw [wordAt, root] at kind
    cases kind

/-- The word has a width. -/
lemma lt : s.byteSize < Text.byteSize (s ++ w) :=
  h.start ▸ h.isAt.starts

/-- The production that holds the word. -/
lemma exists_host : ∃ p, Reaches (ofRoot (parseTree (s ++ w))) p ∧ HasChild p (wordAt s w) ∧
    p.focus.kind.takesStrays = true ∧
    p.focus ∈ preorderAll (readDocument (Text.byteSize (s ++ w)) (tokenize (s ++ w))).nodes := by
  obtain ⟨p, hp, takes⟩ := h.parent
  rcases Relation.ReflTransGen.cases_tail (reaches_wordAt (s := s) (w := w)) with root | ⟨q, hq, step⟩
  · exact absurd root h.isAt.below
  · cases Option.some.inj (hp.symm.trans step.parent?)
    refine ⟨p, hq, step, takes, ?_⟩
    rcases standing_of_text hq with rfl | ⟨_, mem⟩
    · cases takes
    · exact mem

/-- The node of the word is an error around a label that starts with it. -/
lemma exists_label : ∃ t ∈ tokenize (s ++ w), t.kind = .label ∧ t.start = s.byteSize ∧
    (wordAt s w).focus = node .error s.byteSize (Text.byteSize (s ++ w)) [leaf t] := by
  obtain ⟨p, hp, step, takes, mem⟩ := h.exists_host
  have child := step.mem
  have placed : Placed p.focus := by
    rcases placed_of_text mem with placed | ⟨t, _, e⟩
    · exact placed
    · rw [e] at child
      cases child
  have inner : Placed (wordAt s w).focus := by
    generalize p.focus = host at child placed takes
    cases placed with
    | token => cases child
    | fault => cases takes
    | production _ _ hcs => exact hcs _ child
  obtain ⟨ts, tokens, width, flat⟩ := inner.of_error h.kind
  rcases readDocument_strays _ _ p.focus mem takes _ child h.kind with none | ⟨t, ht, one, first⟩
  · -- an error without children has no width
    rw [tokens, List.map_eq_nil_iff] at none
    have narrow := flat none
    rw [h.start, h.stop] at narrow
    exact absurd narrow (Nat.ne_of_lt h.lt)
  · have wide : t.start < t.stop := by
      obtain ⟨u, hu, e⟩ := List.mem_map.mp (tokens ▸ one ▸ List.mem_singleton_self (leaf t))
      have wide : (leaf u).start < (leaf u).stop := width u hu
      rwa [e] at wide
    have below : HasChild (wordAt s w) ⟨leaf t, ⟨(wordAt s w).focus, 0⟩ :: (wordAt s w).path⟩ :=
      hasChild_iff.mpr ⟨0, by rw [one]; rfl, rfl⟩
    have token : t ∈ tokenize (s ++ w) := by
      rcases standing_of_text (reaches_wordAt.tail below) with root | ⟨_, mem⟩
      · exact absurd (congrArg Location.path root) (List.cons_ne_nil _ _)
      · exact leaf_of_text wide mem
    refine ⟨t, token, ht, first.symm.trans h.start, ?_⟩
    have kind := h.kind
    have start := h.start
    have stop := h.stop
    generalize (wordAt s w).focus = n at kind start stop one ⊢
    obtain ⟨k, a, b, cs⟩ := n
    cases kind
    cases start
    cases stop
    cases one
    rfl

/-- The label is the whole word. -/
lemma mem_tokenize : wordToken s w ∈ tokenize (s ++ w) ∧
    (wordAt s w).focus = strayOf (wordToken s w) ∧ ∃ c cs, w = c :: cs ∧ startsWord c = true := by
  obtain ⟨t, ht, label, start, focus⟩ := h.exists_label
  obtain ⟨first, whole | ⟨u, hu, next⟩⟩ := label_of_word h.word ht label start
  · have e : t = wordToken s w := by
      cases t
      cases label
      cases start
      cases whole
      rfl
    rw [← e]
    refine ⟨ht, ?_, first⟩
    rw [focus, strayOf, start, whole]
  · -- another token in the word would stand in its node, which only holds the first one
    exfalso
    have wide := (tokenize_spaced (s ++ w)).width
    have widet := wide t ht
    have wideu := wide u hu
    have stop := (ends_of_mem hu).2
    obtain ⟨m, hm, leafm⟩ := exists_location hu
    have left : (wordAt s w).focus.start < m.focus.stop := by
      rw [h.start, leafm]
      change _ < u.stop
      omega
    have right : m.focus.start < (wordAt s w).focus.stop := by
      rw [h.stop, leafm]
      change u.start < _
      omega
    have other {l : Location} (hl : l = wordAt s w) (leafl : l.focus = leaf u) : False := by
      rw [hl, focus] at leafl
      cases congrArg Tree.children leafl
    rcases (orderly_of_text (s ++ w)).overlaps reaches_wordAt hm left right with down | up
    · rcases down.cases_head with e | ⟨d, hd, below⟩
      · exact other e.symm leafm
      · have child := hd.mem
        rw [focus] at child
        have leafd : d.focus = leaf t := List.mem_singleton.mp child
        rw [Reaches.of_leaf below leafd, leafd] at leafm
        have same : t.start = u.start := congrArg Tree.start leafm
        omega
    · exact other (up.of_leaf leafm).symm leafm

/-- The word is a token behind those of the text. -/
theorem tokenize_eq : tokenize (s ++ w) = tokenize s ++ [wordToken s w] := by
  obtain ⟨ht, _, c, cs, rfl, hc⟩ := h.mem_tokenize
  have stop := Text.byteSize_append s (c :: cs)
  rw [wordToken, stop] at ht
  have between : Between s (c :: cs) [] .label := between_of_mem hc (by rwa [List.append_nil])
  rw [Between, List.append_nil] at between
  rw [between, wordToken, stop]
  rfl

/-- The tokens of the text stand in front of the blank. -/
lemma inFront : InFront (wordToken s w) (tokenize s) where
  spaced := (tokenize_spaced s).tight.2.mono fun _ _ => ⟨trivial, trivial⟩
  whole := by
    rw [← h.tokenize_eq]
    exact (tokenize_spaced (s ++ w)).tight.2.mono fun _ _ => ⟨trivial, trivial⟩
  gap := by
    intro t ht
    have whole : t ∈ tokenize (s ++ w) := h.tokenize_eq ▸ List.mem_append_left _ ht
    have stop := (ends_of_mem ht).2
    obtain ⟨_, _, d, ds, e, _⟩ := h.mem_tokenize
    obtain ⟨c, hc, blank⟩ := h.blank
    obtain ⟨a, rfl⟩ := List.getLast?_eq_some_iff.mp hc
    have line : d ≠ '\n' := by
      rintro rfl
      have word := h.word
      rw [e] at word
      cases word _ (.head _)
    rw [e, List.append_assoc] at whole
    exact stop_lt_of_blank blank line whole stop

/-- The text and the text with the word are read alike up to a production that holds the word. -/
lemma behind : Behind (wordToken s w) (readDocument s.byteSize (tokenize s))
    (readDocument (Text.byteSize (s ++ w)) (tokenize (s ++ w))) := by
  have twins : Twins (wordToken s w) (readDocument s.byteSize)
      (readDocument (Text.byteSize (s ++ w))) := readDocument_twins rfl h.lt
  -- the production that holds the word is not clear of it
  obtain ⟨p, _, step, takes, mem⟩ := h.exists_host
  have held := step.mem
  rw [h.mem_tokenize.2.1] at held
  rw [h.tokenize_eq] at mem ⊢
  cases e : tokenize s with
  | nil =>
    rw [e] at mem
    exact absurd held (twins.alone p.focus mem takes)
  | cons t ts =>
    rw [← e]
    cases twins.outcome (tokenize s) h.inFront (by rw [e]; exact List.cons_ne_nil _ _) with
    | same left => exact absurd (readDocument_rest _ _) left
    | behind behind => exact behind
    | clear clear => exact absurd held (clear p.focus mem takes)

/-- The tree of the text and the one with the word differ where a production holds the word. -/
theorem follows : Follows (wordToken s w) (parseTree s) (parseTree (s ++ w)) := by
  obtain ⟨xs, g, g', ys, zs, nodes, nodes', follows, hy, hz⟩ := h.behind.nodes
  have root : parseTree s = node .source 0 s.byteSize (xs ++ g :: ys) :=
    congrArg (node .source 0 s.byteSize) nodes
  have root' : parseTree (s ++ w) = node .source 0 (Text.byteSize (s ++ w)) (xs ++ g' :: zs) :=
    congrArg (node .source 0 (Text.byteSize (s ++ w))) nodes'
  rw [root, root']
  exact .inside follows hy hz

end Typed

/-! ## The way to the word -/

/--
Two steps up to parents of one kind: they come from behind the same kinds, and end with children of
one kind, each in front of its cursor.
-/
structure Tree.Step.Beside (u : Token) (x y : Step) : Prop where
  kind : y.parent.kind = x.parent.kind
  before : (y.parent.children.take y.index).map Tree.kind =
    (x.parent.children.take x.index).map Tree.kind
  last : (y.parent.childBefore? u.stop).map Tree.kind = (x.parent.childBefore? u.start).map Tree.kind

/-- The child before a cursor is the last one that starts in front of it. -/
lemma Tree.childBefore?_append {t g : Tree} {xs ys : List Tree} {pos : Nat}
    (h : t.children = xs ++ g :: ys) (before : g.start < pos) (after : ∀ y ∈ ys, pos ≤ y.start) :
    t.childBefore? pos = some g := by
  have none : ys.reverse.find? (·.start < pos) = none := by
    refine List.find?_eq_none.mpr fun y hy => ?_
    have le := after y (List.mem_reverse.mp hy)
    simpa using le
  rw [Tree.childBefore?, h, List.reverse_append, List.reverse_cons, List.append_assoc,
    List.find?_append, none, Option.none_or]
  exact List.find?_cons_of_pos (decide_eq_true before)

/-- The child before a cursor is the one that it touches. -/
lemma Tree.Location.HasChild.childBefore? {P : Nat → Prop} {l c : Location} {pos : Nat}
    (h : HasChild l c) (orderly : l.Orderly P) (starts : c.focus.start < pos)
    (stops : pos ≤ c.focus.stop) : l.focus.childBefore? pos = some c.focus := by
  obtain ⟨ts, us, split, _⟩ := h.exists_siblings
  have behind := (orderly.siblings split).2
  exact childBefore?_append split starts fun y hy => Nat.le_trans stops (behind y hy)

/-- A tree in the middle of the children is one of them. -/
lemma Tree.Location.hasChild_append {k : Kind} {a b : Nat} {g : Tree} {xs ys : List Tree}
    {path : List Step} : HasChild ⟨node k a b (xs ++ g :: ys), path⟩
      ⟨g, ⟨node k a b (xs ++ g :: ys), xs.length⟩ :: path⟩ :=
  hasChild_iff.mpr ⟨xs.length, by simp, rfl⟩

namespace Grammar

variable {u : Token} {g h : Tree} {P : Nat → Prop}

/-- Nodes with and without the word are of one kind. -/
lemma Follows.kind_eq (f : Follows u g h) : h.kind = g.kind := by
  cases f with
  | here strays => exact strays.kind
  | inside => rfl

/-- The ways to the production that holds the word and to the same one without it. -/
theorem Follows.exists_beside (f : Follows u g h) (width : u.start < u.stop) {p q : List Step}
    (orderly : (⟨g, p⟩ : Location).Orderly P) :
    ∃ l m, Reaches ⟨g, p⟩ l ∧ Reaches ⟨h, q⟩ m ∧ Strays u l.focus m.focus ∧
      (l.focus.start < u.start → List.Forall₂ (Step.Beside u) p q →
        List.Forall₂ (Step.Beside u) l.path m.path) := by
  induction f generalizing p q with
  | @here g h strays => exact ⟨⟨g, p⟩, ⟨h, q⟩, .refl, .refl, strays, fun _ same => same⟩
  | @inside k a b b' xs g h ys zs f hy hz ih =>
    have step : HasChild ⟨node k a b (xs ++ g :: ys), p⟩
        ⟨g, ⟨node k a b (xs ++ g :: ys), xs.length⟩ :: p⟩ := hasChild_append
    have step' : HasChild ⟨node k a b' (xs ++ h :: zs), q⟩
        ⟨h, ⟨node k a b' (xs ++ h :: zs), xs.length⟩ :: q⟩ := hasChild_append
    obtain ⟨l, m, hl, hm, strays, same⟩ := ih (orderly.child step)
    refine ⟨l, m, .head step hl, .head step' hm, strays, fun before rest => ?_⟩
    have starts : g.start < u.start := Nat.lt_of_le_of_lt ((orderly.child step).within hl).1 before
    have starts' : h.start < u.stop := f.start_eq ▸ Nat.lt_trans starts width
    refine same before (.cons ⟨rfl, ?_, ?_⟩ rest)
    · rw [children_node, children_node, List.take_left, List.take_left]
    · rw [childBefore?_append rfl starts hy, childBefore?_append rfl starts' hz, Option.map_some,
        Option.map_some, f.kind_eq]

end Grammar

/--
The production that holds the word behind `xs`, and the same one in the text without the word, with
the ways up from them.
-/
structure Typed.Ways (s w : Text) (l m : Location) (xs : List Tree) : Prop where
  reached : Reaches (ofRoot (parseTree s)) l
  reached' : Reaches (ofRoot (parseTree (s ++ w))) m
  strays : Strays (wordToken s w) l.focus m.focus
  holds : m.focus.children = xs ++ [strayOf (wordToken s w)]
  leaves : Leaves (wordToken s w) l.focus.children xs
  path : (wordAt s w).path = ⟨m.focus, xs.length⟩ :: m.path
  above : l.focus.start < s.byteSize → List.Forall₂ (Step.Beside (wordToken s w)) l.path m.path

/-- The production that holds the word is also there without it, with the same ways up. -/
theorem Typed.exists_ways (h : Typed s w) : ∃ l m xs, Typed.Ways s w l m xs := by
  obtain ⟨l, m, reached, reached', strays, above⟩ :=
    h.follows.exists_beside h.lt (orderly_of_text s) (p := []) (q := [])
  obtain ⟨xs, holds, leaves⟩ := strays.children
  refine ⟨l, m, xs, reached, reached', strays, holds, leaves, ?_, fun before => above before .nil⟩
  have takes : m.focus.kind.takesStrays = true := strays.kind ▸ strays.takes
  have production := Kind.isProduction_of_takesStrays takes
  have step : HasChild m ⟨strayOf (wordToken s w), ⟨m.focus, xs.length⟩ :: m.path⟩ :=
    hasChild_iff.mpr ⟨xs.length, by rw [holds]; exact List.getElem?_concat_length, rfl⟩
  -- the stray at the end of the production is touched, so the cursor is resolved to it
  have touched : Location.IsAt (parseTree (s ++ w)) (Text.byteSize (s ++ w))
      ⟨strayOf (wordToken s w), ⟨m.focus, xs.length⟩ :: m.path⟩ := by
    refine ⟨reached'.tail step, ?_, h.lt, Nat.le_refl _, rfl, ?_⟩
    · exact fun root => absurd (congrArg Location.path root) (List.cons_ne_nil _ _)
    · rw [step.ancestors]
      refine List.forall_mem_cons.mpr ⟨?_, clear_of_isProduction reached' production⟩
      exact fun error => by simp [error, Kind.takesStrays] at takes
  have below := (resolve_isAt (orderly_of_text (s ++ w)) (Text.byteSize (s ++ w))).1 _
    (by rwa [show min (Text.byteSize (s ++ w)) (parseTree (s ++ w)).stop = Text.byteSize (s ++ w)
      from Nat.min_self _])
  rcases below.cases_head with same | ⟨c, hc, below⟩
  · exact congrArg Location.path same.symm
  · have leafc : c.focus = leaf (wordToken s w) := List.mem_singleton.mp hc.mem
    have e : wordAt s w = c := Reaches.of_leaf below leafc
    have kind := h.kind
    rw [e, leafc] at kind
    cases kind

end TypeqlAssist
