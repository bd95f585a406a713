import TypeqlAssist.Proofs.Completion.Offers
import TypeqlAssist.Proofs.Completion.Recasting
import TypeqlAssist.Proofs.Completion.Stability
import TypeqlAssist.Proofs.Document.Composition
import TypeqlAssist.Proofs.Token.Exchange

/-!
# Definitions and redefinitions

The keywords `define` and `redefine` are read alike, and almost all rules treat them alike: only
behind the first label of a schema query, the rules know of `define` and not of `redefine`. So where
one keyword takes the place of the other, the same is offered behind it, except that the constraints
on the first type are offered with `define` only (`candidates_of_redefine`).
-/

namespace TypeqlAssist

open TypeqlAssist.Tree Grammar Location

/-! ## Suffixes -/

variable {s l l' pre : List Kind}

/-- A list without the two keywords does not tell them apart in front of another. -/
lemma isPrefixOf_recasts (h : List.Forall₂ Kind.Recasts l l')
    (free : ∀ k ∈ s, k ≠ .kwDefine ∧ k ≠ .kwRedefine) : s.isPrefixOf l' = s.isPrefixOf l := by
  induction h generalizing s with
  | nil => rfl
  | @cons k k' l l' hk _ ih =>
    cases s with
    | nil => rfl
    | cons j s =>
      obtain ⟨⟨define, redefine⟩, free⟩ := List.forall_mem_cons.mp free
      have same : (j == k') = (j == k) :=
        hk.apply_eq (f := (j == ·)) (by rw [beq_false_of_ne define, beq_false_of_ne redefine])
      rw [List.isPrefixOf, List.isPrefixOf, same, ih free]

/-- A suffix without either keyword is one before and after the change. -/
lemma isSuffixOf_recasts (h : List.Forall₂ Kind.Recasts l l')
    (free : ∀ k ∈ s, k ≠ .kwDefine ∧ k ≠ .kwRedefine) : s.isSuffixOf l' = s.isSuffixOf l :=
  isPrefixOf_recasts (List.rel_reverse h) fun k hk => free k (List.mem_reverse.mp hk)

/-- What stands further in front does not matter to a short suffix. -/
lemma isSuffixOf_append (short : s.length ≤ l.length) :
    s.isSuffixOf (pre ++ l) = s.isSuffixOf l := by
  rw [Bool.eq_iff_iff, List.isSuffixOf_iff_suffix, List.isSuffixOf_iff_suffix]
  constructor
  · intro h
    exact List.suffix_of_suffix_length_le h (List.suffix_append pre l) short
  · intro h
    exact h.trans (List.suffix_append pre l)

namespace Completion

variable {c : Recast} {p q : Nat} {x y : Context} {r : Rule} {rs : List Rule}

/-- A rule fires by its suffixes. -/
lemma Rule.fires_congr (h : ∀ s ∈ r.suffixes, s.isSuffixOf l' = s.isSuffixOf l) :
    r.fires l' = r.fires l := by
  rw [Bool.eq_iff_iff, Rule.fires, Rule.fires, List.any_eq_true, List.any_eq_true]
  exact exists_congr fun s => and_congr_right fun hs => by rw [h s hs]

/-! ## Rules that ask for neither keyword -/

/-- The rule asks for neither keyword. -/
def Rule.Free (r : Rule) : Prop :=
  ∀ s ∈ r.suffixes, ∀ k ∈ s, k ≠ .kwDefine ∧ k ≠ .kwRedefine

instance (r : Rule) : Decidable r.Free :=
  inferInstanceAs (Decidable (∀ s ∈ r.suffixes, ∀ k ∈ s, k ≠ .kwDefine ∧ k ≠ .kwRedefine))

/-- A rule that asks for neither keyword fires as before. -/
lemma Rule.Free.fires (h : r.Free) (recasts : List.Forall₂ Kind.Recasts l l') :
    r.fires l' = r.fires l :=
  Rule.fires_congr fun s hs => isSuffixOf_recasts recasts (h s hs)

/-- The kinds of children that an entry asks for. -/
def Entry.asked : Entry → List Kind
  | rules _ => []
  | refined refinements _ => refinements.map Prod.fst

/-- Only the rules of a schema query ask for the keywords. -/
lemma free_table : ∀ k ∈ Kind.all, ∀ e ∈ table k,
    (∀ j ∈ e.asked, j ≠ .kwDefine ∧ j ≠ .kwRedefine) ∧
    (k ≠ .querySchema → ∀ r ∈ e.allRules, r.Free) := by
  decide +kernel

/-- The rules that apply are the same after the change. -/
lemma rulesFor?_recast (h : c.Syncs p q) {e : Entry}
    (free : ∀ j ∈ e.asked, j ≠ .kwDefine ∧ j ≠ .kwRedefine) (t : Tree) :
    e.rulesFor? (t.recast c) q = e.rulesFor? t p := by
  cases e with
  | rules rs => rfl
  | refined refinements otherwise =>
    have same (r) (hr : r ∈ refinements) :
        (some r.1 == ((t.recast c).childBefore? q).map kind) =
          (some r.1 == (t.childBefore? p).map kind) := by
      obtain ⟨define, redefine⟩ := free r.1 (List.mem_map_of_mem hr)
      rw [childBefore?_recast h]
      cases t.childBefore? p with
      | none => rfl
      | some u =>
        rw [Option.map_some, Option.map_some, Option.map_some, kind_recast]
        exact (c.recasts u.start u.kind).apply_eq (f := fun k => some r.1 == some k)
          (by simp [define, redefine])
    simp only [Entry.rulesFor?]
    rw [List.find?_congr same]

/-- A node says the same after the change, if the same of its rules fires. -/
lemma consult_recast_of_firing (h : c.Syncs p q) (node : y.node = x.node.recast c)
    (same : ∀ e ∈ table x.node.kind, ∀ rs, e.rulesFor? x.node p = some rs →
      firstFiring? rs y.preceding = firstFiring? rs x.preceding) : consult q y = consult p x := by
  have entry : table y.node.kind = table x.node.kind := by
    rw [node, kind_recast]
    exact (c.recasts _ _).apply_eq (f := table) rfl
  rw [consult, consult, entry]
  cases found : table x.node.kind with
  | none => rfl
  | some e =>
    simp only [node, rulesFor?_recast h (free_table _ (Kind.mem_all _) e found).1]
    cases chosen : e.rulesFor? x.node p with
    | none => rfl
    | some rs => simp only [same e found rs chosen]

/-- Outside of schema queries, a node says the same after the change. -/
lemma consult_recast (h : c.Syncs p q) (recasts : x.Recasts c y)
    (other : x.node.kind ≠ .querySchema) : consult q y = consult p x := by
  refine consult_recast_of_firing h recasts.node fun e found rs chosen => ?_
  have free := (free_table _ (Kind.mem_all _) e found).2 other
  exact List.find?_congr fun r hr =>
    (free r (Entry.subset_allRules chosen hr)).fires recasts.preceding

/-! ## Schema queries -/

/-- What stands further in front does not matter to rules with short suffixes. -/
lemma firstFiring?_append (short : ∀ r ∈ rs, ∀ s ∈ r.suffixes, s.length ≤ l.length) :
    firstFiring? rs (pre ++ l) = firstFiring? rs l :=
  List.find?_congr fun r hr => Rule.fires_congr fun s hs => isSuffixOf_append (short r hr s hs)

/-- The rule behind the label of a definition, which knows the label after `define` and `;` only. -/
def labelRule : Rule :=
  ⟨[[.kwDefine, .label], [.semicolon, .label]], [.keywords .typeConstraints], false⟩

/-- The rules of a schema query look at two kinds at most. -/
lemma short_schemaQueryRules : ∀ r ∈ schemaQueryRules, ∀ s ∈ r.suffixes, s.length ≤ 2 := by
  decide

/-- The rules of a schema query fire alike, unless a keyword that changes and a label precede. -/
lemma firstFiring?_recasts (h : List.Forall₂ Kind.Recasts l l') :
    firstFiring? schemaQueryRules l' = firstFiring? schemaQueryRules l ∨
      [.kwDefine, .label] <:+ l ∧ [.kwRedefine, .label] <:+ l' := by
  -- the last two kinds decide
  have reversed := List.rel_reverse h
  rw [← List.reverse_reverse l, ← List.reverse_reverse l']
  generalize l.reverse = m at reversed
  generalize l'.reverse = m' at reversed
  cases reversed with
  | nil => exact .inl rfl
  | @cons k k' _ _ hk rest =>
    cases rest with
    | nil => cases hk <;> exact .inl rfl
    | @cons j j' m m' hj _ =>
      simp only [List.reverse_cons, List.append_assoc, List.cons_append, List.nil_append]
      rw [firstFiring?_append short_schemaQueryRules, firstFiring?_append short_schemaQueryRules]
      cases hk with
      | redefine => exact .inl rfl
      | same =>
        cases hj with
        | same => exact .inl rfl
        | redefine =>
          by_cases e : k = .label
          · subst e
            exact .inr ⟨List.suffix_append _ _, List.suffix_append _ _⟩
          · refine .inl ?_
            cases k <;> first | rfl | exact absurd rfl e

/-- A schema query says the same after the change, unless it does not know its first label. -/
lemma consult_recast_schema (recasts : x.Recasts c y) (hk : x.node.kind = .querySchema) :
    consult q y = consult p x ∨
      [.kwDefine, .label] <:+ x.preceding ∧ [.kwRedefine, .label] <:+ y.preceding ∧
        consult p x = .fires labelRule ∧ consult q y = .silent := by
  have hk' : y.node.kind = .querySchema := by
    rw [recasts.node, kind_recast, hk]
    exact c.kind_of_ne (by decide) _
  simp only [consult, hk, hk', table, Entry.rulesFor?]
  rcases firstFiring?_recasts recasts.preceding with same | ⟨define, redefine⟩
  · exact .inl (by rw [same])
  · refine .inr ⟨define, redefine, ?_, ?_⟩
    · obtain ⟨pre, e⟩ := define
      rw [← e, firstFiring?_append short_schemaQueryRules]
      rfl
    · obtain ⟨pre, e⟩ := redefine
      rw [← e, firstFiring?_append short_schemaQueryRules]
      rfl

/-! ## The way up -/

/-- What stands above a node is no token. -/
lemma isToken_ancestors {text : Text} {l : Location} (h : Reaches (ofRoot (parseTree text)) l) :
    ∀ n ∈ l.ancestors, n.kind.isToken = false := by
  intro n hn
  obtain ⟨m, c, down, step, rfl⟩ := h.exists_of_mem_ancestors hn
  rw [Bool.eq_false_iff]
  intro token
  have none := children_of_isToken (Reaches.mem_preorder down) token
  exact absurd step.mem (none ▸ List.not_mem_nil)

/-- No node above the first one is a token. -/
lemma contextsAlong_isToken (t : Tree) (preceding : List Kind) {path : List Step}
    (h : ∀ n ∈ path.map (·.parent), n.kind.isToken = false) :
    (contextsAlong t preceding path).Pairwise fun _ y => y.node.kind.isToken = false := by
  induction path generalizing t preceding with
  | nil => exact .cons nofun .nil
  | cons s path ih =>
    obtain ⟨first, rest⟩ := List.forall_mem_cons.mp h
    refine .cons (fun y hy => ?_) (ih s.parent _ rest)
    rcases node_of_contextsAlong hy with e | above
    · exact e ▸ first
    · exact rest _ above

/-- On the way up, what precedes only grows in front, and the nodes are no tokens. -/
lemma contextsAt_pairwise {text : Text} {l : Location} (h : Reaches (ofRoot (parseTree text)) l)
    (pos : Nat) :
    (contextsAt l pos).Pairwise fun x y =>
      x.preceding <:+ y.preceding ∧ y.node.kind.isToken = false :=
  (contextsAlong_pairwise _ _ _).2.and (contextsAlong_isToken _ _ (isToken_ancestors h))

/-- No rule of a production fires behind `redefine` and a label. -/
lemma table_behind_redefine : ∀ k ∈ Kind.all, k.isToken = false → ∀ e ∈ table k, ∀ r ∈ e.allRules,
    (∀ s ∈ r.suffixes, s.length ≤ 2) ∧ r.fires [.kwRedefine, .label] = false := by
  decide +kernel

/-- No rule fires behind `redefine` and a label. -/
lemma consult_behind_redefine (hk : x.node.kind.isToken = false)
    (behind : [.kwRedefine, .label] <:+ x.preceding) :
    consult p x = .silent ∨ consult p x = .suppressed := by
  refine consult_mute fun e found r hr => ?_
  obtain ⟨short, other⟩ := table_behind_redefine _ (Kind.mem_all _) hk e found r hr
  obtain ⟨pre, e⟩ := behind
  rw [← e, ← other]
  exact Rule.fires_congr fun s hs => isSuffixOf_append (l := [.kwRedefine, .label]) (short s hs)

variable {root root' : Tree} {text text' : Text} {xs ys : List Context}

/-- One of the nodes is a schema query with its first label, right after `define`, at the cursor. -/
def AtFirstLabel (xs : List Context) : Prop :=
  ∃ x ∈ xs, x.node.kind = .querySchema ∧ [.kwDefine, .label] <:+ x.preceding

/-- A rule does not continue below the first label, where no `;` precedes. -/
lemma AtFirstLabel.not_continues (h : AtFirstLabel xs)
    (chain : ∀ y ∈ xs, x.preceding <:+ y.preceding) (fires : consult p x = .fires r) :
    r.continues = false := by
  rw [Bool.eq_false_iff]
  intro continues
  obtain ⟨y, hy, _, label⟩ := h
  have semicolon := ((consult_fires fires).2.1 continues).trans (chain y hy)
  exact absurd (List.suffix_of_suffix_length_le semicolon label (by decide)) (by decide)

/-- After the change the same is collected, unless the first label is not known any more. -/
lemma climb_recast (h : c.Syncs p q)
    (same : ∀ g : Generator, g.candidates root' text' = g.candidates root text)
    (recasts : List.Forall₂ (Context.Recasts c) xs ys)
    (chain : xs.Pairwise fun x y => x.preceding <:+ y.preceding ∧ y.node.kind.isToken = false)
    (chain' : ys.Pairwise fun x y => x.preceding <:+ y.preceding ∧ y.node.kind.isToken = false) :
    climb root' text' q ys = climb root text p xs ∨
      climb root text p xs = some KeywordSet.typeConstraints.candidates ∧
        (climb root' text' q ys = none ∨ climb root' text' q ys = some []) ∧ AtFirstLabel xs := by
  induction recasts with
  | nil => exact .inl rfl
  | @cons x y xs ys first _ ih =>
    obtain ⟨later, chain⟩ := List.pairwise_cons.mp chain
    obtain ⟨later', chain'⟩ := List.pairwise_cons.mp chain'
    have verdict : consult q y = consult p x ∨ x.node.kind = .querySchema ∧
        [.kwDefine, .label] <:+ x.preceding ∧ [.kwRedefine, .label] <:+ y.preceding ∧
        consult p x = .fires labelRule ∧ consult q y = .silent := by
      by_cases hk : x.node.kind = .querySchema
      · exact (consult_recast_schema first hk).imp_right fun special => ⟨hk, special⟩
      · exact .inl (consult_recast h first hk)
    have ih := ih chain chain'
    rw [climb, climb]
    rcases verdict with e | ⟨hk, define, redefine, fires, silent⟩
    · rw [e]
      cases fires : consult p x with
      | suppressed => exact .inl rfl
      | silent =>
        rcases ih with e | ⟨offered, nothing, z, hz, label⟩
        · exact .inl e
        · exact .inr ⟨offered, nothing, z, .tail _ hz, label⟩
      | fires r =>
        have candidates : r.candidates root' text' = r.candidates root text := by
          rw [Rule.candidates, Rule.candidates, funext same]
        simp only [candidates]
        rcases ih with e | ⟨_, _, label⟩
        · rw [e]
          exact .inl rfl
        · simp [label.not_continues (fun z hz => (later z hz).1) fires]
    · rw [fires, silent]
      refine .inr ⟨?_, ?_, x, .head _, hk, define⟩
      · rfl
      · exact climb_mute fun z hz =>
          consult_behind_redefine (later' z hz).2 (redefine.trans (later' z hz).1)

end Completion

/-! ## Documents -/

/-- The change that turns the `define` at an offset into `redefine`, two bytes longer. -/
def Recast.redefine (n : Nat) : Recast where
  kind a k := if k = .kwDefine ∧ a = n then .kwRedefine else k
  offset m := if m ≤ n then m else m + 2
  mono := by
    intro m m' le
    dsimp only
    split <;> split <;> omega
  recasts := by
    intro a k
    split
    next h =>
      rw [h.1]
      exact .redefine
    next => exact .same k

section

variable {a b w w' : Text} {k k' : Kind}

/-- The words of another kind than that of the word between are those of both parts. -/
lemma Between.wordsOf (h : Between a w b k) {j : Kind} (ne : k ≠ j) :
    wordsOf (a ++ (w ++ b)) j =
      distinct (((tokenize a).filter (·.kind == j)).map (·.spelling a) ++
        ((tokenize b).filter (·.kind == j)).map (·.spelling b)) := by
  have before : ∀ t ∈ (tokenize a).filter (·.kind == j),
      t.spelling (a ++ (w ++ b)) = t.spelling a := by
    intro t ht
    obtain ⟨c, cs, _, same⟩ := exists_lexeme (List.mem_filter.mp ht).1
    rw [same, ← same [], List.append_nil]
  have behind (t : Token) : (t.shift (a.byteSize + w.byteSize)).spelling (a ++ (w ++ b)) =
      t.spelling b := by
    rw [← List.append_assoc, ← Text.byteSize_append]
    exact congrArg String.ofList (Text.slice_shift (a ++ w) b t.start t.stop)
  rw [TypeqlAssist.wordsOf, h, List.filter_append, List.filter_cons_of_neg (by simpa using ne),
    List.filter_map, List.map_append, List.map_congr_left before, List.map_map]
  simp only [Function.comp_def, behind]
  rfl

/-- Keywords that take each other's place leave all generators as they are. -/
lemma Between.block_eq (h : Between a w b k) (h' : Between a w' b k')
    (ne : k ≠ .label ∧ k ≠ .var) (ne' : k' ≠ .label ∧ k' ≠ .var) (g : Completion.Generator) :
    g.block (a ++ (w' ++ b)) = g.block (a ++ (w ++ b)) :=
  Completion.Generator.block_congr g ((h'.wordsOf ne'.1).trans (h.wordsOf ne.1).symm)
    ((h'.wordsOf ne'.2).trans (h.wordsOf ne.2).symm)

variable (h : Between a "define".toList b .kwDefine)
  (h' : Between a "redefine".toList b .kwRedefine)
include h h'

/-- The tokens with `redefine` are those with `define` after the change. -/
lemma tokenize_redefine : tokenize (a ++ ("redefine".toList ++ b)) =
    (tokenize (a ++ ("define".toList ++ b))).map (Recast.redefine a.byteSize).token := by
  have before : ∀ t ∈ tokenize a, (Recast.redefine a.byteSize).token t = t := by
    intro t ht
    obtain ⟨start, stop⟩ := ends_of_mem ht
    simp [Recast.token, Recast.redefine, Nat.ne_of_lt start, Nat.le_of_lt start, stop]
  have keyword : (Recast.redefine a.byteSize).token ⟨.kwDefine, a.byteSize, a.byteSize + 6⟩ =
      ⟨.kwRedefine, a.byteSize, a.byteSize + 8⟩ := by
    simp [Recast.token, Recast.redefine]
  have behind (t : Token) : (Recast.redefine a.byteSize).token (t.shift (a.byteSize + 6)) =
      t.shift (a.byteSize + 8) := by
    have after (n : Nat) : ¬ a.byteSize + 6 + n ≤ a.byteSize := by omega
    have other (n : Nat) : a.byteSize + 6 + n ≠ a.byteSize := by omega
    simp only [Recast.token, Recast.redefine, Token.shift, after, other, and_false, if_false,
      Token.mk.injEq, true_and]
    omega
  rw [h, h', List.map_append, List.map_cons, List.map_map, List.map_congr_left before,
    List.map_id']
  exact congrArg₂ _ rfl (congrArg₂ _ keyword.symm (List.map_congr_left fun t _ => (behind t).symm))

/-- The tree with `redefine` is that with `define` after the change. -/
lemma parseTree_redefine : parseTree (a ++ ("redefine".toList ++ b)) =
    (parseTree (a ++ ("define".toList ++ b))).recast (Recast.redefine a.byteSize) := by
  refine parseTree_recast rfl ?_ (tokenize_redefine h h')
  have six : Text.byteSize "define".toList = 6 := rfl
  have eight : Text.byteSize "redefine".toList = 8 := rfl
  simp only [Text.byteSize_append, six, eight, Recast.redefine]
  rw [if_neg (by omega)]
  omega

end

namespace Completion

/-! ## Offers -/

/-- What is offered in a text at an offset. -/
def offeredAt (text : Text) (pos : Nat) : Option (List Candidate) :=
  (complete (parseTree text) text pos).map (·.candidates)

/-- What is offered is what was collected, each candidate once. -/
lemma offeredAt_eq (text : Text) (pos : Nat) :
    offeredAt text pos =
      (climb (parseTree text) text (min pos text.byteSize)
        (contextsAt ((parseTree text).resolve (min pos text.byteSize))
          (min pos text.byteSize))).bind fun cs =>
            if (distinctBy Candidate.key cs).isEmpty then none
            else some (distinctBy Candidate.key cs) := by
  rw [offeredAt, complete]
  cases climb (parseTree text) text (min pos text.byteSize)
    (contextsAt ((parseTree text).resolve (min pos text.byteSize)) (min pos text.byteSize)) with
  | none => rfl
  | some cs => exact apply_ite (Option.map Result.candidates) _ _ _

/-- Where `redefine` takes the place of `define`, the same nodes are asked, up to the change. -/
lemma contextsAt_redefine {a b : Text} {pos : Nat} (h : Between a "define".toList b .kwDefine)
    (h' : Between a "redefine".toList b .kwRedefine) (behind : a.byteSize < pos) :
    let p := min pos (Text.byteSize (a ++ ("define".toList ++ b)))
    let q := min (pos + 2) (Text.byteSize (a ++ ("redefine".toList ++ b)))
    (Recast.redefine a.byteSize).Syncs p q ∧
      List.Forall₂ (Context.Recasts (Recast.redefine a.byteSize))
        (contextsAt ((parseTree (a ++ ("define".toList ++ b))).resolve p) p)
        (contextsAt ((parseTree (a ++ ("redefine".toList ++ b))).resolve q) q) := by
  have six : Text.byteSize "define".toList = 6 := rfl
  have eight : Text.byteSize "redefine".toList = 8 := rfl
  intro p q
  have sync : (Recast.redefine a.byteSize).Syncs p q := by
    intro n
    simp only [p, q, Recast.redefine, Text.byteSize_append, six, eight]
    split <;> omega
  refine ⟨sync, ?_⟩
  have stops : q ≤ (Recast.redefine a.byteSize).offset
      (parseTree (a ++ ("define".toList ++ b))).stop := by
    rw [← stop_recast, ← parseTree_redefine h h']
    exact Nat.min_le_right _ _
  rw [parseTree_redefine h h', resolve_recast sync (Nat.min_le_right _ _) stops]
  exact contextsAt_recast sync _

/--
Where `redefine` takes the place of `define`, the same is offered behind it. The one exception is
the first label of a schema query: behind it the constraints on types are offered with `define`, and
nothing is offered with `redefine`.
-/
theorem candidates_of_redefine (a b : Text) (pos : Nat)
    (define : ⟨.kwDefine, a.byteSize, a.byteSize + 6⟩ ∈ tokenize (a ++ "define".toList ++ b))
    (redefine : ⟨.kwRedefine, a.byteSize, a.byteSize + 8⟩ ∈ tokenize (a ++ "redefine".toList ++ b))
    (behind : a.byteSize < pos) :
    offeredAt (a ++ "redefine".toList ++ b) (pos + 2) = offeredAt (a ++ "define".toList ++ b) pos ∨
      offeredAt (a ++ "define".toList ++ b) pos = some KeywordSet.typeConstraints.candidates ∧
        offeredAt (a ++ "redefine".toList ++ b) (pos + 2) = none ∧
        AtFirstLabel (contextsAt ((parseTree (a ++ "define".toList ++ b)).resolve pos)
          (min pos (Text.byteSize (a ++ "define".toList ++ b)))) := by
  rw [List.append_assoc] at define redefine
  simp only [List.append_assoc]
  have h : Between a "define".toList b .kwDefine := between_of_mem (s := 'd') rfl define
  have h' : Between a "redefine".toList b .kwRedefine := between_of_mem (s := 'r') rfl redefine
  have same (g : Generator) :
      g.candidates (parseTree (a ++ ("redefine".toList ++ b))) (a ++ ("redefine".toList ++ b)) =
        g.candidates (parseTree (a ++ ("define".toList ++ b))) (a ++ ("define".toList ++ b)) := by
    rw [Generator.candidates_parseTree, Generator.candidates_parseTree]
    exact h.block_eq h' (by decide) (by decide) g
  obtain ⟨sync, recasts⟩ := contextsAt_redefine h h' behind
  rw [← resolve_min]
  rcases climb_recast sync same recasts (contextsAt_pairwise (reaches_resolve _ _) _)
    (contextsAt_pairwise (reaches_resolve _ _) _) with e | ⟨offered, nothing, label⟩
  · refine .inl ?_
    rw [offeredAt_eq, offeredAt_eq, e]
  · refine .inr ⟨?_, ?_, label⟩
    · rw [offeredAt_eq, offered]
      rfl
    · rw [offeredAt_eq]
      rcases nothing with e | e <;> rw [e] <;> rfl

/-- Behind a constraint the same types are offered with both keywords. -/
theorem candidates_of_redefine_sub :
    offeredAt "redefine person sub ".toList 20 = offeredAt "define person sub ".toList 18 := by
  rcases candidates_of_redefine [] " person sub ".toList 18 (by decide +kernel) (by decide +kernel)
    (by decide) with same | ⟨_, none, _⟩
  · exact same
  · exact absurd none (by decide +kernel)

/-- The keywords do not complete alike: behind the first label they do not. -/
theorem not_candidates_of_redefine :
    ¬ ∀ (a b : Text) (pos : Nat),
      ⟨.kwDefine, a.byteSize, a.byteSize + 6⟩ ∈ tokenize (a ++ "define".toList ++ b) →
      ⟨.kwRedefine, a.byteSize, a.byteSize + 8⟩ ∈ tokenize (a ++ "redefine".toList ++ b) →
      a.byteSize + 6 < pos →
      offeredAt (a ++ "redefine".toList ++ b) (pos + 2) =
        offeredAt (a ++ "define".toList ++ b) pos := by
  intro all
  have same := all [] " person ".toList 14 (by decide +kernel) (by decide +kernel) (by decide)
  exact absurd same (by decide +kernel)

end Completion

end TypeqlAssist
