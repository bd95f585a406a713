import TypeqlAssist.Completion.Result
import TypeqlAssist.Proofs.Completion.Words

/-!
# What an offer can contain

An offer is collected from the generators of the rules that fire on the way up, and each generator
keeps all its candidates or loses all of them to an earlier copy of itself. So an offer holds all
variables of the document with one boost or none, all labels or none, and whole sets of words
(`candidates_of_complete`).

Variables have one boost since a rule that continues only fires behind a `;`, and a rule that fires
there further up offers variables as fresh ones, if at all.
-/

namespace TypeqlAssist

/-! ## Blocks of elements -/

section

variable {α β γ : Type} {f : α → List β} {as : List α}

/-- A test that the elements of a block pass together keeps or drops whole blocks. -/
lemma filter_blocks {p : β → Bool} {q : α → Bool} (h : ∀ a ∈ as, ∀ x ∈ f a, p x = q a) :
    (as.flatMap f).filter p = (as.filter q).flatMap f := by
  induction as with
  | nil => rfl
  | cons a as ih =>
    obtain ⟨first, rest⟩ := List.forall_mem_cons.mp h
    rw [List.flatMap_cons, List.filter_append, ih rest]
    cases keep : q a with
    | false =>
      have none : (f a).filter p = [] :=
        List.filter_eq_nil_iff.mpr fun x hx => by simp [first x hx, keep]
      rw [none, List.filter_cons_of_neg (by simp [keep]), List.nil_append]
    | true =>
      have all : (f a).filter p = f a :=
        List.filter_eq_self.mpr fun x hx => by simp [first x hx, keep]
      rw [all, List.filter_cons_of_pos keep, List.flatMap_cons]

variable [BEq γ] [LawfulBEq γ] {key : β → γ}

/-- Of blocks of elements that share no key, each is kept once. -/
lemma distinctBy_flatMap [DecidableEq α] (nodup : ∀ a ∈ as, ((f a).map key).Nodup)
    (apart : ∀ a ∈ as, ∀ b ∈ as, a ≠ b → ∀ x ∈ f a, ∀ y ∈ f b, key x ≠ key y) :
    distinctBy key (as.flatMap f) = (distinct as).flatMap f := by
  induction as with
  | nil => rfl
  | cons a as ih =>
    obtain ⟨first, rest⟩ := List.forall_mem_cons.mp nodup
    have blocks := ih rest fun b hb c hc => apart b (.tail _ hb) c (.tail _ hc)
    have others : ∀ b ∈ distinct as, ∀ y ∈ f b,
        ((f a).all fun x => key y != key x) = (b != a) := by
      intro b hb y hy
      by_cases e : b = a
      · subst e
        have own : ((f b).all fun x => key y != key x) = false :=
          List.all_eq_false.mpr ⟨y, hy, by simp⟩
        rw [own, bne_self_eq_false]
      · have other : ((f a).all fun x => key y != key x) = true := by
          rw [List.all_eq_true]
          intro x hx
          exact bne_iff_ne.mpr (apart b (.tail _ (mem_distinct.mp hb)) a (.head _) e y hy x hx)
        rw [other, bne_iff_ne.mpr e]
    calc
      _ = f a ++ ((distinct as).flatMap f).filter fun y => (f a).all fun x => key y != key x := by
        rw [List.flatMap_cons, distinctBy_append, distinctBy_of_nodup first, blocks]
      _ = f a ++ ((distinct as).filter (· != a)).flatMap f := by rw [filter_blocks others]
      _ = (distinct (a :: as)).flatMap f := rfl

/-- Distinct elements that are all the same are one at most. -/
lemma eq_singleton_of_nodup {x : α} (h : as.Nodup) (same : ∀ a ∈ as, a = x) :
    as = [] ∨ as = [x] := by
  match as, h with
  | [], _ => exact .inl rfl
  | [a], _ => exact .inr (same a (.head _) ▸ rfl)
  | a :: b :: as, h =>
    have e : a = b := (same a (.head _)).trans (same b (.tail _ (.head _))).symm
    exact absurd (e ▸ .head _) (List.nodup_cons.mp h).1

end

namespace Completion

/-! ## The candidates of generators -/

namespace Generator

/-- The category that the candidates of a generator have. -/
def category : Generator → Category
  | labels => .typeLabel
  | variableNames _ => .variableName
  | keywords set => set.category

/-- The boost of the variables that a generator offers. -/
def boost? : Generator → Option Int
  | variableNames boost => some boost
  | _ => none

/-- The words that a generator offers. -/
def set? : Generator → Option KeywordSet
  | keywords set => some set
  | _ => none

/-- The candidates of a generator in a text. -/
def block (text : Text) : Generator → List Candidate
  | labels => labelCandidates text
  | variableNames boost => variableCandidates text boost
  | keywords set => set.candidates

/-- What a generator offers in the tree of a text is told by the text. -/
lemma candidates_parseTree (g : Generator) (text : Text) :
    g.candidates (parseTree text) text = g.block text := by
  cases g with
  | labels => exact candidates_labels text
  | variableNames boost => exact candidates_variableNames text boost
  | keywords set => rfl

/-- What a generator offers depends on the words of a document only. -/
lemma block_congr {text text' : Text} (g : Generator)
    (labels : wordsOf text .label = wordsOf text' .label)
    (names : wordsOf text .var = wordsOf text' .var) : g.block text = g.block text' := by
  cases g with
  | labels => rw [block, block, labelCandidates, labelCandidates, labels]
  | variableNames boost => rw [block, block, variableCandidates, variableCandidates, names]
  | keywords set => rfl

variable {text : Text} {g g' : Generator} {c c' : Candidate}

/-- The candidates of a generator insert their labels, and all are of its category. -/
lemma exists_of_mem (h : c ∈ g.block text) :
    ∃ w info boost, c = ⟨w, g.category, w, info, boost⟩ := by
  cases g with
  | labels =>
    obtain ⟨s, _, rfl⟩ := List.mem_map.mp h
    exact ⟨s, none, 0, rfl⟩
  | variableNames boost =>
    obtain ⟨s, _, rfl⟩ := List.mem_map.mp h
    exact ⟨s, none, boost, rfl⟩
  | keywords set =>
    obtain ⟨w, _, rfl⟩ := List.mem_map.mp h
    exact ⟨w, set.info, set.boost, rfl⟩

/-- All candidates of a generator are of its category. -/
lemma category_of_mem (h : c ∈ g.block text) : c.category = g.category := by
  obtain ⟨w, info, boost, rfl⟩ := exists_of_mem h
  rfl

/-- No generator offers a text twice. -/
lemma nodup_block (g : Generator) (text : Text) : ((g.block text).map Candidate.key).Nodup := by
  cases g with
  | labels => exact nodup_ofLabel (nodup_distinct _) _ _
  | variableNames boost => exact nodup_ofLabel ((nodup_distinct _).filter _) _ _
  | keywords set =>
    change (set.candidates.map Candidate.key).Nodup
    cases set <;> decide

/-- Sets of words of one category share no word. -/
lemma key_ne_of_sets {set set' : KeywordSet} (ne : set ≠ set') (h : c ∈ set.candidates)
    (h' : c' ∈ set'.candidates) : c.key ≠ c'.key := by
  have apart : ∀ s ∈ KeywordSet.all, ∀ s' ∈ KeywordSet.all, s ≠ s' →
      ∀ c ∈ s.candidates, ∀ c' ∈ s'.candidates, c.key ≠ c'.key := by decide +kernel
  have mem (s : KeywordSet) : s ∈ KeywordSet.all := by cases s <;> decide
  exact apart set (mem set) set' (mem set') ne c h c' h'

/-- Different generators share no candidate, unless they offer variables with different boosts. -/
lemma key_ne (ne : g ≠ g') (boosts : ∀ b ∈ g.boost?, ∀ b' ∈ g'.boost?, b = b')
    (h : c ∈ g.block text) (h' : c' ∈ g'.block text) : c.key ≠ c'.key := by
  intro e
  have same : g.category = g'.category := by
    rw [← category_of_mem h, ← category_of_mem h']
    exact congrArg Prod.snd e
  match g, g' with
  | labels, labels => exact ne rfl
  | labels, variableNames _ => cases same
  | labels, keywords set => cases set <;> cases same
  | variableNames _, labels => cases same
  | variableNames b, variableNames b' => exact ne (congrArg _ (boosts b rfl b' rfl))
  | variableNames _, keywords set => cases set <;> cases same
  | keywords set, labels => cases set <;> cases same
  | keywords set, variableNames _ => cases set <;> cases same
  | keywords set, keywords set' => exact key_ne_of_sets (fun e => ne (congrArg _ e)) h h' e

end Generator

/-- The generators offer variables with one boost only. -/
def Boosted (boost : Int) (gs : List Generator) : Prop :=
  ∀ g ∈ gs, ∀ b ∈ g.boost?, b = boost

/-- Of generators that offer variables with one boost, the candidates of each are kept once. -/
lemma distinct_blocks {boost : Int} {gs : List Generator} (h : Boosted boost gs) (text : Text) :
    distinctBy Candidate.key (gs.flatMap (·.block text)) =
      (distinct gs).flatMap (·.block text) := by
  refine distinctBy_flatMap (fun g _ => g.nodup_block text) ?_
  intro g hg g' hg' ne c hc c' hc'
  refine Generator.key_ne ne ?_ hc hc'
  intro b hb b' hb'
  rw [h g hg b hb, h g' hg' b' hb']

/-! ## The rules of the table -/

/-- All rules of an entry. -/
def Entry.allRules : Entry → List Rule
  | rules rs => rs
  | refined refinements otherwise =>
    refinements.flatMap (fun r => match r.2 with | .rules rs => rs | .suppress => []) ++ otherwise

/-- The rules that apply are rules of the entry. -/
lemma Entry.subset_allRules {e : Entry} {t : Tree} {pos : Nat} {rs : List Rule}
    (h : e.rulesFor? t pos = some rs) : rs ⊆ e.allRules := by
  cases e with
  | rules rs' =>
    cases h
    exact List.Subset.refl _
  | refined refinements otherwise =>
    rw [Entry.rulesFor?] at h
    split at h
    next k rs' found =>
      cases h
      intro r hr
      refine List.mem_append_left _ (List.mem_flatMap.mpr ?_)
      exact ⟨_, List.mem_of_find?_eq_some found, hr⟩
    next => cases h
    next =>
      cases h
      exact List.subset_append_right _ _

/-- The rule may fire behind a `;`. -/
def Rule.admitsSemicolon (r : Rule) : Bool :=
  r.suffixes.any fun s => s.isEmpty || s.getLast? == some .semicolon

/-- The boosts that a rule gives to variables. -/
def Rule.boosts (r : Rule) : List Int :=
  r.generators.filterMap (·.boost?)

/--
Each rule gives variables one boost. A rule that continues fires behind a `;` only, and a rule that
may fire there offers variables as fresh ones.
-/
lemma rules_of_table : ∀ k ∈ Kind.all, ∀ e ∈ table k, ∀ r ∈ e.allRules,
    (∃ boost ∈ [10, 0, -10], ∀ b ∈ r.boosts, b = boost) ∧
    (r.continues = true → r.suffixes = [[.semicolon]]) ∧
    (r.admitsSemicolon = true → ∀ b ∈ r.boosts, b = 10) := by
  decide +kernel

variable {pos : Nat} {c : Context} {rule : Rule}

/-- A rule that fires is one of the table. -/
lemma rule_of_consult (h : consult pos c = .fires rule) :
    ∃ e ∈ table c.node.kind, rule ∈ e.allRules ∧ rule.fires c.preceding = true := by
  rw [consult] at h
  split at h
  · cases h
  next e found =>
    split at h
    · cases h
    next rules chosen =>
      split at h
      · cases h
      next first =>
        cases h
        exact ⟨e, found, Entry.subset_allRules chosen (List.mem_of_find?_eq_some first),
          List.find?_some (p := fun r : Rule => r.fires c.preceding) first⟩

/-- A node none of whose rules fires has nothing to say. -/
lemma consult_mute
    (h : ∀ e ∈ table c.node.kind, ∀ r ∈ e.allRules, r.fires c.preceding = false) :
    consult pos c = .silent ∨ consult pos c = .suppressed := by
  cases fires : consult pos c with
  | silent => exact .inl rfl
  | suppressed => exact .inr rfl
  | fires r =>
    obtain ⟨e, found, hr, fires⟩ := rule_of_consult fires
    rw [h e found r hr] at fires
    cases fires

/-- What stands before the cursor ends as a rule asks that fires. -/
lemma consult_fires (h : consult pos c = .fires rule) :
    (∃ boost ∈ [10, 0, -10], Boosted boost rule.generators) ∧
    (rule.continues = true → [.semicolon] <:+ c.preceding) ∧
    ([.semicolon] <:+ c.preceding → Boosted 10 rule.generators) := by
  have boosted {boost : Int} (same : ∀ b ∈ rule.boosts, b = boost) :
      Boosted boost rule.generators := by
    intro g hg b hb
    exact same b (List.mem_filterMap.mpr ⟨g, hg, hb⟩)
  obtain ⟨e, found, hr, fires⟩ := rule_of_consult h
  obtain ⟨s, hs, ends⟩ := List.any_eq_true.mp fires
  have ends : s <:+ c.preceding := List.isSuffixOf_iff_suffix.mp ends
  obtain ⟨⟨boost, one, same⟩, continuing, behind⟩ :=
    rules_of_table _ (Kind.mem_all _) e found rule hr
  refine ⟨⟨boost, one, boosted same⟩, ?_, ?_⟩
  · intro continues
    rw [continuing continues, List.mem_singleton] at hs
    exact hs ▸ ends
  · intro semicolon
    refine boosted (behind (List.any_eq_true.mpr ⟨s, hs, ?_⟩))
    -- of two suffixes, the shorter one ends the longer one
    rcases List.suffix_or_suffix_of_suffix ends semicolon with short | long
    · rcases List.suffix_cons_iff.mp short with rfl | nil
      · rfl
      · rw [List.suffix_nil.mp nil]
        rfl
    · obtain ⟨front, rfl⟩ := long
      simp

/-! ## The way up -/

variable {root : Tree} {text : Text} {cs : List Context} {collected : List Candidate}

/-- A node is silent, or the rule that fires there adds to what is collected or ends it. -/
lemma climb_cases {c : Context} (h : climb root text pos (c :: cs) = some collected) :
    climb root text pos cs = some collected ∨
      ∃ rule, consult pos c = .fires rule ∧
        ((rule.continues = true ∧ ∃ more, climb root text pos cs = some more ∧
            collected = rule.candidates root text ++ more) ∨
          collected = rule.candidates root text) := by
  rw [climb] at h
  cases verdict : consult pos c with
  | suppressed => simp [verdict] at h
  | silent =>
    rw [verdict] at h
    exact .inl h
  | fires rule =>
    simp only [verdict] at h
    refine .inr ⟨rule, rfl, ?_⟩
    split at h
    next continues =>
      obtain ⟨more, climbed, rfl⟩ := Option.map_eq_some_iff.mp h
      exact .inl ⟨continues, more, climbed, rfl⟩
    next =>
      cases h
      exact .inr rfl

/-- Behind a `;` all generators on the way up offer variables as fresh ones. -/
lemma climb_behind_semicolon (behind : ∀ c ∈ cs, [.semicolon] <:+ c.preceding)
    (h : climb root text pos cs = some collected) :
    ∃ gs, Boosted 10 gs ∧ collected = gs.flatMap (·.candidates root text) := by
  induction cs generalizing collected with
  | nil =>
    cases h
    exact ⟨[], nofun, rfl⟩
  | cons c cs ih =>
    obtain ⟨first, rest⟩ := List.forall_mem_cons.mp behind
    rcases climb_cases h with climbed | ⟨rule, fires, added⟩
    · exact ih rest climbed
    · have fresh := (consult_fires fires).2.2 first
      rcases added with ⟨_, more, climbed, rfl⟩ | rfl
      · obtain ⟨gs, boosted, rfl⟩ := ih rest climbed
        refine ⟨rule.generators ++ gs, List.forall_mem_append.mpr ⟨fresh, boosted⟩, ?_⟩
        rw [List.flatMap_append]
        rfl
      · exact ⟨rule.generators, fresh, rfl⟩

/-- The generators that are collected on the way up offer variables with one boost. -/
lemma climb_generators (chain : cs.Pairwise fun c d => c.preceding <:+ d.preceding)
    (h : climb root text pos cs = some collected) :
    ∃ boost ∈ [10, 0, -10], ∃ gs, Boosted boost gs ∧
      collected = gs.flatMap (·.candidates root text) := by
  induction cs generalizing collected with
  | nil =>
    cases h
    exact ⟨10, by decide, [], nofun, rfl⟩
  | cons c cs ih =>
    obtain ⟨later, rest⟩ := List.pairwise_cons.mp chain
    rcases climb_cases h with climbed | ⟨rule, fires, added⟩
    · exact ih rest climbed
    · obtain ⟨⟨boost, one, boosted⟩, continuing, fresh⟩ := consult_fires fires
      rcases added with ⟨continues, more, climbed, rfl⟩ | rfl
      · have semicolon := continuing continues
        obtain ⟨gs, boosted, rfl⟩ := climb_behind_semicolon
          (fun d hd => semicolon.trans (later d hd)) climbed
        refine ⟨10, by decide, rule.generators ++ gs, ?_, ?_⟩
        · exact List.forall_mem_append.mpr ⟨fresh semicolon, boosted⟩
        · rw [List.flatMap_append]
          rfl
      · exact ⟨boost, one, rule.generators, boosted, rfl⟩

/-- On the way up, what stands before the cursor only grows in front. -/
lemma contextsAlong_pairwise (t : Tree) (preceding : List Kind) (path : List Tree.Step) :
    (∀ c ∈ contextsAlong t preceding path, preceding <:+ c.preceding) ∧
    (contextsAlong t preceding path).Pairwise fun c d => c.preceding <:+ d.preceding := by
  induction path generalizing t preceding with
  | nil => exact ⟨by simp [contextsAlong], .cons nofun .nil⟩
  | cons s path ih =>
    obtain ⟨above, chain⟩ :=
      ih s.parent ((s.parent.children.take s.index).map Tree.kind ++ preceding)
    have grows (c) (hc : c ∈ contextsAlong s.parent _ path) : preceding <:+ c.preceding :=
      (List.suffix_append _ _).trans (above c hc)
    exact ⟨List.forall_mem_cons.mpr ⟨List.suffix_rfl, grows⟩, .cons grows chain⟩

/-- An offer is made up of the candidates of different generators. -/
lemma complete_generators {r : Result} (h : complete (parseTree text) text pos = some r) :
    ∃ boost ∈ [10, 0, -10], ∃ gs : List Generator, gs.Nodup ∧ Boosted boost gs ∧
      r.candidates = gs.flatMap (·.block text) := by
  rw [complete] at h
  split at h
  · cases h
  next collected climbed =>
    obtain ⟨boost, one, gs, boosted, rfl⟩ :=
      climb_generators (contextsAlong_pairwise _ _ _).2 climbed
    have kept : Boosted boost (distinct gs) := fun g hg => boosted g (mem_distinct.mp hg)
    refine ⟨boost, one, distinct gs, nodup_distinct gs, kept, ?_⟩
    simp only [Generator.candidates_parseTree] at h
    have blocks := distinct_blocks boosted text
    split at h
    · cases h
    · cases h
      exact blocks

/-- The candidates of some categories are the blocks of the generators of these categories. -/
lemma filter_category (gs : List Generator) (text : Text) (p : Category → Bool) :
    (gs.flatMap (·.block text)).filter (fun c => p c.category) =
      (gs.filter fun g => p g.category).flatMap (·.block text) :=
  filter_blocks fun _ _ _ hc => congrArg p (Generator.category_of_mem hc)

/-- The candidates of a category that one generator has are its block, or none. -/
lemma filter_block {gs : List Generator} {g : Generator} {category : Category} (nodup : gs.Nodup)
    (only : ∀ g' ∈ gs, g'.category = category → g' = g) (text : Text) :
    (gs.flatMap (·.block text)).filter (·.category == category) = [] ∨
    (gs.flatMap (·.block text)).filter (·.category == category) = g.block text := by
  have same : ∀ g' ∈ gs.filter (·.category == category), g' = g := by
    intro g' hg
    obtain ⟨hg, hc⟩ := List.mem_filter.mp hg
    exact only g' hg (eq_of_beq hc)
  rw [filter_category gs text (· == category)]
  rcases eq_singleton_of_nodup (nodup.filter _) same with e | e
  · rw [e]
    exact .inl rfl
  · rw [e, List.flatMap_singleton]
    exact .inr rfl

/-- The candidates that are no words of the document are whole sets of words. -/
lemma filter_sets (gs : List Generator) (text : Text) :
    (gs.flatMap (·.block text)).filter
      (fun c => c.category != .variableName && c.category != .typeLabel) =
      (gs.filterMap (·.set?)).flatMap (·.candidates) := by
  rw [filter_category gs text fun k => k != .variableName && k != .typeLabel]
  induction gs with
  | nil => rfl
  | cons g gs ih =>
    cases g with
    | labels => exact ih
    | variableNames boost => exact ih
    | keywords set =>
      have words : (set.category != .variableName && set.category != .typeLabel) = true := by
        cases set <;> rfl
      rw [List.filter_cons, Generator.category, if_pos words, List.flatMap_cons, ih]
      rfl

/--
An offer has no two candidates with one label and category. Its variables are none or all of the
document with one boost, its types are none or all labels of the document, and the rest are whole
sets of words.
-/
theorem candidates_of_complete (text : Text) (pos : Nat) (r : Result)
    (h : complete (parseTree text) text pos = some r) :
    (r.candidates.map fun c => (c.label, c.category)).Nodup ∧
    (r.candidates.filter (·.category == .variableName) = [] ∨
      ∃ boost ∈ [10, 0, -10],
        r.candidates.filter (·.category == .variableName) = variableCandidates text boost) ∧
    (r.candidates.filter (·.category == .typeLabel) = [] ∨
      r.candidates.filter (·.category == .typeLabel) = labelCandidates text) ∧
    ∃ sets : List KeywordSet, sets.Nodup ∧
      r.candidates.filter (fun c => c.category != .variableName && c.category != .typeLabel) =
        sets.flatMap (·.candidates) := by
  obtain ⟨boost, one, gs, nodup, boosted, e⟩ := complete_generators h
  rw [e]
  refine ⟨?_, ?_, ?_, gs.filterMap (·.set?), ?_, filter_sets gs text⟩
  · have blocks := distinct_blocks boosted text
    have same : distinct gs = gs := distinctBy_of_nodup (nodup.map fun _ _ e => e)
    rw [same] at blocks
    rw [← blocks]
    exact nodup_distinctBy _
  · -- the boost is that of all variables, so no other generator offers any
    have only (g) (hg : g ∈ gs) (hc : g.category = .variableName) : g = .variableNames boost := by
      cases g with
      | labels => cases hc
      | variableNames b => rw [boosted _ hg b rfl]
      | keywords set => cases set <;> cases hc
    rcases filter_block nodup only text with none | all
    · exact .inl none
    · exact .inr ⟨boost, one, all⟩
  · refine filter_block (g := .labels) nodup ?_ text
    intro g _ hc
    cases g with
    | labels => rfl
    | variableNames b => cases hc
    | keywords set => cases set <;> cases hc
  · refine nodup.filterMap ?_
    intro g g' set hg hg'
    cases g <;> cases hg
    cases g' <;> cases hg'
    rfl

/-- Behind a pattern: its variable as a fresh one, then the nested patterns and the stages. -/
theorem candidates_behind_pattern :
    ∃ r, complete (parseTree "match $x isa person; ".toList) "match $x isa person; ".toList 21 =
        some r ∧
      r.candidates = variableCandidates "match $x isa person; ".toList 10 ++
        [KeywordSet.nestedPatterns, .pipelineStages].flatMap (·.candidates) ∧
      (r.candidates.map fun c => (c.label, c.category)).Nodup ∧
      ∃ sets : List KeywordSet, sets.Nodup ∧
        r.candidates.filter (fun c => c.category != .variableName && c.category != .typeLabel) =
          sets.flatMap (·.candidates) := by
  obtain ⟨r, h, offered⟩ := Option.map_eq_some_iff.mp (show
    (complete (parseTree "match $x isa person; ".toList) "match $x isa person; ".toList 21).map
      (·.candidates) = some (variableCandidates "match $x isa person; ".toList 10 ++
        [KeywordSet.nestedPatterns, .pipelineStages].flatMap (·.candidates)) by decide +kernel)
  obtain ⟨nodup, _, _, sets⟩ := candidates_of_complete _ _ r h
  exact ⟨r, h, offered, nodup, sets⟩

end Completion

end TypeqlAssist
