import TypeqlAssist.Proofs.Grammar.Acceptance
import TypeqlAssist.Proofs.Grammar.Phrase

/-!
# Rules and the phrases they accept

`Yields` says that the kinds a rule accepts, in front of a lookahead, make up a phrase. There is
one lemma for every way to build a rule. Rules that note a fault accept nothing, and so yield every
phrase.
-/

namespace TypeqlAssist

namespace Grammar

variable {n : Nat} {pre pre' : Front} {inner : Symbol → List Kind → Option (List Kind)}
  {accept : List Kind → Option (List Kind)} {p q : Rule} {test : Test} {a b : Phrase}
  {k : Kind} {ks : List Kind} {wanted : Wanted} {mode : Mode}

/-! ## The kind that is next -/

/-- Tokens that satisfy a condition start with one of some kinds. -/
def Heads (pre : Front) (ks : List Kind) : Prop :=
  Tells pre fun l => ∃ k ∈ ks, l.first = some k

/-- What starts with one of some kinds starts with one of more kinds. -/
lemma Heads.subset {ks' : List Kind} (h : Heads pre ks) (hs : ks ⊆ ks') : Heads pre ks' := by
  intro l hl
  obtain ⟨k, hk, e⟩ := h l hl
  exact ⟨k, hs hk, e⟩

/-- A kind that is not next is none of those that may be. -/
lemma Heads.without (h : Heads pre ks) : Heads (fun l => pre l ∧ next k l = false) (ks.erase k) := by
  rintro l ⟨hl, ne⟩
  obtain ⟨k', hk, e⟩ := h l hl
  refine ⟨k', (List.mem_erase_of_ne ?_).mpr hk, e⟩
  rintro rfl
  rw [next, e, beq_self_eq_true] at ne
  cases ne

/-- The only kind that may be next cannot be absent. -/
lemma Heads.absurd (h : Heads pre [k]) : Heads (fun l => next k l = false ∧ pre l) [] := by
  rintro l ⟨ne, hl⟩
  obtain ⟨k', hk, e⟩ := h l hl
  rw [next, e, List.mem_singleton.mp hk, beq_self_eq_true] at ne
  cases ne

/-- What passes the test for a kind starts with it. -/
lemma heads_next : Heads (next k · = true) [k] :=
  fun _ hl => ⟨k, .head [], eq_of_beq hl⟩

/-- What passes the test for a kind and its successor starts with the kind. -/
lemma heads_nextThen {p : Kind → Bool} : Heads (nextThen k p · = true) [k] :=
  fun _ hl => ⟨k, .head [], eq_of_beq (Bool.and_eq_true_iff.mp hl).1⟩

/-- Behind a kind comes what its successor was asked for. -/
lemma nextIs_of_after {p : Kind → Bool} {l : Lookahead} (h : After (nextThen k p · = true) l) :
    nextIs p l = true := by
  obtain ⟨first, hl⟩ := h
  exact (Bool.and_eq_true_iff.mp hl).2

/-- The kind behind the next one is known, too. -/
lemma heads_after_nextThen {k' : Kind} : Heads (After (nextThen k (· == k') · = true)) [k'] := by
  intro l hl
  obtain ⟨k'', e, hk⟩ := nextIs_iff.mp (nextIs_of_after hl)
  exact ⟨k', .head [], e.trans (congrArg some (eq_of_beq hk))⟩

/-- What passes a test starts with one of the kinds that pass it. -/
lemma heads_nextIs {p : Kind → Bool} (h : ∀ k, p k = true → k ∈ ks) :
    Heads (nextIs p · = true) ks := by
  intro l hl
  obtain ⟨k, e, hk⟩ := nextIs_iff.mp hl
  exact ⟨k, h k hk, e⟩

/-- What passes the test for some kinds starts with one of them. -/
lemma heads_oneOf : Heads (nextIs (oneOf ks) · = true) ks :=
  heads_nextIs fun _ hk => List.contains_iff_mem.mp hk

/-- These are the keywords of type constraints. -/
lemma heads_isTypeConstraint :
    Heads (nextIs Kind.isTypeConstraint · = true)
      [.kwSub, .kwOwns, .kwRelates, .kwPlays, .kwValue] :=
  heads_nextIs fun k => by cases k <;> decide

/-- These are the keywords of constraints on things. -/
lemma heads_isThingConstraint :
    Heads (nextIs Kind.isThingConstraint · = true) [.kwIsa, .kwHas, .kwLinks] :=
  heads_nextIs fun k => by cases k <;> decide

/-- These are the keywords of schema queries. -/
lemma heads_isSchemaKeyword :
    Heads (nextIs Kind.isSchemaKeyword · = true) [.kwDefine, .kwRedefine, .kwUndefine] :=
  heads_nextIs fun k => by cases k <;> decide

/-- A condition on the next kind says that there is one. -/
lemma ne_none_of_nextIs {p : Kind → Bool} {l : Lookahead} (h : nextIs p l = true) :
    l.first ≠ none := by
  obtain ⟨k, e, _⟩ := nextIs_iff.mp h
  rw [e]
  exact Option.some_ne_none k

/-- What starts with one of some kinds is not the end. -/
lemma Heads.ne_none {l : Lookahead} (h : Heads pre ks) (hl : pre l) : l.first ≠ none := by
  obtain ⟨k, _, e⟩ := h l hl
  rw [e]
  exact Option.some_ne_none k

/-- There is a kind that is next. -/
lemma Heads.exists_cons {ls : List Kind} (h : Heads pre ks) (hl : pre (.ofKinds ls)) :
    ∃ k ∈ ks, ∃ ms, ls = k :: ms := by
  obtain ⟨k, hk, e⟩ := h _ hl
  cases ls with
  | nil => cases e
  | cons k' ms => cases e; exact ⟨k, hk, ms, rfl⟩

/-! ## Yielding a phrase -/

/-- In front of a lookahead, what is accepted makes up a phrase. -/
def Yields (n : Nat) (pre : Front) (accept : List Kind → Option (List Kind)) (a : Phrase) : Prop :=
  ∀ ks rest, pre (.ofKinds ks) → accept ks = some rest →
    ∃ w, ks = w ++ rest ∧ Derives Phrase.body n a w

/-- A stronger condition is enough. -/
lemma Yields.mono (h : Yields n pre accept a) (imp : Tells pre' pre) :
    Yields n pre' accept a :=
  fun ks rest hl => h ks rest (imp _ hl)

/-- What is accepted in front of anything is accepted under any condition. -/
lemma Yields.of_anything (h : Yields n anything accept a) : Yields n pre accept a :=
  h.mono fun _ _ => trivial

/-- A phrase may be replaced by one that stands for as much. -/
lemma Yields.imp (h : Yields n pre accept a)
    (imp : ∀ w, Derives Phrase.body n a w → Derives Phrase.body n b w) :
    Yields n pre accept b := by
  intro ks rest hl e
  obtain ⟨w, eq, hw⟩ := h ks rest hl e
  exact ⟨w, eq, imp w hw⟩

/-- The first of two phrases is a choice between them. -/
lemma Yields.left (h : Yields n pre accept a) : Yields n pre accept (.either a b) :=
  h.imp fun _ => .left

/-- The second of two phrases is a choice between them. -/
lemma Yields.right (h : Yields n pre accept b) : Yields n pre accept (.either a b) :=
  h.imp fun _ => .right

/-- Where nothing is read, nothing is accepted. -/
lemma yields_skip : Yields n pre (Rule.skip.accept inner) .empty := by
  rintro ks rest _ ⟨⟩
  exact ⟨[], rfl, .empty⟩

/-- A token that is taken is of the kind that is next. -/
lemma yields_take (h : Heads pre ks) : Yields n pre (Rule.take.accept inner) (.word ks) := by
  intro ls rest hl e
  obtain ⟨k, hk, ms, rfl⟩ := h.exists_cons hl
  cases e
  exact ⟨[k], rfl, .word hk⟩

/-- A gap is a fault, so nothing is accepted with one. -/
lemma yields_missing : Yields n pre ((Rule.missing wanted).accept inner) a :=
  fun _ _ _ e => nomatch e

/-- A rule that gives up where there is a token accepts nothing there. -/
lemma yields_of_none (h : ∀ l, pre l → l.first ≠ none)
    (e : ∀ k ks, accept (k :: ks) = none) : Yields n pre accept a := by
  intro ks rest hl er
  cases ks with
  | nil => exact absurd rfl (h _ hl)
  | cons k ks =>
    rw [e] at er
    cases er

/-- Where there is a token, recovery is a fault. -/
lemma yields_recover (h : ∀ l, pre l → l.first ≠ none) :
    Yields n pre (Rule.recover.accept inner) a :=
  yields_of_none h fun _ _ => rfl

/-- Where there is a token, a stray is a fault. -/
lemma yields_stray (h : ∀ l, pre l → l.first ≠ none) :
    Yields n pre (Rule.stray.accept inner) a :=
  yields_of_none h fun _ _ => rfl

/-- Nothing is accepted in front of no kind. -/
lemma yields_of_heads_nil (h : Heads pre []) : Yields n pre accept a := by
  intro ks rest hl
  obtain ⟨k, hk, _⟩ := h _ hl
  cases hk

/-- One rule after another accepts one phrase after another. -/
lemma Yields.seq (hp : Yields n pre (p.accept inner) a)
    (hq : Yields n anything (q.accept inner) b) :
    Yields n pre ((Rule.seq p q).accept inner) (.seq a b) := by
  intro ks rest hl e
  obtain ⟨mid, ep, eq⟩ := Option.bind_eq_some_iff.mp e
  obtain ⟨u, rfl, hu⟩ := hp ks mid hl ep
  obtain ⟨v, rfl, hv⟩ := hq mid rest trivial eq
  exact ⟨u ++ v, (List.append_assoc ..).symm, .seq hu hv⟩

/-- What comes after nothing is all there is. -/
lemma Yields.emptyThen (hp : Yields n pre (p.accept inner) .empty)
    (hq : Yields n anything (q.accept inner) b) : Yields n pre ((Rule.seq p q).accept inner) b := by
  refine (hp.seq hq).imp ?_
  intro w hw
  obtain ⟨u, v, rfl, hu, hv⟩ := derives_seq.mp hw
  rw [derives_empty.mp hu]
  exact hv

/-- What comes before nothing is all there is. -/
lemma Yields.thenEmpty (hp : Yields n pre (p.accept inner) a)
    (hq : Yields n anything (q.accept inner) .empty) :
    Yields n pre ((Rule.seq p q).accept inner) a := by
  refine (hp.seq hq).imp ?_
  intro w hw
  obtain ⟨u, v, rfl, hu, hv⟩ := derives_seq.mp hw
  rw [derives_empty.mp hv, List.append_nil]
  exact hu

/-- Behind a token, a rule is asked only where its test was passed with the token. -/
lemma Yields.takeThen (h : Heads pre ks) (hq : Yields n (After pre) (q.accept inner) b) :
    Yields n pre ((Rule.seq .take q).accept inner) (.seq (.word ks) b) := by
  intro ls rest hl e
  obtain ⟨k, hk, ms, rfl⟩ := h.exists_cons hl
  obtain ⟨v, rfl, hv⟩ := hq ms rest ⟨_, hl⟩ e
  exact ⟨k :: v, rfl, .seq (.word hk) hv⟩

/-- A branch accepts a phrase if each rule does in front of what leads to it. -/
lemma Yields.branch (hp : Yields n (fun l => pre l ∧ test l = true) (p.accept inner) a)
    (hq : Yields n (fun l => pre l ∧ test l = false) (q.accept inner) a) :
    Yields n pre ((Rule.branch test p q).accept inner) a := by
  intro ks rest hl e
  rw [Rule.accept_branch] at e
  split at e
  next pass => exact hp ks rest ⟨hl, pass⟩ e
  next fail => exact hq ks rest ⟨hl, Bool.eq_false_iff.mpr fail⟩ e

/-- However often a loop goes round, it accepts a repetition. -/
lemma acceptWhile_yields (hp : Yields n (test · = true) accept a) (fuel : Nat) :
    Yields n pre (acceptWhile test accept fuel) (.star a) := by
  intro ks rest hl e
  -- after the first turn nothing is known of what is next but that the test decides on it
  clear hl
  induction fuel generalizing ks with
  | zero => cases e; exact ⟨[], rfl, .none⟩
  | succ fuel ih =>
    rw [acceptWhile_succ] at e
    split at e
    next pass =>
      obtain ⟨mid, ep, er⟩ := Option.bind_eq_some_iff.mp e
      obtain ⟨u, rfl, hu⟩ := hp ks mid pass ep
      obtain ⟨v, rfl, hv⟩ := ih mid er
      exact ⟨u ++ v, (List.append_assoc ..).symm, .more hu hv⟩
    next => cases e; exact ⟨[], rfl, .none⟩

/-- A loop accepts a repetition of what each turn accepts. -/
lemma Yields.many (hp : Yields n (test · = true) (p.accept inner) a) :
    Yields n pre ((Rule.many test p).accept inner) (.star a) :=
  fun ks rest hl e => acceptWhile_yields hp ks.length ks rest hl e

/-- A loop that goes round at least once accepts a phrase at least once. -/
lemma Yields.many_plus (ht : ∀ l, pre l → test l = true) (hs : ∀ l, pre l → l.first ≠ none)
    (hp : Yields n (test · = true) (p.accept inner) a) :
    Yields n pre ((Rule.many test p).accept inner) (.plus a) := by
  intro ks rest hl e
  cases ks with
  | nil => exact absurd rfl (hs _ hl)
  | cons k ks =>
    rw [Rule.accept_many, List.length_cons, acceptWhile_succ, if_pos (ht _ hl)] at e
    obtain ⟨mid, ep, er⟩ := Option.bind_eq_some_iff.mp e
    obtain ⟨u, eq, hu⟩ := hp _ mid (ht _ hl) ep
    obtain ⟨v, rfl, hv⟩ := @acceptWhile_yields _ anything _ _ _ hp ks.length mid rest trivial er
    exact ⟨u ++ v, eq.trans (List.append_assoc ..).symm, .seq hu hv⟩

/-- A loop that cannot go round accepts nothing. -/
lemma yields_many_empty (hp : Yields n (test · = true) (p.accept inner) (.word [])) :
    Yields n pre ((Rule.many test p).accept inner) .empty := by
  refine (Yields.many hp).imp ?_
  intro w hw
  refine hw.star_induction .empty ?_
  intro u v hu
  obtain ⟨k, hk, _⟩ := derives_word.mp hu
  cases hk

/-- A rule, and another one that may accept nothing, accept one phrase after the other. -/
lemma Yields.joined (hp : Yields n pre (p.accept inner) a)
    (hq : Yields n (test · = true) (q.accept inner) (.star b)) :
    Yields n pre ((Rule.joined p test k q).accept inner) (.seq a (.star b)) := by
  intro ks rest hl e
  obtain ⟨mid, ep, er⟩ := Option.bind_eq_some_iff.mp e
  obtain ⟨u, rfl, hu⟩ := hp ks mid hl ep
  split at er
  next pass =>
    obtain ⟨v, rfl, hv⟩ := hq mid rest pass er
    exact ⟨u ++ v, (List.append_assoc ..).symm, .seq hu hv⟩
  next =>
    cases er
    exact ⟨u ++ [], by rw [List.append_nil], .seq hu .none⟩

end Grammar

end TypeqlAssist
