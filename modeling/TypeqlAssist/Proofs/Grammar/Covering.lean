import TypeqlAssist.Proofs.Grammar.Acceptance
import TypeqlAssist.Proofs.Grammar.Phrase

/-!
# Phrases that rules accept

`Covers` says that a rule accepts whatever a phrase stands for and stops behind it, provided that
the kinds behind it satisfy a condition: a rule decides by what is next, so a phrase must not be
followed by a kind that would continue it. `Leads` tells what is in front of such a phrase.
-/

namespace TypeqlAssist

namespace Grammar

variable {n : Nat} {pre mid post post' : Front}
  {inner : Symbol → List Kind → Option (List Kind)}
  {accept : List Kind → Option (List Kind)} {p q : Rule} {test : Test} {a b : Phrase}
  {k : Kind} {ks : List Kind}

/-! ## Where a phrase stands -/

/-- Where a phrase stands in front of a condition, `R` holds between it and what is behind it. -/
def Ahead (n : Nat) (a : Phrase) (post : Front) (R : List Kind → List Kind → Prop) : Prop :=
  ∀ w rest, Derives Phrase.body n a w → post (.ofKinds rest) → R w rest

section

variable {R : List Kind → List Kind → Prop}

/-- A stronger condition is enough. -/
lemma Ahead.mono (h : Ahead n a post R) (imp : Tells post' post) : Ahead n a post' R :=
  fun w rest hw hl => h w rest hw (imp _ hl)

/-- What holds in front of anything holds in front of any condition. -/
lemma Ahead.of_anything (h : Ahead n a anything R) : Ahead n a post R :=
  h.mono fun _ _ => trivial

/-- A phrase may be replaced by one that stands for less. -/
lemma Ahead.imp (h : Ahead n a post R)
    (imp : ∀ w, Derives Phrase.body n b w → Derives Phrase.body n a w) : Ahead n b post R :=
  fun w rest hw => h w rest (imp w hw)

/-- What holds of two phrases holds of the choice between them. -/
lemma Ahead.either (ha : Ahead n a post R) (hb : Ahead n b post R) :
    Ahead n (.either a b) post R := by
  intro w rest hw hl
  rcases derives_either.mp hw with hw | hw
  · exact ha w rest hw hl
  · exact hb w rest hw hl

end

/-! ## In front of a phrase -/

/-- Where a phrase stands in front of one condition, another one holds in front of the phrase. -/
def Leads (n : Nat) (a : Phrase) (post pre : Front) : Prop :=
  Ahead n a post fun w rest => pre (.ofKinds (w ++ rest))

/-- What holds in front of a kind holds if it is next. -/
lemma imp_of_next (h : ∀ second, pre ⟨some k, second⟩) : ∀ l, next k l = true → pre l := by
  rintro ⟨first, second⟩ hl
  cases eq_of_beq hl
  exact h second

/-- What does not start with one of some kinds starts with none of them. -/
lemma next_eq_false {p : Kind → Bool} {l : Lookahead} (h : nextIs p l = false) (hk : p k = true) :
    next k l = false := by
  rw [← Bool.not_eq_true] at h ⊢
  exact fun hl => h (nextIs_iff.mpr ⟨k, eq_of_beq hl, hk⟩)

/-- What does not start with one of some kinds starts with none of fewer kinds. -/
lemma nextIs_eq_false {p q : Kind → Bool} {l : Lookahead} (h : nextIs p l = false)
    (imp : ∀ k, q k = true → p k = true) : nextIs q l = false := by
  rw [← Bool.not_eq_true] at h ⊢
  intro hl
  obtain ⟨k, e, hk⟩ := nextIs_iff.mp hl
  exact h (nextIs_iff.mpr ⟨k, e, imp k hk⟩)

/-- What does not start with a kind does not start with it and a successor. -/
lemma nextThen_eq_false {p : Kind → Bool} {l : Lookahead} (h : next k l = false) :
    nextThen k p l = false :=
  Bool.and_eq_false_iff.mpr (.inl h)

/-- Behind a kind its successor is next. -/
lemma nextThen_cons (p : Kind → Bool) (ms : List Kind) :
    nextThen k p (.ofKinds (k :: ms)) = nextIs p (.ofKinds ms) := by
  rw [nextThen, Lookahead.ofKinds, List.head?_cons, beq_self_eq_true, Bool.true_and]
  rfl

/-- A condition on the next kind holds in front of a phrase that starts with such a kind. -/
lemma leads_of_starts (hs : Starts Phrase.body n a ks)
    (h : ∀ k ∈ ks, ∀ second, pre ⟨some k, second⟩) : Leads n a post pre := by
  intro w rest hw _
  obtain ⟨k, hk, v, rfl⟩ := hs w hw
  exact h k hk _

/-- A condition on the next kind holds in front of a token of that kind. -/
lemma leads_token (h : ∀ second, pre ⟨some k, second⟩) : Leads n (.token k) post pre := by
  refine leads_of_starts (starts_token (.head [])) ?_
  intro k' hk
  rw [List.mem_singleton.mp hk]
  exact h

/-- What comes after a kind is asked for in front of the kind. -/
lemma leads_nextThen {p : Kind → Bool} {value : Bool} :
    Leads n (.token k) (nextIs p · = value) (nextThen k p · = value) := by
  intro w rest hw hl
  rw [derives_token.mp hw, ← hl]
  exact nextThen_cons p rest

/-- Conditions that hold in front of a phrase hold there together. -/
lemma Leads.and {pre' : Front} (h : Leads n a post pre) (h' : Leads n a post pre') :
    Leads n a post fun l => pre l ∧ pre' l :=
  fun w rest hw hl => ⟨h w rest hw hl, h' w rest hw hl⟩

/-- What holds in front of two phrases holds in front of the choice between them. -/
lemma Leads.either (ha : Leads n a post pre) (hb : Leads n b post pre) :
    Leads n (.either a b) post pre :=
  Ahead.either ha hb

/-- In front of a phrase that may be absent stands the phrase or what comes after it. -/
lemma Leads.maybe (ha : Leads n a post pre) (imp : ∀ l, post l → pre l) :
    Leads n (.maybe a) post pre := by
  intro w rest hw hl
  rcases derives_maybe.mp hw with hw | rfl
  · exact ha w rest hw hl
  · exact imp _ hl

/-- In front of two phrases stands the first one, behind which the second one leads. -/
lemma Leads.seq (ha : Leads n a mid pre) (hb : Leads n b post mid) :
    Leads n (.seq a b) post pre := by
  intro w rest hw hl
  obtain ⟨u, v, rfl, hu, hv⟩ := derives_seq.mp hw
  rw [List.append_assoc]
  exact ha u _ hu (hb v rest hv hl)

/-- What a phrase begins with does not depend on what comes after it. -/
lemma Leads.first (ha : Leads n a anything pre) : Leads n (.seq a b) post pre :=
  ha.seq fun _ _ _ _ => trivial

/--
A condition on the next kind holds in front of a phrase that starts with a token of that kind.
-/
lemma leads_tokenThen (h : ∀ second, pre ⟨some k, second⟩) :
    Leads n (.seq (.token k) a) post pre :=
  .first (leads_token h)

/-- A repetition begins as its phrase does, or as what comes after it. -/
lemma Leads.star (ha : Leads n a anything pre) (imp : ∀ l, post l → pre l) :
    Leads n (.star a) post pre := by
  intro w rest hw hl
  refine hw.star_induction (motive := fun w => pre (.ofKinds (w ++ rest))) (imp _ hl) ?_
  intro u v hu _ _
  rw [List.append_assoc]
  exact ha u _ hu trivial

/-! ## Covering a phrase -/

/-- What a phrase stands for is accepted where a condition holds behind it. -/
def Covers (n : Nat) (a : Phrase) (accept : List Kind → Option (List Kind)) (post : Front) :
    Prop :=
  Ahead n a post fun w rest => accept (w ++ rest) = some rest

/-- A rule that accepts two phrases accepts the choice between them. -/
lemma Covers.either (ha : Covers n a accept post) (hb : Covers n b accept post) :
    Covers n (.either a b) accept post :=
  Ahead.either ha hb

/-- What a phrase starts with decides which rule reads it. -/
lemma Covers.congr (hs : Starts Phrase.body n a ks) (h : Covers n a (q.accept inner) post)
    (eq : ∀ k ∈ ks, ∀ ms, p.accept inner (k :: ms) = q.accept inner (k :: ms)) :
    Covers n a (p.accept inner) post := by
  intro w rest hw hl
  obtain ⟨k, hk, v, rfl⟩ := hs w hw
  exact (eq k hk _).trans (h _ rest hw hl)

/-- The only kind that a phrase starts with decides which rule reads it. -/
lemma Covers.congr_token (hs : Starts Phrase.body n a [k]) (h : Covers n a (q.accept inner) post)
    (eq : ∀ ms, p.accept inner (k :: ms) = q.accept inner (k :: ms)) :
    Covers n a (p.accept inner) post := by
  refine h.congr hs ?_
  intro k hk
  rw [List.mem_singleton.mp hk]
  exact eq

/-- The token that a phrase starts with decides which rule reads it. -/
lemma Covers.congr_first (h : Covers n (.seq (.token k) b) (q.accept inner) post)
    (eq : ∀ ms, p.accept inner (k :: ms) = q.accept inner (k :: ms)) :
    Covers n (.seq (.token k) b) (p.accept inner) post :=
  .congr_token (starts_tokenThen (.head [])) h eq

/-- What comes after a token decides which rule reads both. -/
lemma Covers.congr_second {k : Kind} (hs : Starts Phrase.body n b ks)
    (h : Covers n (.seq (.token k) b) (q.accept inner) post)
    (eq : ∀ k' ∈ ks, ∀ ms, p.accept inner (k :: k' :: ms) = q.accept inner (k :: k' :: ms)) :
    Covers n (.seq (.token k) b) (p.accept inner) post := by
  intro w rest hw hl
  have read := h w rest hw hl
  obtain ⟨u, v, rfl, hu, hv⟩ := derives_seq.mp hw
  obtain ⟨k', hk, ms, rfl⟩ := hs v hv
  rw [derives_token.mp hu] at read ⊢
  exact (eq k' hk _).trans read

/-- A token is accepted if it is read when it is next. -/
lemma covers_token (eq : ∀ ms, accept (k :: ms) = some ms) : Covers n (.token k) accept post := by
  intro w rest hw _
  rw [derives_token.mp hw]
  exact eq rest

/-- A word is accepted where any token is. -/
lemma covers_take : Covers n (.word ks) (Rule.take.accept inner) post := by
  intro w rest hw _
  obtain ⟨k, _, rfl⟩ := derives_word.mp hw
  rfl

/-- One rule after another accepts one phrase after another, if the first one stops between them. -/
lemma Covers.seq (hp : Covers n a (p.accept inner) mid) (hb : Leads n b post mid)
    (hq : Covers n b (q.accept inner) post) :
    Covers n (.seq a b) ((Rule.seq p q).accept inner) post := by
  intro w rest hw hl
  obtain ⟨u, v, rfl, hu, hv⟩ := derives_seq.mp hw
  rw [List.append_assoc, Rule.accept_seq, hp u (v ++ rest) hu (hb v rest hv hl)]
  exact hq v rest hv hl

/-- A rule that stops whatever is next may be followed by any other. -/
lemma Covers.then (hp : Covers n a (p.accept inner) anything)
    (hq : Covers n b (q.accept inner) post) :
    Covers n (.seq a b) ((Rule.seq p q).accept inner) post :=
  hp.seq (fun _ _ _ _ => trivial) hq

/-- A word and a phrase are accepted where any token is and a rule accepts the phrase. -/
lemma Covers.takeThen (hq : Covers n b (q.accept inner) post) :
    Covers n (.seq (.word ks) b) ((Rule.seq .take q).accept inner) post :=
  .then covers_take hq

/-- A rule that accepts nothing may come after any other. -/
lemma Covers.thenEmpty (hp : Covers n a (p.accept inner) post)
    (hq : Covers n .empty (q.accept inner) post) :
    Covers n a ((Rule.seq p q).accept inner) post := by
  intro w rest hw hl
  rw [Rule.accept_seq, hp w rest hw hl]
  exact hq [] rest .empty hl

/-- A branch that is not taken accepts nothing. -/
lemma covers_branch_skip (skip : ∀ l, post l → test l = false) :
    Covers n .empty ((Rule.branch test p .skip).accept inner) post := by
  intro w rest hw hl
  rw [derives_empty.mp hw]
  exact if_neg (Bool.eq_false_iff.mp (skip _ hl))

/-- Taking a branch is decided by the next kinds, in front of a phrase or of what is behind it. -/
lemma Covers.branch (ha : Leads n a post (test · = true)) (hp : Covers n a (p.accept inner) post)
    (skip : ∀ l, post l → test l = false) :
    Covers n (.maybe a) ((Rule.branch test p .skip).accept inner) post := by
  refine .either ?_ (covers_branch_skip skip)
  intro w rest hw hl
  rw [Rule.accept_branch, if_pos (ha w rest hw hl)]
  exact hp w rest hw hl

/-! ## Loops -/

/-- A loop that does not go round accepts nothing. -/
lemma acceptWhile_stop {rest : List Kind} (stop : test (.ofKinds rest) = false) (fuel : Nat) :
    acceptWhile test accept fuel rest = some rest := by
  cases fuel with
  | zero => rfl
  | succ fuel => exact if_neg (Bool.eq_false_iff.mp stop)

/-- A loop that goes round goes on with what a turn leaves. -/
lemma acceptWhile_turn {fuel : Nat} {rest : List Kind} (pass : test (.ofKinds ks) = true)
    (read : accept ks = some rest) :
    acceptWhile test accept (fuel + 1) ks = acceptWhile test accept fuel rest := by
  rw [acceptWhile_succ, if_pos pass, read]
  rfl

/-- A loop goes round as often as a phrase is repeated, for it reads something in every turn. -/
lemma Covers.many (hn : ¬ Derives Phrase.body n a []) (hp : Covers n a (p.accept inner) mid)
    (go : Leads n a mid (test · = true)) (keep : Leads n a mid mid)
    (stop : ∀ l, post l → test l = false) (last : ∀ l, post l → mid l) :
    Covers n (.star a) ((Rule.many test p).accept inner) post := by
  intro w rest hw hl
  -- by induction on the repetition, with any fuel that is at least its length
  have turns : mid (.ofKinds (w ++ rest)) ∧ ∀ fuel, w.length ≤ fuel →
      acceptWhile test (fun ks => p.accept inner ks) fuel (w ++ rest) = some rest := by
    refine hw.star_induction (motive := fun w => mid (.ofKinds (w ++ rest)) ∧ ∀ fuel,
      w.length ≤ fuel → acceptWhile test _ fuel (w ++ rest) = some rest) ?_ ?_
    · exact ⟨last _ hl, fun fuel _ => acceptWhile_stop (stop _ hl) fuel⟩
    · intro u v hu _ ⟨behind, ih⟩
      rw [List.append_assoc]
      refine ⟨keep u _ hu behind, ?_⟩
      intro fuel enough
      have some := hu.length_pos hn
      rw [List.length_append] at enough
      obtain ⟨fuel, rfl⟩ := Nat.exists_eq_succ_of_ne_zero (by omega : fuel ≠ 0)
      rw [acceptWhile_turn (go u _ hu behind) (hp u _ hu behind)]
      exact ih fuel (by omega)
  exact turns.2 _ (by simp)

/-- A loop whose turns end by themselves ends where its test fails. -/
lemma Covers.many_free (hn : ¬ Derives Phrase.body n a [])
    (hp : Covers n a (p.accept inner) anything) (go : Leads n a anything (test · = true)) :
    Covers n (.star a) ((Rule.many test p).accept inner) (test · = false) :=
  .many hn hp go (fun _ _ _ _ => trivial) (fun _ hl => hl) fun _ _ => trivial

/-- What a rule is joined with is read after it as in a sequence. -/
lemma accept_joined_many {ls : List Kind} :
    (Rule.joined p test k (.many test q)).accept inner ls =
      (Rule.seq p (.many test q)).accept inner ls := by
  rw [Rule.accept_joined, Rule.accept_seq]
  congr 1
  funext rest
  split
  · rfl
  · exact (acceptWhile_stop (Bool.eq_false_iff.mpr ‹_›) rest.length).symm

end Grammar

end TypeqlAssist
