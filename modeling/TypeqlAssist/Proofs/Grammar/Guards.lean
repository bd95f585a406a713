import TypeqlAssist.Proofs.Grammar.Reading

/-!
# Guards of rules

A rule takes tokens without looking at them, so what its nodes hold depends on what stands in
front of it. `Ensures` says what a reader does in front of a lookahead: `Places` that all its nodes
are seated, `Fills` that there is a node, `Consumes` that a token is gone. Each comes with one lemma
for every way to build a rule.

A loop whose turns consume never runs out of fuel: one turn can be split off (`Consumes.many_eq`),
there is an induction along the turns (`Consumes.turn_induction`), and the loop ends where its test
fails (`Consumes.many_stops`).
-/

namespace TypeqlAssist

namespace Kind

/-- The production that a keyword opens: a stage, or a query about the schema. -/
def opened? : Kind → Option Kind
  | kwMatch => some clauseMatch
  | kwInsert => some clauseInsert
  | kwDelete => some clauseDelete
  | kwUpdate => some clauseUpdate
  | kwPut => some clausePut
  | kwSelect => some stageSelect
  | kwSort => some stageSort
  | kwLimit => some stageLimit
  | kwOffset => some stageOffset
  | kwReduce => some stageReduce
  | kwDefine | kwRedefine | kwUndefine => some querySchema
  | _ => none

/-- The production starts with a keyword of its own. -/
def isOpened : Kind → Bool
  | clauseMatch | clauseInsert | clauseDelete | clauseUpdate | clausePut
  | stageSelect | stageSort | stageLimit | stageOffset | stageReduce | querySchema => true
  | _ => false

/-- The kind of a token that may stand anywhere in a production. -/
def isPlain (k : Kind) : Bool :=
  !k.isError && k.opened?.isNone

/-- A plain kind is no error and opens nothing. -/
lemma isPlain_iff {k : Kind} : k.isPlain = true ↔ k ≠ .error ∧ k.opened? = none := by
  cases k <;> decide

end Kind

namespace Grammar

open TypeqlAssist.Tree

/-! ## Well-placed nodes -/

/--
A node is well placed if it is a token with a width that is no error, an error node over tokens
that has no width where it has none, or a production over at least one well-placed node.
-/
inductive Placed : Tree → Prop where
  | token {t : Token} :
    t.kind ≠ .error →
    t.start < t.stop →
    Placed (leaf t)
  | fault {a b} {ts : List Token} :
    (∀ t ∈ ts, t.start < t.stop) →
    (ts = [] → a = b) →
    Placed (node .error a b (ts.map leaf))
  | production {k a b cs} :
    k ≠ .error →
    cs ≠ [] →
    (∀ c ∈ cs, Placed c) →
    Placed (node k a b cs)

/--
A node is seated if it is well placed, no error node wraps a keyword that opens a production, and
such keywords stand at the start of the productions they open and nowhere else.
-/
inductive Seated : Tree → Prop where
  | token {t : Token} :
    t.kind.isPlain = true →
    t.start < t.stop →
    Seated (leaf t)
  | fault {a b} {ts : List Token} :
    (∀ t ∈ ts, t.start < t.stop ∧ t.kind.opened? = none) →
    (ts = [] → a = b) →
    Seated (node .error a b (ts.map leaf))
  | production {k a b cs} :
    k ≠ .error ∧ k.isOpened = false →
    cs ≠ [] →
    (∀ c ∈ cs, Seated c) →
    Seated (node k a b cs)
  | opened {k a b cs} {t : Token} :
    t.kind.opened? = some k →
    t.start < t.stop →
    (∀ c ∈ cs, Seated c) →
    Seated (node k a b (leaf t :: cs))

/-- A keyword opens a production, and is no error. -/
lemma ne_error_of_opened {k k' : Kind} (h : k.opened? = some k') : k ≠ .error ∧ k' ≠ .error := by
  cases k <;> cases h <;> decide

/-- What is seated is well placed. -/
lemma Seated.placed {n : Tree} (h : Seated n) : Placed n := by
  induction h with
  | token plain width => exact .token (Kind.isPlain_iff.mp plain).1 width
  | fault plain flat => exact .fault (fun t ht => (plain t ht).1) flat
  | production hk some _ ih => exact .production hk.1 some ih
  | @opened k a b cs t ho width _ ih =>
    obtain ⟨ht, hk⟩ := ne_error_of_opened ho
    refine .production hk (List.cons_ne_nil _ _) ?_
    exact List.forall_mem_cons.mpr ⟨.token ht width, ih⟩

/-! ## Lookahead -/

/-- A condition on the kinds of the next two tokens. -/
abbrev Front := Lookahead → Prop

/-- No condition. -/
def anything : Front :=
  fun _ => True

/-- Where a condition holds, another one does. -/
def Tells (pre post : Front) : Prop :=
  ∀ l, pre l → post l

/-- Tokens that satisfy a condition start with one of a kind with a property. -/
def Opens (A : Kind → Bool) (pre : Front) : Prop :=
  Tells pre fun l => ∃ k, l.first = some k ∧ A k = true

/-- Tokens that satisfy a condition do not start with a keyword that opens a production. -/
def Avoids (pre : Front) : Prop :=
  Tells pre fun l => ∀ k, l.first = some k → k.opened? = none

/-- What a condition still says when the next token is gone. -/
def After (pre : Front) : Front :=
  fun l => ∃ first, pre ⟨first, l.first⟩

variable {pre pre' post : Front} {k : Kind} {p A : Kind → Bool}

/-- A stronger condition tells as much. -/
lemma Tells.mono (h : Tells pre post) (imp : Tells pre' pre) : Tells pre' post :=
  fun l hl => h l (imp l hl)

/-- A condition tells what its first part does. -/
lemma Tells.left (h : Tells pre post) : Tells (fun l => pre l ∧ pre' l) post :=
  h.mono fun _ hl => hl.1

/-- A condition tells what its second part does. -/
lemma Tells.right (h : Tells pre post) : Tells (fun l => pre' l ∧ pre l) post :=
  h.mono fun _ hl => hl.2

/-- The same holds behind the next token. -/
lemma Tells.after_right (h : Tells (After pre) post) :
    Tells (After fun l => pre' l ∧ pre l) post :=
  h.mono fun _ ⟨first, hl⟩ => ⟨first, hl.2⟩

/-- The next token has a property if there is one and its kind has it. -/
lemma nextIs_iff {l : Lookahead} : nextIs p l = true ↔ ∃ k, l.first = some k ∧ p k = true := by
  obtain ⟨first, second⟩ := l
  cases first <;> simp [nextIs]

/-- A test for kinds opens with a property that all of them have. -/
lemma opens_nextIs (hp : ∀ k, p k = true → A k = true) : Opens A (nextIs p · = true) := by
  intro l hl
  obtain ⟨k, e, hk⟩ := nextIs_iff.mp hl
  exact ⟨k, e, hp k hk⟩

/-- A test for one of some kinds opens with a property that all of them have. -/
lemma opens_oneOf {ks : List Kind} (h : ∀ k ∈ ks, A k = true) :
    Opens A (nextIs (oneOf ks) · = true) :=
  opens_nextIs fun k hk => h k (List.contains_iff_mem.mp hk)

/-- A test for a kind opens with any property of the kind. -/
lemma opens_next (hk : A k = true) : Opens A (next k · = true) := by
  intro l hl
  exact ⟨k, eq_of_beq hl, hk⟩

/-- A test for a kind and its successor opens with any property of the kind. -/
lemma opens_nextThen (hk : A k = true) : Opens A (nextThen k p · = true) := by
  intro l hl
  obtain ⟨hl, _⟩ := Bool.and_eq_true_iff.mp hl
  exact ⟨k, eq_of_beq hl, hk⟩

/-- Behind a kind comes one with the property that its successor was asked for. -/
lemma opens_after_nextThen {k' : Kind} (hk : A k' = true) :
    Opens A (After (nextThen k (· == k') · = true)) := by
  rintro l ⟨first, hl⟩
  obtain ⟨_, hl⟩ := Bool.and_eq_true_iff.mp hl
  exact opens_nextIs (fun k e => eq_of_beq e ▸ hk) l hl

/-- A condition that opens leaves a token to read. -/
lemma Opens.exists_cons {ts : List Token} (h : Opens A pre) (hl : pre (.of ts)) :
    ∃ t us, ts = t :: us ∧ A t.kind = true := by
  obtain ⟨k, e, hk⟩ := h _ hl
  cases ts with
  | nil => cases e
  | cons t us => cases e; exact ⟨t, us, rfl, hk⟩

/-- A test for kinds that open nothing avoids the keywords of productions. -/
lemma avoids_nextIs (hp : ∀ k, p k = true → k.opened? = none) : Avoids (nextIs p · = true) := by
  intro l hl k e
  obtain ⟨k', e', hk⟩ := nextIs_iff.mp hl
  cases e.symm.trans e'
  exact hp k hk

/-- A condition that opens with a plain token avoids the keywords of productions. -/
lemma Opens.avoids (h : Opens Kind.isPlain pre) : Avoids pre := by
  intro l hl k e
  obtain ⟨k', e', hk⟩ := h l hl
  cases e.symm.trans e'
  exact (Kind.isPlain_iff.mp hk).2

/-- Recovery stops in front of every keyword that opens a production. -/
lemma opened?_of_isRecoveryPoint (h : isRecoveryPoint k = false) : k.opened? = none := by
  cases k <;> first | rfl | cases h

/-- Where recovery goes on, no keyword opens a production. -/
lemma avoids_recovery : Avoids (nextIs (!isRecoveryPoint ·) · = true) :=
  avoids_nextIs fun _ hk => opened?_of_isRecoveryPoint (Bool.not_eq_true' _ ▸ hk)

/-! ## What is left -/

/-- An error node takes tokens from the front. -/
lemma wrapped_suffix (eof : Nat) (cause : Cause) (n : Nat) (ts : List Token) :
    (wrapped eof cause n ts).rest <:+ ts :=
  List.drop_suffix n ts

variable {eof : Nat} {inner : Symbol → List Token → Parsed}

/-- Repeated reading takes tokens from the front if each turn does. -/
lemma repeatWhile_suffix {test : Test} {read : List Token → Parsed}
    (h : ∀ ts, (read ts).rest <:+ ts) (fuel : Nat) (ts : List Token) :
    (repeatWhile test read fuel ts).rest <:+ ts := by
  refine repeatWhile_induction (motive := fun ts a => a.rest <:+ ts) List.suffix_refl ?_ fuel ts
  intro ts others _ ho
  exact ho.trans (h ts)

/-- Every step of reading takes tokens from the front. -/
lemma suffix_kept (eof : Nat) : Kept eof (fun _ => True) fun ts a => a.rest <:+ ts where
  nothing := List.suffix_refl
  leaf := List.suffix_cons
  absent _ := List.suffix_refl
  wrapped _ _ _ := wrapped_suffix ..
  followedBy first second := second.trans first
  enclosed _ inside := inside

/-- What a rule leaves is the end of the tokens. -/
lemma Rule.run_suffix (eof : Nat) (hi : ∀ s ts, (inner s ts).rest <:+ ts) (r : Rule)
    (ts : List Token) : (r.run eof inner ts).rest <:+ ts :=
  Rule.run_kept (suffix_kept eof) hi (fun _ _ => trivial) ts

/-- What a symbol leaves is the end of the tokens, with any number of levels left. -/
lemma runSymbol_suffix (definition : Symbol → Rule) (levels : Nat) (s : Symbol) (ts : List Token) :
    (runSymbol definition eof levels s ts).rest <:+ ts :=
  runSymbol_kept (suffix_kept eof) (fun _ _ _ => trivial) levels s ts

/-! ## What a reader ensures -/

/-- In front of tokens that satisfy a condition, `R` holds between them and what is read. -/
def Ensures (pre : Front) (R : List Token → Parsed → Prop) (read : List Token → Parsed) : Prop :=
  ∀ ts, pre (.of ts) → R ts (read ts)

variable {p q : Rule} {test : Test} {read : List Token → Parsed} {R : List Token → Parsed → Prop}

/-- A stronger condition is enough. -/
lemma Ensures.mono (h : Ensures pre R read) (imp : Tells pre' pre) : Ensures pre' R read :=
  fun ts hl => h ts (imp _ hl)

/-- What is ensured under no condition is ensured under any. -/
lemma Ensures.of_anything (h : Ensures anything R read) : Ensures pre R read :=
  h.mono fun _ _ => trivial

/-- A branch ensures what its rules do, each in front of what leads to it. -/
lemma Ensures.branch (hp : Ensures (fun l => pre l ∧ test l = true) R (p.run eof inner))
    (hq : Ensures (fun l => pre l ∧ test l = false) R (q.run eof inner)) :
    Ensures pre R ((Rule.branch test p q).run eof inner) := by
  intro ts hl
  rw [Rule.run]
  split
  next pass => exact hp ts ⟨hl, pass⟩
  next fail => exact hq ts ⟨hl, Bool.eq_false_iff.mpr fail⟩

/-! ## Placing -/

/--
In front of tokens that satisfy a condition, only seated nodes are made of tokens with a width.
-/
def Places (pre : Front) : (List Token → Parsed) → Prop :=
  Ensures pre fun ts a => (∀ t ∈ ts, t.start < t.stop) → ∀ n ∈ a.nodes, Seated n

/-- In front of tokens that satisfy a condition, a node is made. -/
def Fills (pre : Front) : (List Token → Parsed) → Prop :=
  Ensures pre fun _ a => a.nodes ≠ []

/-- Where nothing is read, no node is out of place. -/
lemma places_skip : Places pre (Rule.skip.run eof inner) :=
  fun _ _ _ _ m => nomatch m

/-- A token may be taken where it is plain. -/
lemma places_take (h : Opens Kind.isPlain pre) : Places pre (Rule.take.run eof inner) := by
  intro ts hl width n m
  obtain ⟨t, us, rfl, hk⟩ := h.exists_cons hl
  cases List.mem_singleton.mp m
  exact .token hk (width t (.head us))

/-- A token that is taken leaves its leaf. -/
lemma fills_take (h : Opens A pre) : Fills pre (Rule.take.run eof inner) := by
  intro ts hl
  obtain ⟨t, us, rfl, _⟩ := h.exists_cons hl
  exact nofun

/-- A gap may stand anywhere. -/
lemma places_missing {wanted : Wanted} : Places pre ((Rule.missing wanted).run eof inner) := by
  intro ts _ _ n m
  cases List.mem_singleton.mp m
  exact @Seated.fault _ _ [] nofun fun _ => rfl

/-- A gap is a node. -/
lemma fills_missing {wanted : Wanted} : Fills pre ((Rule.missing wanted).run eof inner) :=
  fun _ _ => nofun

/-- Wrapped tokens are seated if none of them is a keyword that opens a production. -/
lemma seated_wrapped {cause : Cause} {n : Nat} {ts : List Token}
    (width : ∀ t ∈ ts, t.start < t.stop) (plain : ∀ t ∈ ts.take n, t.kind.opened? = none) :
    ∀ m ∈ (wrapped eof cause n ts).nodes, Seated m := by
  intro m hm
  cases List.mem_singleton.mp hm
  obtain ⟨b, e⟩ := enclosed_eq eof .error (offsetOf eof ts) ((ts.take n).map leaf) (ts.drop n)
  rw [e]
  refine .fault (fun t ht => ⟨width t (List.mem_of_mem_take ht), plain t ht⟩) ?_
  intro none
  have all := List.take_append_drop n ts
  rw [none, List.nil_append] at all
  rw [none, all, List.map_nil, enclosed_nil (fun nil => by rw [nil]; rfl)] at e
  injection e with _ e1 e2
  rw [none, ← e2]
  rfl

/-- Recovery through a stop wraps no keyword that opens a production. -/
lemma opened?_take_lengthThroughStop (ts : List Token) :
    ∀ t ∈ ts.take (lengthThroughStop ts), t.kind.opened? = none := by
  induction ts with
  | nil => exact nofun
  | cons u us ih =>
    rw [lengthThroughStop]
    split
    · exact nofun
    next other =>
      have hu := opened?_of_isRecoveryPoint (Bool.eq_false_iff.mpr other)
      split
      · exact List.forall_mem_cons.mpr ⟨hu, nofun⟩
      · exact List.forall_mem_cons.mpr ⟨hu, ih⟩

/-- Recovery up to a stop wraps no keyword that opens a production. -/
lemma opened?_take_lengthBeforeStop (ts : List Token) :
    ∀ t ∈ ts.take (lengthBeforeStop ts), t.kind.opened? = none := by
  induction ts with
  | nil => exact nofun
  | cons u us ih =>
    rw [lengthBeforeStop]
    split
    · exact nofun
    next other =>
      rw [Bool.or_eq_true, not_or] at other
      have hu := opened?_of_isRecoveryPoint (Bool.eq_false_iff.mpr other.2)
      exact List.forall_mem_cons.mpr ⟨hu, ih⟩

/-- A token that opens nothing may be a stray. -/
lemma places_stray (h : Avoids pre) : Places pre (Rule.stray.run eof inner) := by
  intro ts hl width
  cases ts with
  | nil => exact fun _ m => nomatch m
  | cons t ts => exact seated_wrapped width (List.forall_mem_cons.mpr ⟨h _ hl _ rfl, nofun⟩)

/-- Recovery may start at a token that opens nothing. -/
lemma places_recover (h : Avoids pre) : Places pre (Rule.recover.run eof inner) := by
  intro ts hl width
  cases ts with
  | nil => exact fun _ m => nomatch m
  | cons t ts =>
    refine seated_wrapped width ?_
    rw [recoveryLength]
    split
    · exact List.forall_mem_cons.mpr ⟨h _ hl _ rfl, nofun⟩
    · exact List.forall_mem_cons.mpr ⟨h _ hl _ rfl, opened?_take_lengthThroughStop ts⟩

/-- Recovery leaves an error node where there is a token. -/
lemma fills_recover (h : Opens A pre) : Fills pre (Rule.recover.run eof inner) := by
  intro ts hl
  obtain ⟨t, us, rfl, _⟩ := h.exists_cons hl
  exact nofun

section

variable (hi : ∀ s ts, (inner s ts).rest <:+ ts)
include hi

/-- One rule after another places well if the second one does whatever is next. -/
lemma Places.seq (hp : Places pre (p.run eof inner)) (hq : Places anything (q.run eof inner)) :
    Places pre ((Rule.seq p q).run eof inner) := by
  intro ts hl width n m
  rcases List.mem_append.mp m with m | m
  · exact hp ts hl width n m
  · have rest := (p.run_suffix eof hi ts).subset
    exact hq _ trivial (fun t ht => width t (rest ht)) n m

/-- A rule that is read again and again places well if it does in front of what passes the test. -/
lemma Places.many (hp : Places (test · = true) (p.run eof inner)) :
    Places pre ((Rule.many test p).run eof inner) := by
  intro ts _ width
  refine repeatWhile_induction
    (motive := fun ts a => (∀ t ∈ ts, t.start < t.stop) → ∀ n ∈ a.nodes, Seated n)
    (fun _ _ => nofun) ?_ _ ts width
  intro ts others pass ho width n m
  have rest := (p.run_suffix eof hi ts).subset
  rcases List.mem_append.mp m with m | m
  · exact hp ts pass width n m
  · exact ho (fun t ht => width t (rest ht)) n m

/-- A node over one rule, or over two, places well if the rules do. -/
lemma Places.joined (hk : k ≠ .error ∧ k.isOpened = false) (hp : Places pre (p.run eof inner))
    (hf : Fills pre (p.run eof inner)) (hq : Places (test · = true) (q.run eof inner)) :
    Places pre ((Rule.joined p test k q).run eof inner) := by
  intro ts hl width
  simp only [Rule.run]
  split
  next pass =>
    intro n m
    cases List.mem_singleton.mp m
    refine .production hk ?_ ?_
    · exact fun empty => hf ts hl (List.append_eq_nil_iff.mp empty).1
    · intro c hc
      have rest := (p.run_suffix eof hi ts).subset
      rcases List.mem_append.mp hc with hc | hc
      · exact hp ts hl width c hc
      · exact hq _ pass (fun t ht => width t (rest ht)) c hc
  next => exact hp ts hl width

end

/-- Behind a plain token, a rule needs to place well only where its test was passed with it. -/
lemma Places.takeThen (h : Opens Kind.isPlain pre) (hq : Places (After pre) (q.run eof inner)) :
    Places pre ((Rule.seq .take q).run eof inner) := by
  intro ts hl width n m
  obtain ⟨t, us, rfl, hk⟩ := h.exists_cons hl
  rcases List.mem_cons.mp m with rfl | m
  · exact .token hk (width t (.head us))
  · exact hq us ⟨_, hl⟩ (fun u hu => width u (.tail t hu)) n m

/-- A branch places well if each rule does in front of what leads to it. -/
lemma Places.branch (hp : Places (fun l => pre l ∧ test l = true) (p.run eof inner))
    (hq : Places (fun l => pre l ∧ test l = false) (q.run eof inner)) :
    Places pre ((Rule.branch test p q).run eof inner) :=
  Ensures.branch hp hq

/-- A production is seated around seated nodes if there is one. -/
lemma Places.node (hk : k ≠ .error ∧ k.isOpened = false) (hp : Places pre (p.run eof inner))
    (hf : Fills pre (p.run eof inner)) : Places pre ((Rule.node k p).run eof inner) := by
  intro ts hl width n m
  cases List.mem_singleton.mp m
  exact .production hk (hf ts hl) (hp ts hl width)

/-- A production with a keyword of its own may stand where that is next. -/
lemma Places.opened (h : Opens (·.opened? == some k) pre)
    (hq : Places (After pre) (q.run eof inner)) :
    Places pre ((Rule.node k (.seq .take q)).run eof inner) := by
  intro ts hl width n m
  cases List.mem_singleton.mp m
  obtain ⟨t, us, rfl, hk⟩ := h.exists_cons hl
  exact .opened (eq_of_beq hk) (width t (.head us))
    (hq us ⟨_, hl⟩ fun u hu => width u (.tail t hu))

/-- A production is a node. -/
lemma fills_node : Fills pre ((Rule.node k p).run eof inner) :=
  fun _ _ => nofun

/-- The nodes of the first of two rules are nodes of both. -/
lemma Fills.seq_left (hp : Fills pre (p.run eof inner)) :
    Fills pre ((Rule.seq p q).run eof inner) :=
  fun ts hl empty => hp ts hl (List.append_eq_nil_iff.mp empty).1

/-- The nodes of the second of two rules are nodes of both. -/
lemma Fills.seq_right (hq : Fills anything (q.run eof inner)) :
    Fills pre ((Rule.seq p q).run eof inner) :=
  fun _ _ empty => hq _ trivial (List.append_eq_nil_iff.mp empty).2

/-- A branch makes a node if each rule does in front of what leads to it. -/
lemma Fills.branch (hp : Fills (fun l => pre l ∧ test l = true) (p.run eof inner))
    (hq : Fills (fun l => pre l ∧ test l = false) (q.run eof inner)) :
    Fills pre ((Rule.branch test p q).run eof inner) :=
  Ensures.branch hp hq

/-- A rule that is read at least once makes a node if it does the first time. -/
lemma Fills.many (ht : ∀ l, pre l → test l = true) (hpre : Opens A pre)
    (hp : Fills pre (p.run eof inner)) : Fills pre ((Rule.many test p).run eof inner) := by
  intro ts hl
  obtain ⟨t, us, rfl, _⟩ := hpre.exists_cons hl
  rw [Rule.run_many_turn (ht _ hl)]
  exact fun empty => hp _ hl (List.append_eq_nil_iff.mp empty).1

/-! ## Progress -/

/-- In front of tokens that satisfy a condition, at least one is read. -/
def Consumes (pre : Front) : (List Token → Parsed) → Prop :=
  Ensures pre fun ts a => a.rest.length < ts.length

/-- A token that is taken is gone. -/
lemma consumes_take (h : Opens A pre) : Consumes pre (Rule.take.run eof inner) := by
  intro ts hl
  obtain ⟨t, us, rfl, _⟩ := h.exists_cons hl
  exact Nat.lt_succ_self _

/-- Recovery reads the next token in any case. -/
lemma consumes_recover (h : Opens A pre) : Consumes pre (Rule.recover.run eof inner) := by
  intro ts hl
  obtain ⟨t, us, rfl, _⟩ := h.exists_cons hl
  have pos : 0 < recoveryLength (t :: us) := by
    rw [recoveryLength]
    split <;> exact Nat.succ_pos _
  simp only [Rule.run, wrapped, List.length_drop, List.length_cons]
  omega

/-- A stray token is read. -/
lemma consumes_stray (h : Opens A pre) : Consumes pre (Rule.stray.run eof inner) := by
  intro ts hl
  obtain ⟨t, us, rfl, _⟩ := h.exists_cons hl
  exact Nat.lt_succ_self _

/-- A production reads what its rule does. -/
lemma Consumes.node (hp : Consumes pre (p.run eof inner)) :
    Consumes pre ((Rule.node k p).run eof inner) :=
  hp

/-- A branch reads a token if each rule does in front of what leads to it. -/
lemma Consumes.branch (hp : Consumes (fun l => pre l ∧ test l = true) (p.run eof inner))
    (hq : Consumes (fun l => pre l ∧ test l = false) (q.run eof inner)) :
    Consumes pre ((Rule.branch test p q).run eof inner) :=
  Ensures.branch hp hq

/-- What the first of two rules reads, the second one does not bring back. -/
lemma Consumes.seq_left (hi : ∀ s ts, (inner s ts).rest <:+ ts)
    (hp : Consumes pre (p.run eof inner)) : Consumes pre ((Rule.seq p q).run eof inner) :=
  fun ts hl => Nat.lt_of_le_of_lt (q.run_suffix eof hi _).length_le (hp ts hl)

/-- Whatever is read first, nothing or a token, a token is gone after the second rule. -/
lemma Consumes.seq_right (hi : ∀ s ts, (inner s ts).rest <:+ ts)
    (hq : Consumes pre (q.run eof inner)) : Consumes pre ((Rule.seq p q).run eof inner) := by
  intro ts hl
  have first := p.run_suffix eof hi ts
  have second := (q.run_suffix eof hi (p.run eof inner ts).rest).length_le
  rcases Nat.lt_or_ge (p.run eof inner ts).rest.length ts.length with less | ge
  · exact Nat.lt_of_le_of_lt second less
  · have same := hq ts hl
    rw [← first.eq_of_length_le ge] at same
    exact Nat.lt_of_lt_of_le same first.length_le

/-- A rule that is read at least once reads a token if it does the first time. -/
lemma Consumes.many (hi : ∀ s ts, (inner s ts).rest <:+ ts) (ht : ∀ l, pre l → test l = true)
    (hpre : Opens A pre) (hp : Consumes pre (p.run eof inner)) :
    Consumes pre ((Rule.many test p).run eof inner) := by
  intro ts hl
  obtain ⟨t, us, rfl, _⟩ := hpre.exists_cons hl
  rw [Rule.run_many_turn (ht _ hl)]
  exact Nat.lt_of_le_of_lt (repeatWhile_suffix (p.run_suffix eof hi) _ _).length_le (hp _ hl)

/-! ## One turn of a loop -/

/-- One unit of fuel for each token is enough, if each turn reads one. -/
lemma repeatWhile_fuel {read : List Token → Parsed} (h : Consumes (test · = true) read)
    {fuel fuel' : Nat} {ts : List Token} (le : ts.length ≤ fuel) (le' : ts.length ≤ fuel') :
    repeatWhile test read fuel ts = repeatWhile test read fuel' ts := by
  have none : test (.of []) = false := by
    by_contra pass
    exact Nat.not_lt_zero _ (h [] (eq_true_of_ne_false pass))
  induction fuel generalizing fuel' ts with
  | zero =>
    cases List.length_eq_zero_iff.mp (Nat.le_zero.mp le)
    cases fuel' with
    | zero => rfl
    | succ fuel' => rw [repeatWhile, repeatWhile, none]; rfl
  | succ fuel ih =>
    cases fuel' with
    | zero =>
      cases List.length_eq_zero_iff.mp (Nat.le_zero.mp le')
      rw [repeatWhile, repeatWhile, none]
      rfl
    | succ fuel' =>
      rw [repeatWhile, repeatWhile]
      split
      next pass =>
        have less := h ts pass
        exact congrArg (Parsed.followedBy _) (ih (by omega) (by omega))
      next => rfl

/-- A loop takes no turn where its test fails. -/
lemma Rule.many_stop {ts : List Token} (h : test (.of ts) = false) :
    (many test p).run eof inner ts = ⟨[], [], ts⟩ := by
  rw [run]
  cases ts with
  | nil => rfl
  | cons t ts => rw [List.length_cons, repeatWhile, h]; rfl

/-- A loop takes its first turn and goes on with what that leaves. -/
lemma Consumes.many_eq (h : Consumes (test · = true) (p.run eof inner)) {ts : List Token}
    (pass : test (.of ts) = true) :
    (Rule.many test p).run eof inner ts =
      (p.run eof inner ts).followedBy
        ((Rule.many test p).run eof inner (p.run eof inner ts).rest) := by
  have less := h ts pass
  cases ts with
  | nil => cases less
  | cons t ts =>
    rw [Rule.run_many_turn pass, Rule.run]
    refine congrArg (Parsed.followedBy _) ?_
    exact repeatWhile_fuel h (Nat.le_of_lt_succ less) (Nat.le_refl _)

/-- Induction along the turns of a loop: each leaves fewer tokens to the next one. -/
@[elab_as_elim]
lemma Consumes.turn_induction {motive : List Token → Prop} (h : Consumes (test · = true) read)
    (turn : ∀ ts, (test (.of ts) = true → motive (read ts).rest) → motive ts) (ts : List Token) :
    motive ts := by
  induction n : ts.length using Nat.strongRecOn generalizing ts with
  | ind n ih =>
    subst n
    exact turn ts fun pass => ih _ (h ts pass) _ rfl

/-- A loop whose every turn reads a token ends in front of tokens that fail its test. -/
lemma Consumes.many_stops (hp : Consumes (test · = true) (p.run eof inner)) (ts : List Token) :
    test (.of ((Rule.many test p).run eof inner ts).rest) = false := by
  induction ts using hp.turn_induction with
  | turn ts again =>
    cases pass : test (.of ts) with
    | false => rwa [Rule.many_stop pass]
    | true =>
      rw [hp.many_eq pass]
      exact again pass

end Grammar

end TypeqlAssist
