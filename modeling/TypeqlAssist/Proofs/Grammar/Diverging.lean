import TypeqlAssist.Proofs.Grammar.Hosts

/-!
# Where two readings part

Tokens are read alone, and with a label behind them. Both readings go on together as long as another
token is left in front of the label. They part at the end of the input: either a production that
takes strays holds the label at its end in one of them and lacks it in the other (`Behind`), or no
production that takes strays holds the label as a stray (`Clear`). `Rule.run_twins` brings this from
the productions that take strays to all rules around them.
-/

namespace TypeqlAssist

/-- What may stand in front of a stray word, with all that belongs to it. -/
def Kind.precedesStray : Kind → Bool
  | var | label | comma | numberLiteral | stringLiteral | typeRef | typeConstraint | relation =>
    true
  | _ => false

namespace Grammar

open TypeqlAssist.Tree

/-! ## Trees without the stray word -/

/-- The error node of a stray word at the end of a document. -/
def strayOf (u : Token) : Tree :=
  node .error u.start u.stop [leaf u]

/-- No production that takes strays has the word as one. -/
abbrev Clear (u : Token) (ns : List Tree) : Prop :=
  Hosts (strayOf u ∉ ·) ns

variable {u : Token} {ns : List Tree} {k : Kind} {lo hi eof : Nat} {ts rest : List Token}

/-- What stands elsewhere than the word is clear of it, and is not the stray word. -/
lemma Clear.of_laid (laid : Laid (fun _ => True) lo ns hi) (width : u.start < u.stop)
    (apart : hi ≤ u.start ∨ u.stop ≤ lo) : Clear u ns ∧ strayOf u ∉ ns := by
  refine ⟨fun n hn _ hc => ?_, fun hc => ?_⟩
  · obtain ⟨first, last, _, _, inner⟩ := laid.of_mem_preorder hn
    obtain ⟨start, stop, _⟩ := inner.of_mem hc
    simp only [strayOf, start_node, stop_node] at start stop
    omega
  · obtain ⟨start, stop, _⟩ := laid.of_mem hc
    simp only [strayOf, start_node, stop_node] at start stop
    omega

/-- A rule whose nodes are not stretched makes no stray word. -/
lemma Clear.of_innerKinds (h : InnerKinds (isOpenEnded · = false) ns) :
    Clear u ns ∧ strayOf u ∉ ns := by
  refine ⟨Hosts.of_innerKinds h List.not_mem_nil, fun hc => ?_⟩
  cases h _ (mem_preorderAll_of_mem hc (.head _)) (List.cons_ne_nil _ _)

/-! ## Productions that hold the stray word -/

/--
What a production holds without the stray word, and what it holds in front of it. Both end with a
wrapped word, with a relation that is not closed, with a keyword that lacks its relation, or with
something that is complete in front of the word.
-/
inductive Leaves (u : Token) : List Tree → List Tree → Prop where
  | word {xs e e'} :
    e.kind = .error →
    e'.kind = .error →
    e'.start < e'.stop →
    e'.start = e.start →
    Leaves u (xs ++ [e]) (xs ++ [e'])
  | relation {xs n} :
    n.kind = .relation →
    n.children.getLast?.map kind ≠ some .rparen →
    Leaves u (xs ++ [n]) (xs ++ [n])
  | links {xs e} {t : Token} :
    t.kind = .kwLinks →
    t.stop < u.start →
    e.kind = .error →
    u.start ≤ e.start →
    Leaves u (xs ++ [leaf t, e]) (xs ++ [leaf t, e])
  | complete {xs n zs} :
    n.kind.precedesStray = true →
    n.stop < u.start →
    (∀ z ∈ zs, z.kind = .error ∧ u.start ≤ z.start) →
    Leaves u (xs ++ n :: zs) (xs ++ [n])

/-- What stands in front of two ends that part is the same. -/
lemma Leaves.append {xs ys : List Tree} (h : Leaves u xs ys) (ns : List Tree) :
    Leaves u (ns ++ xs) (ns ++ ys) := by
  cases h with
  | word he he' width start =>
    rw [← List.append_assoc, ← List.append_assoc]
    exact .word he he' width start
  | relation hn last =>
    rw [← List.append_assoc]
    exact .relation hn last
  | links ht stop he start =>
    rw [← List.append_assoc]
    exact .links ht stop he start
  | complete hn stop hz =>
    rw [← List.append_assoc, ← List.append_assoc]
    exact .complete hn stop hz

/-- Both start at the same offset. -/
lemma Leaves.head {xs ys : List Tree} (h : Leaves u xs ys) :
    ∃ n, xs.head?.map Tree.start = some n ∧ ys.head?.map Tree.start = some n := by
  cases h with
  | @word xs _ _ _ _ _ start =>
    cases xs with
    | nil => exact ⟨_, rfl, congrArg some start⟩
    | cons x xs => exact ⟨_, rfl, rfl⟩
  | @relation xs | @links xs | @complete xs => cases xs <;> exact ⟨_, rfl, rfl⟩

/-- A production that reaches to the end of its document, without the stray word and with it. -/
structure Strays (u : Token) (g h : Tree) : Prop where
  kind : h.kind = g.kind
  takes : g.kind.takesStrays = true
  start : h.start = g.start
  stops : g.stop = u.start
  children : ∃ xs, h.children = xs ++ [strayOf u] ∧ Leaves u g.children xs

/-- Two trees that differ at the end, where one holds the stray word. -/
inductive Follows (u : Token) : Tree → Tree → Prop where
  | here {g h} :
    Strays u g h →
    Follows u g h
  | inside {k a b b' xs g h ys zs} :
    Follows u g h →
    (∀ y ∈ ys, u.start ≤ y.start) →
    (∀ z ∈ zs, u.stop ≤ z.start) →
    Follows u (node k a b (xs ++ g :: ys)) (node k a b' (xs ++ h :: zs))

/-- Both trees start at the same offset. -/
lemma Follows.start_eq {g h : Tree} (f : Follows u g h) : h.start = g.start := by
  cases f with
  | here strays => exact strays.start
  | inside => rfl

/-- Two readings of all tokens that differ where one holds the stray word. -/
structure Behind (u : Token) (a b : Parsed) : Prop where
  rest : a.rest = []
  rest' : b.rest = []
  nodes : ∃ xs g h ys zs, a.nodes = xs ++ g :: ys ∧ b.nodes = xs ++ h :: zs ∧ Follows u g h ∧
    (∀ y ∈ ys, u.start ≤ y.start) ∧ ∀ z ∈ zs, u.stop ≤ z.start

/-! ## Two readings -/

/-- Tokens in order, in front of a word that stands behind a gap. -/
structure InFront (u : Token) (ts : List Token) : Prop where
  spaced : Spaced (fun _ => True) u.start (offsetOf u.start ts) ts
  whole : Spaced (fun _ => True) u.stop (offsetOf u.stop (ts ++ [u])) (ts ++ [u])
  gap : ∀ t ∈ ts, t.stop < u.start

/-- What is read of the same tokens, alone and with a word behind them. -/
inductive Outcome (u : Token) (a b : Parsed) : Prop where
  /-- A token is left, and the same was read. -/
  | same :
    a.rest ≠ [] →
    b = a.before [u] →
    Outcome u a b
  | behind :
    Behind u a b →
    Outcome u a b
  | clear :
    Clear u b.nodes →
    b.rest <:+ [u] →
    Outcome u a b

/-- A way to read tokens that keeps them in order. -/
def Reads (eof : Nat) (read : List Token → Parsed) : Prop :=
  ∀ ts, Spaced (fun _ => True) eof (offsetOf eof ts) ts → Reading (fun _ => True) eof ts (read ts)

/-- Two ways to read tokens, one with a word behind them. -/
structure Twins (u : Token) (read read' : List Token → Parsed) : Prop where
  alone : Clear u (read' [u]).nodes
  outcome : ∀ ts, InFront u ts → ts ≠ [] → Outcome u (read ts) (read' (ts ++ [u]))

variable {a b c d : Parsed} {read read' : List Token → Parsed}

/-- At the end of the input, nothing is left, and what is noted stands there. -/
lemma Reading.at_end (h : Reading (fun _ => True) eof [] a) :
    a.rest = [] ∧ Laid (fun _ => True) eof a.nodes eof := by
  have rest : a.rest = [] := (List.append_eq_nil_iff.mp h.lossless).2
  have laid := h.laid
  rw [rest] at laid
  exact ⟨rest, laid⟩

/-- What was read in front of the word is clear of it. -/
lemma Reading.clear (h : Reading (fun _ => True) u.stop ts b) (width : u.start < u.stop)
    (left : b.rest = rest ++ [u]) : Clear u b.nodes ∧ strayOf u ∉ b.nodes := by
  have laid := h.laid
  have spaced := h.spaced
  rw [left] at laid spaced
  exact Clear.of_laid laid width (.inl spaced.leaves.1.le)

/-- What is left in front of the word stands in front of it as before. -/
lemma Reading.inFront (ra : Reading (fun _ => True) u.start ts a)
    (rb : Reading (fun _ => True) u.stop (ts ++ [u]) b) (hts : InFront u ts)
    (left : b.rest = a.rest ++ [u]) : InFront u a.rest where
  spaced := ra.spaced
  whole := left ▸ rb.spaced
  gap := fun t ht => hts.gap t (ra.suffix.subset ht)

/-- Behind its first token, a row still stands in front of the word. -/
lemma InFront.tail {t : Token} (h : InFront u (t :: ts)) : InFront u ts := by
  have first : Reading (fun _ => True) u.start (t :: ts) ⟨[leaf t], [], ts⟩ := .leaf h.spaced
  exact first.inFront (.leaf h.whole) h rfl

/-- The end of a row that stands in front of the word does so, too. -/
lemma InFront.suffix {us : List Token} (h : InFront u ts) (suffix : us <:+ ts) : InFront u us := by
  obtain ⟨xs, rfl⟩ := suffix
  induction xs with
  | nil => exact h
  | cons x xs ih => exact ih h.tail

/-- What is read behind a reading that is clear of the word is read of the word or of nothing. -/
lemma Clear.followedBy (h : Clear u b.nodes) (width : u.start < u.stop) (left : b.rest <:+ [u])
    (rd : Reading (fun _ => True) u.stop b.rest d) (alone : b.rest = [u] → Clear u d.nodes) :
    Clear u (b.followedBy d).nodes := by
  refine h.append ?_
  rcases List.suffix_cons_iff.mp left with all | none
  · exact alone all
  · rw [List.suffix_nil.mp none] at rd
    exact (Clear.of_laid rd.at_end.2 width (.inr (Nat.le_refl _))).1

/-- Two readings one after the other. -/
lemma Outcome.followedBy (o : Outcome u a b) (width : u.start < u.stop)
    (rb : Reading (fun _ => True) u.stop (ts ++ [u]) b)
    (rc : Reading (fun _ => True) u.start a.rest c) (rd : Reading (fun _ => True) u.stop b.rest d)
    (alone : b.rest = [u] → Clear u d.nodes)
    (more : a.rest ≠ [] → b.rest = a.rest ++ [u] → Outcome u c d) :
    Outcome u (a.followedBy c) (b.followedBy d) := by
  cases o with
  | same left e =>
    have rest := congrArg Parsed.rest e
    have clear := (rb.clear width rest).1
    cases more left rest with
    | same left' e' =>
      refine .same left' ?_
      rw [e, e']
      rfl
    | behind f =>
      obtain ⟨xs, g, h, ys, zs, hc, hd, f', rest⟩ := f.nodes
      refine .behind ⟨f.rest, f.rest', a.nodes ++ xs, g, h, ys, zs, ?_, ?_, f', rest⟩
      · rw [Parsed.followedBy, hc, List.append_assoc]
      · rw [Parsed.followedBy, hd, e, List.append_assoc]
        rfl
    | clear h rest => exact .clear (clear.append h) rest
  | behind f =>
    -- the word has been read, so nothing is left for the second part
    rw [f.rest] at rc
    rw [f.rest'] at rd
    obtain ⟨restc, laidc⟩ := rc.at_end
    obtain ⟨restd, laidd⟩ := rd.at_end
    obtain ⟨xs, g, h, ys, zs, ha, hb, f', hy, hz⟩ := f.nodes
    refine .behind ⟨restc, restd, xs, g, h, ys ++ c.nodes, zs ++ d.nodes, ?_, ?_, f', ?_, ?_⟩
    · rw [Parsed.followedBy, ha, List.append_assoc, List.cons_append]
    · rw [Parsed.followedBy, hb, List.append_assoc, List.cons_append]
    · exact List.forall_mem_append.mpr ⟨hy, fun y m => (laidc.of_mem m).1⟩
    · exact List.forall_mem_append.mpr ⟨hz, fun z m => (laidd.of_mem m).1⟩
  | clear h rest => exact .clear (h.followedBy width rest rd alone) (rd.suffix.trans rest)

/-- Two readings, each enclosed in a node that does not take the word as a stray. -/
lemma Outcome.enclosed (o : Outcome u a b) (own : k.takesStrays = true → strayOf u ∉ b.nodes)
    (some : ts ≠ []) :
    Outcome u ⟨[enclosed u.start k (offsetOf u.start ts) a.nodes a.rest], a.faults, a.rest⟩
      ⟨[enclosed u.stop k (offsetOf u.stop (ts ++ [u])) b.nodes b.rest], b.faults, b.rest⟩ := by
  cases o with
  | same left e =>
    subst e
    refine .same left ?_
    exact enclosing_append a (List.length_pos_iff.mpr some) (List.length_pos_iff.mpr left)
  | behind f =>
    obtain ⟨xs, g, h, ys, zs, ha, hb, f', hy, hz⟩ := f.nodes
    have first : ((xs ++ h :: zs).head?.map start).getD (offsetOf u.stop (ts ++ [u])) =
        ((xs ++ g :: ys).head?.map start).getD (offsetOf u.start ts) := by
      cases xs with
      | nil => exact f'.start_eq
      | cons x xs => rfl
    obtain ⟨n, e⟩ := enclosed_eq u.start k (offsetOf u.start ts) a.nodes a.rest
    obtain ⟨n', e'⟩ := enclosed_eq u.stop k (offsetOf u.stop (ts ++ [u])) b.nodes b.rest
    rw [e, e', ha, hb, first]
    refine .behind ⟨f.rest, f.rest', [], _, _, [], [], rfl, rfl, .inside f' hy hz, nofun, nofun⟩
  | clear h rest => exact .clear (h.enclosed own) rest

/-- The first tokens are wrapped, with the same number of them unless all are wrapped. -/
lemma Outcome.wrapped {n n' : Nat} {cause : Cause} (same : n < ts.length → n' = n)
    (all : ts.length ≤ n → ts.length ≤ n') :
    Outcome u (wrapped u.start cause n ts) (wrapped u.stop cause n' (ts ++ [u])) := by
  rcases Nat.lt_or_ge n ts.length with less | le
  · rw [same less]
    refine .same ?_ (wrapped_append less)
    rw [Grammar.wrapped, Ne, List.drop_eq_nil_iff]
    omega
  · refine .clear (.wrapped List.not_mem_nil) ?_
    rw [Grammar.wrapped, List.drop_append, List.drop_eq_nil_of_le (all le), List.nil_append]
    exact List.drop_suffix _ _

/-- With more tokens behind, recovery through a stop takes no fewer. -/
lemma lengthThroughStop_le (ts us : List Token) :
    lengthThroughStop ts ≤ lengthThroughStop (ts ++ us) := by
  induction ts with
  | nil => exact Nat.zero_le _
  | cons t ts ih =>
    rw [List.cons_append, lengthThroughStop, lengthThroughStop]
    split
    · exact Nat.le_refl _
    · split
      · exact Nat.le_refl _
      · exact Nat.succ_le_succ ih

/-- With more tokens behind, recovery up to a stop takes no fewer. -/
lemma lengthBeforeStop_le (ts us : List Token) :
    lengthBeforeStop ts ≤ lengthBeforeStop (ts ++ us) := by
  induction ts with
  | nil => exact Nat.zero_le _
  | cons t ts ih =>
    rw [List.cons_append, lengthBeforeStop, lengthBeforeStop]
    split
    · exact Nat.le_refl _
    · exact Nat.succ_le_succ ih

/-- With more tokens behind, recovery takes no fewer. -/
lemma recoveryLength_le (ts us : List Token) : recoveryLength ts ≤ recoveryLength (ts ++ us) := by
  cases ts with
  | nil => exact Nat.zero_le _
  | cons t ts =>
    rw [List.cons_append, recoveryLength, recoveryLength]
    split
    · exact Nat.le_refl _
    · exact Nat.succ_le_succ (lengthThroughStop_le ts us)

/-! ## Rules -/

/-- A label behind some tokens leaves the answer as it is, or it is read at once. -/
def Rule.foresees (test : Test) (p : Rule) : Bool :=
  settles test skip || settles test p && p.isSettled

/-- A label behind some tokens leads only to nodes that take no strays. -/
def Rule.isForeseen : Rule → Bool
  | skip | take | missing _ | stray | recover | nested _ => true
  | seq p q => p.isForeseen && q.isForeseen
  | node k p => k.takesStrays || p.isForeseen
  | branch test p q => foresees test p && (p.isForeseen && q.isForeseen)
  | many test p => foresees test p && p.isForeseen
  | joined p test _ q => settles test skip && (p.isForeseen && q.isForeseen)

variable {inner inner' : Symbol → List Token → Parsed} {test : Test} {p q r : Rule}

/-- A question that is foreseen has the same answer with the word, or the word is read and clear. -/
lemma Rule.foresees_cases (h : foresees test p = true) (eof : Nat) (hu : u.kind = .label)
    (hi : ∀ s ts, (inner s ts).rest <:+ ts) (ne : ts ≠ []) :
    test (.of (ts ++ [u])) = test (.of ts) ∨ test (.of (ts ++ [u])) = true ∧
      (p.run eof inner (ts ++ [u])).rest = [] ∧
      Clear u (p.run eof inner (ts ++ [u])).nodes := by
  rcases Bool.or_eq_true_iff.mp h with same | read
  · refine .inl ((settles_cases eof same hu hi ne).resolve_right ?_)
    rintro ⟨_, none⟩
    cases List.append_ne_nil_of_right_ne_nil ts (List.cons_ne_nil u []) none
  · obtain ⟨read, settled⟩ := Bool.and_eq_true_iff.mp read
    refine Or.imp_right (fun h => ⟨h.1, h.2, ?_⟩) (settles_cases eof read hu hi ne)
    exact (Clear.of_innerKinds (p.run_closed (isSettled.closed settled) eof inner _)).1

/-- A token is taken with the word behind it or without. -/
lemma Twins.take : Twins u (Rule.take.run u.start inner) (Rule.take.run u.stop inner') where
  alone := .leaves [u] List.not_mem_nil
  outcome
    | [], _, ne => absurd rfl ne
    | [t], _, _ => .clear (.leaves [t] List.not_mem_nil) (List.suffix_refl _)
    | _ :: t :: ts, _, _ => .same (List.cons_ne_nil t ts) rfl

/-- A gap is the same with the word behind it. -/
lemma Twins.missing {wanted : Wanted} : Twins u ((Rule.missing wanted).run u.start inner)
    ((Rule.missing wanted).run u.stop inner') where
  alone := .node .nil fun _ => List.not_mem_nil
  outcome _ _ ne := .same ne (absent_append (List.length_pos_iff.mpr ne))

/-- A stray is the same with the word behind it, unless it is the last token. -/
lemma Twins.stray : Twins u (Rule.stray.run u.start inner) (Rule.stray.run u.stop inner') where
  alone := .wrapped List.not_mem_nil
  outcome
    | [], _, ne => absurd rfl ne
    | _ :: _, _, _ => .wrapped (fun _ => rfl) id

/-- Recovery wraps the same tokens, or all of them. -/
lemma Twins.recover :
    Twins u (Rule.recover.run u.start inner) (Rule.recover.run u.stop inner') where
  alone := .wrapped List.not_mem_nil
  outcome
    | [], _, ne => absurd rfl ne
    | t :: ts, _, _ => .wrapped (recoveryLength_append [u]) fun le =>
      Nat.le_trans le (recoveryLength_le (t :: ts) [u])

/-- What is cut off is the same, or all tokens are. -/
lemma Twins.cutOff : Twins u (cutOff u.start) (cutOff u.stop) where
  alone := .wrapped List.not_mem_nil
  outcome ts _ _ := .wrapped lengthBeforeStop_append fun le =>
    Nat.le_trans le (lengthBeforeStop_le ts [u])

/-- The word alone is a spaced row. -/
lemma spaced_word (width : u.start < u.stop) :
    Spaced (fun _ => True) u.stop (offsetOf u.stop [u]) [u] :=
  .cons (Nat.le_refl _) width trivial trivial (.nil (Nat.le_refl _))

section

variable (width : u.start < u.stop)
include width

/-- One rule after another reads so if both do. -/
lemma Twins.seq (rp : Reads u.start (p.run u.start inner)) (rp' : Reads u.stop (p.run u.stop inner'))
    (rq : Reads u.start (q.run u.start inner)) (rq' : Reads u.stop (q.run u.stop inner'))
    (tp : Twins u (p.run u.start inner) (p.run u.stop inner'))
    (tq : Twins u (q.run u.start inner) (q.run u.stop inner')) :
    Twins u ((Rule.seq p q).run u.start inner) ((Rule.seq p q).run u.stop inner') where
  alone := by
    have first := rp' [u] (spaced_word width)
    exact tp.alone.followedBy width first.suffix (rq' _ first.spaced) fun e => by
      rw [e]; exact tq.alone
  outcome ts hts ne := by
    have first := rp ts hts.spaced
    have first' := rp' (ts ++ [u]) hts.whole
    refine (tp.outcome ts hts ne).followedBy width first' (rq _ first.spaced) (rq' _ first'.spaced)
      (fun e => by rw [e]; exact tq.alone) fun left rest => ?_
    rw [rest]
    exact tq.outcome _ (first.inFront first' hts rest) left

omit width in
/-- A production in which the word is no stray. -/
lemma Twins.node (own : k.takesStrays = true → ∀ ts, strayOf u ∉ (p.run u.stop inner' ts).nodes)
    (tp : Twins u (p.run u.start inner) (p.run u.stop inner')) :
    Twins u ((Rule.node k p).run u.start inner) ((Rule.node k p).run u.stop inner') where
  alone := tp.alone.enclosed fun takes => own takes [u]
  outcome ts hts ne := (tp.outcome ts hts ne).enclosed (fun takes => own takes _) ne

omit width in
/-- A branch reads so if its rules do and its question is foreseen. -/
lemma Twins.branch (hu : u.kind = .label) (hi' : ∀ s ts, (inner' s ts).rest <:+ ts)
    (foreseen : Rule.foresees test p = true)
    (tp : Twins u (p.run u.start inner) (p.run u.stop inner'))
    (tq : Twins u (q.run u.start inner) (q.run u.stop inner')) :
    Twins u ((Rule.branch test p q).run u.start inner)
      ((Rule.branch test p q).run u.stop inner') where
  alone := by
    rw [Rule.run]
    split
    · exact tp.alone
    · exact tq.alone
  outcome ts hts ne := by
    rw [Rule.run, Rule.run]
    rcases Rule.foresees_cases foreseen u.stop hu hi' ne with same | ⟨pass, none, clear⟩
    · rw [same]
      split
      · exact tp.outcome ts hts ne
      · exact tq.outcome ts hts ne
    · rw [if_pos pass]
      refine .clear clear ?_
      rw [none]
      exact List.nil_suffix

/-- A loop reads so if its turns do and its question is foreseen, turn by turn. -/
lemma Twins.many (hu : u.kind = .label) (hi' : ∀ s ts, (inner' s ts).rest <:+ ts)
    (foreseen : Rule.foresees test p = true)
    (consumes : Consumes (test · = true) (p.run u.start inner))
    (consumes' : Consumes (test · = true) (p.run u.stop inner'))
    (rp : Reads u.start (p.run u.start inner)) (rp' : Reads u.stop (p.run u.stop inner'))
    (tp : Twins u (p.run u.start inner) (p.run u.stop inner')) :
    Twins u ((Rule.many test p).run u.start inner) ((Rule.many test p).run u.stop inner') := by
  have reads : Reads u.start ((Rule.many test p).run u.start inner) := fun _ => .repeatWhile rp _
  have reads' : Reads u.stop ((Rule.many test p).run u.stop inner') := fun _ => .repeatWhile rp' _
  have alone : Clear u ((Rule.many test p).run u.stop inner' [u]).nodes := by
    cases pass : test (.of [u]) with
    | false =>
      rw [Rule.many_stop pass]
      exact .nil
    | true =>
      -- a turn reads something, so with the word alone there is only one
      have first := rp' [u] (spaced_word width)
      have none : ((p.run u.stop inner') [u]).rest = [] :=
        List.length_eq_zero_iff.mp (Nat.lt_one_iff.mp (consumes' [u] pass))
      rw [consumes'.many_eq pass]
      refine tp.alone.followedBy width first.suffix (reads' _ first.spaced) fun e => ?_
      rw [none] at e
      cases e
  refine ⟨alone, fun ts => ?_⟩
  induction ts using consumes.turn_induction with
  | turn ts again =>
    intro hts ne
    rcases Rule.foresees_cases foreseen u.stop hu hi' ne with same | ⟨pass, none, clear⟩
    · cases pass : test (.of ts) with
      | false =>
        rw [Rule.many_stop pass, Rule.many_stop (same.trans pass)]
        exact .same ne rfl
      | true =>
        have first := rp ts hts.spaced
        have first' := rp' (ts ++ [u]) hts.whole
        rw [consumes.many_eq pass, consumes'.many_eq (same.trans pass)]
        refine (tp.outcome ts hts ne).followedBy width first' (reads _ first.spaced)
          (reads' _ first'.spaced) (fun e => by rw [e]; exact alone) fun left rest => ?_
        rw [rest]
        exact again pass (first.inFront first' hts rest) left
    · -- here only the word lets the loop go on, and one turn reads all that is left
      have first' := rp' (ts ++ [u]) hts.whole
      have behind := reads' _ first'.spaced
      have left : (p.run u.stop inner' (ts ++ [u])).rest <:+ [u] := by
        rw [none]
        exact List.nil_suffix
      rw [consumes'.many_eq pass]
      refine .clear (clear.followedBy width left behind fun e => ?_) (behind.suffix.trans left)
      rw [none] at e
      cases e

/-- Rules that may be joined read so if both do and the word settles the question between them. -/
lemma Twins.joined (hu : u.kind = .label) (hi' : ∀ s ts, (inner' s ts).rest <:+ ts)
    (foreseen : Rule.settles test .skip = true) (hk : k.takesStrays = false)
    (rp : Reads u.start (p.run u.start inner)) (rp' : Reads u.stop (p.run u.stop inner'))
    (rq : Reads u.start (q.run u.start inner)) (rq' : Reads u.stop (q.run u.stop inner'))
    (tp : Twins u (p.run u.start inner) (p.run u.stop inner'))
    (tq : Twins u (q.run u.start inner) (q.run u.stop inner')) :
    Twins u ((Rule.joined p test k q).run u.start inner)
      ((Rule.joined p test k q).run u.stop inner') := by
  have both : Twins u ((Rule.seq p q).run u.start inner) ((Rule.seq p q).run u.stop inner') :=
    .seq width rp rp' rq rq' tp tq
  have own (ns : List Tree) (takes : k.takesStrays = true) : strayOf u ∉ ns := by
    rw [hk] at takes
    cases takes
  refine ⟨?_, fun ts hts ne => ?_⟩
  · simp only [Rule.run]
    split
    · exact both.alone.enclosed (own _)
    · exact tp.alone
  have outcome := tp.outcome ts hts ne
  -- the answer is the same, or the first part has read up to the word and holds no stray
  have same : test (.of (p.run u.stop inner' (ts ++ [u])).rest) =
      test (.of (p.run u.start inner ts).rest) ∨
      Clear u (p.run u.stop inner' (ts ++ [u])).nodes ∧
      (p.run u.stop inner' (ts ++ [u])).rest <:+ [u] := by
    cases outcome with
    | same left e =>
      rw [e]
      refine .inl ((Rule.settles_cases u.stop foreseen hu hi' left).resolve_right ?_)
      rintro ⟨_, none⟩
      cases List.append_ne_nil_of_right_ne_nil _ (List.cons_ne_nil u []) none
    | behind f => exact .inl (by rw [f.rest, f.rest'])
    | clear h rest => exact .inr ⟨h, rest⟩
  simp only [Rule.run]
  rcases same with same | ⟨clear, left⟩
  · rw [same]
    split
    · exact (both.outcome ts hts ne).enclosed (own _) ne
    · exact outcome
  · have behind := rq' _ (rp' _ hts.whole).spaced
    refine .clear ?_ ?_
    · split
      · refine .enclosed ?_ (own _)
        exact clear.followedBy width left behind fun e => by rw [e]; exact tq.alone
      · exact clear
    · split
      · exact behind.suffix.trans left
      · exact left

/-- The readings of a rule part only where those of its productions that take strays do. -/
theorem Rule.run_twins (hu : u.kind = .label) (reads : ∀ s, Reads u.start (inner s))
    (reads' : ∀ s, Reads u.stop (inner' s)) (hi' : ∀ s ts, (inner' s ts).rest <:+ ts)
    (twins : ∀ s, Twins u (inner s) (inner' s)) (steady : Steady u.start inner r)
    (steady' : Steady u.stop inner' r) (foreseen : r.isForeseen = true) (hk : .error ∉ r.kinds)
    (hosts : r.ForHosts fun k p =>
      Twins u ((node k p).run u.start inner) ((node k p).run u.stop inner')) :
    Twins u (r.run u.start inner) (r.run u.stop inner') := by
  have rule {r : Rule} (hk : .error ∉ r.kinds) : Reads u.start (r.run u.start inner) :=
    fun _ => Rule.run_reading trivial reads hk
  have rule' {r : Rule} (hk : .error ∉ r.kinds) : Reads u.stop (r.run u.stop inner') :=
    fun _ => Rule.run_reading trivial reads' hk
  induction r with
  | skip => exact ⟨.nil, fun _ _ ne => .same ne rfl⟩
  | take => exact .take
  | missing wanted => exact .missing
  | stray => exact .stray
  | recover => exact .recover
  | nested s => exact twins s
  | seq p q ihp ihq =>
    obtain ⟨fp, fq⟩ := Bool.and_eq_true_iff.mp foreseen
    simp only [kinds, List.mem_append, not_or] at hk
    cases steady with | seq sp sq
    cases steady' with | seq sp' sq'
    exact .seq width (rule hk.1) (rule' hk.1) (rule hk.2) (rule' hk.2)
      (ihp sp sp' fp hk.1 hosts.1) (ihq sq sq' fq hk.2 hosts.2)
  | node k p ih =>
    rw [forHosts_node] at hosts
    -- the hosts are the productions that take strays, and in all others the word is no stray
    split at hosts
    next => exact hosts
    next others =>
      simp only [kinds, List.mem_cons, not_or] at hk
      cases steady with | node sp
      cases steady' with | node sp'
      have fp := (Bool.or_eq_true_iff.mp foreseen).resolve_left others
      exact .node (fun takes => absurd takes others) (ih sp sp' fp hk.2 hosts)
  | branch test p q ihp ihq =>
    obtain ⟨asked, sides⟩ := Bool.and_eq_true_iff.mp foreseen
    obtain ⟨fp, fq⟩ := Bool.and_eq_true_iff.mp sides
    simp only [kinds, List.mem_append, not_or] at hk
    cases steady with | branch sp sq
    cases steady' with | branch sp' sq'
    exact .branch hu hi' asked (ihp sp sp' fp hk.1 hosts.1) (ihq sq sq' fq hk.2 hosts.2)
  | many test p ih =>
    obtain ⟨asked, fp⟩ := Bool.and_eq_true_iff.mp foreseen
    cases steady with | many consumes sp
    cases steady' with | many consumes' sp'
    exact .many width hu hi' asked consumes consumes' (rule hk) (rule' hk) (ih sp sp' fp hk hosts)
  | joined p test k q ihp ihq =>
    obtain ⟨asked, sides⟩ := Bool.and_eq_true_iff.mp foreseen
    obtain ⟨fp, fq⟩ := Bool.and_eq_true_iff.mp sides
    obtain ⟨takes, hp, hq⟩ := hosts
    simp only [kinds, List.mem_cons, List.mem_append, not_or] at hk
    cases steady with | joined sp sq
    cases steady' with | joined sp' sq'
    exact .joined width hu hi' asked takes (rule hk.2.1) (rule' hk.2.1)
      (rule hk.2.2) (rule' hk.2.2) (ihp sp sp' fp hk.2.1 hp) (ihq sq sq' fq hk.2.2 hq)

end

end Grammar

end TypeqlAssist
