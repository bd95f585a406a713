import TypeqlAssist.Proofs.Grammar.Diverging

/-!
# Turns of a loop

The productions that take strays read their constraints in a loop. Alone and with a label behind
them, tokens are read in lockstep, turn by turn, until no token is left in front of the label
(`StrayLoop.held`). Then the label is read by the last turn, or it is the stray word of one turn
more, and the production holds it at its end (`StrayLoop.outcome`).
-/

namespace TypeqlAssist

namespace Grammar

open TypeqlAssist.Tree

/-! ## Turns of a loop -/

/-- What a turn reads of the same tokens, alone and with a word behind them. -/
inductive Turn (u : Token) (a b : Parsed) : Prop where
  | same :
    a.rest ≠ [] →
    b = a.before [u] →
    Turn u a b
  /-- All tokens were read, and the word is left. -/
  | ended :
    a.rest = [] →
    b.rest = [u] →
    Leaves u a.nodes b.nodes →
    Turn u a b
  /-- The word was read with the tokens. -/
  | read :
    b.rest = [] →
    Clear u b.nodes ∧ strayOf u ∉ b.nodes →
    Turn u a b

/-- What all turns read. -/
inductive Held (u : Token) (a b : Parsed) : Prop where
  | same :
    a.rest ≠ [] →
    b = a.before [u] →
    Held u a b
  | stray {xs : List Tree} :
    a.rest = [] →
    b.rest = [] →
    b.nodes = xs ++ [strayOf u] →
    Leaves u a.nodes xs →
    Held u a b
  | read :
    b.rest = [] →
    Clear u b.nodes ∧ strayOf u ∉ b.nodes →
    Held u a b

variable {u : Token} {a b : Parsed} {ts : List Token} {inner inner' : Symbol → List Token → Parsed}
  {test : Test} {p pre : Rule} {k : Kind} {mode : Mode}

/-- A loop at the end of the input, where the word is a stray. -/
structure Ends (u : Token) (loop loop' : List Token → Parsed) : Prop where
  none : loop [] = ⟨[], [], []⟩
  none' : loop' [] = ⟨[], [], []⟩
  word : (loop' [u]).nodes = [strayOf u]
  rest : (loop' [u]).rest = []

/-- A turn, and the turns that follow it. -/
lemma Turn.followedBy {loop loop' : List Token → Parsed} (t : Turn u a b) (width : u.start < u.stop)
    (rb : Reading (fun _ => True) u.stop (ts ++ [u]) b) (ends : Ends u loop loop')
    (more : a.rest ≠ [] → b = a.before [u] → Held u (loop a.rest) (loop' (a.rest ++ [u]))) :
    Held u (a.followedBy (loop a.rest)) (b.followedBy (loop' b.rest)) := by
  cases t with
  | same left e =>
    have clear := rb.clear width (congrArg Parsed.rest e)
    have behind := more left e
    subst e
    cases behind with
    | same left' e' =>
      refine .same left' ?_
      exact congrArg (Parsed.followedBy (a.before [u])) e'
    | stray rest rest' nodes leaves =>
      refine .stray rest rest' ?_ (leaves.append a.nodes)
      rw [List.append_assoc, ← nodes]
      rfl
    | read rest free =>
      refine .read rest ⟨clear.1.append free.1, fun mem => ?_⟩
      exact (List.mem_append.mp mem).elim clear.2 free.2
  | ended rest rest' leaves =>
    rw [rest, rest', ends.none]
    refine .stray rfl ends.rest (congrArg (b.nodes ++ ·) ends.word) ?_
    rw [Parsed.followedBy, List.append_nil]
    exact leaves
  | read rest free =>
    rw [rest, ends.none']
    refine .read rfl ?_
    rw [Parsed.followedBy, List.append_nil]
    exact free

/-- A loop that takes words at its end as strays. -/
structure StrayLoop (u : Token) (inner inner' : Symbol → List Token → Parsed) (test : Test)
    (p : Rule) : Prop where
  consumes : Consumes (test · = true) (p.run u.start inner)
  consumes' : Consumes (test · = true) (p.run u.stop inner')
  reads : Reads u.start (p.run u.start inner)
  reads' : Reads u.stop (p.run u.stop inner')
  first : ∀ t ts, test (.of (t :: ts ++ [u])) = test (.of (t :: ts))
  word : test (.of [u]) = true
  stray : p.run u.stop inner' [u] = Rule.stray.run u.stop inner' [u]
  turn : ∀ ts, InFront u ts → test (.of ts) = true →
    Turn u (p.run u.start inner ts) (p.run u.stop inner' (ts ++ [u]))

/-- At the end of a document, a label is wrapped alone. -/
lemma stray_word (hu : u.kind = .label) :
    (wrapped u.stop .unexpected 1 [u]).nodes = [strayOf u] := by
  simp [wrapped, enclosed, enclose, isOpenEnded, isClosedBy, strayOf, leaf, offsetOf, hu]

/-- A loop whose turns read tokens takes no turn at the end of the input. -/
lemma Consumes.stops {eof : Nat} (h : Consumes (test · = true) (p.run eof inner)) :
    test (.of []) = false := by
  by_contra pass
  exact Nat.not_lt_zero _ (h [] (eq_true_of_ne_false pass))

/-- At the end of the input, the loop takes one turn for the word, as a stray. -/
lemma StrayLoop.ends (h : StrayLoop u inner inner' test p) (hu : u.kind = .label) :
    Ends u ((Rule.many test p).run u.start inner) ((Rule.many test p).run u.stop inner') := by
  have stop : (Rule.many test p).run u.stop inner' [] = ⟨[], [], []⟩ :=
    Rule.many_stop h.consumes.stops
  have turn : (Rule.many test p).run u.stop inner' [u] =
      (wrapped u.stop .unexpected 1 [u]).followedBy ⟨[], [], []⟩ := by
    rw [h.consumes'.many_eq h.word, h.stray]
    exact congrArg (Parsed.followedBy _) stop
  refine ⟨Rule.many_stop h.consumes.stops, stop, ?_, ?_⟩
  · rw [turn, Parsed.followedBy, List.append_nil]
    exact stray_word hu
  · rw [turn]
    rfl

/-- The turns of a loop are taken in lockstep. -/
theorem StrayLoop.held (h : StrayLoop u inner inner' test p) (width : u.start < u.stop)
    (hu : u.kind = .label) (hts : InFront u ts) (ne : ts ≠ []) :
    Held u ((Rule.many test p).run u.start inner ts)
      ((Rule.many test p).run u.stop inner' (ts ++ [u])) := by
  induction ts using h.consumes.turn_induction with
  | turn ts again =>
    have same : test (.of (ts ++ [u])) = test (.of ts) := by
      cases ts with
      | nil => exact absurd rfl ne
      | cons t ts => exact h.first t ts
    cases pass : test (.of ts) with
    | false =>
      rw [Rule.many_stop pass, Rule.many_stop (same.trans pass)]
      exact .same ne rfl
    | true =>
      have first := h.reads ts hts.spaced
      have first' := h.reads' (ts ++ [u]) hts.whole
      rw [h.consumes.many_eq pass, h.consumes'.many_eq (same.trans pass)]
      refine (h.turn ts hts pass).followedBy width first' (h.ends hu) fun left e => ?_
      have rest := congrArg Parsed.rest e
      exact again pass (first.inFront first' hts rest) left

/-! ## Productions -/

/-- What stands at the end of a production in front of a stray word does not close it. -/
lemma Leaves.open {xs ys : List Tree} (h : Leaves u xs ys) :
    isClosedBy k (xs.getLast?.map kind) = false := by
  have last {c : Kind} (hc : c = .error ∨ c.precedesStray = true) :
      isClosedBy k (some c) = false := by
    rcases hc with rfl | hc
    · rfl
    · cases c <;> first | rfl | cases hc
  cases h with
  | word he => simpa using last (.inl he)
  | relation hn =>
    rw [List.getLast?_concat, Option.map_some, hn]
    rfl
  | links _ _ he => simpa using last (.inl he)
  | @complete xs n zs hn _ hz =>
    cases e : zs.getLast? with
    | none => simpa [List.getLast?_cons, e] using last (.inr hn)
    | some z => simpa [List.getLast?_cons, e] using last (.inl (hz z (List.mem_of_getLast? e)).1)

/-- A production that stays open at the end of a document reaches to it. -/
lemma stop_enclosed {eof lo : Nat} {cs : List Tree} (hk : isOpenEnded k = true)
    (last : isClosedBy k (cs.getLast?.map kind) = false)
    (laid : Laid (fun _ => True) lo cs eof) : (enclosed eof k lo cs []).stop = eof := by
  have within : Laid (fun _ => True) lo [enclosed eof k lo cs []] eof :=
    laid_enclosed laid trivial trivial
  refine Nat.le_antisymm (within.of_mem (.head _)).2.1 ?_
  rw [enclosed, hk, last]
  exact Nat.le_max_right _ _

/-- A production over what was read, at the end of a document, takes the word as a stray. -/
lemma Held.enclosed (h : Held u a b) (takes : k.takesStrays = true)
    (ra : Reading (fun _ => True) u.start ts a) (ne : ts ≠ []) :
    Outcome u ⟨[enclosed u.start k (offsetOf u.start ts) a.nodes a.rest], a.faults, a.rest⟩
      ⟨[enclosed u.stop k (offsetOf u.stop (ts ++ [u])) b.nodes b.rest], b.faults, b.rest⟩ := by
  cases h with
  | same left e =>
    subst e
    refine .same left ?_
    exact enclosing_append a (List.length_pos_iff.mpr ne) (List.length_pos_iff.mpr left)
  | @stray xs rest rest' nodes leaves =>
    have laid := ra.laid
    rw [rest] at laid ⊢
    rw [rest', nodes]
    have stop := stop_enclosed (isOpenEnded_of_takesStrays takes) leaves.open laid
    refine .behind ⟨rfl, rfl, [], _, _, [], [], rfl, rfl,
      .here ⟨rfl, takes, ?_, stop, xs, rfl, leaves⟩, nofun, nofun⟩
    obtain ⟨n, first, first'⟩ := leaves.head
    have start : (xs ++ [strayOf u]).head?.map Tree.start = some n := by
      rw [List.head?_append, Option.map_or, first', Option.some_or]
    change ((xs ++ [strayOf u]).head?.map Tree.start).getD _ = (a.nodes.head?.map Tree.start).getD _
    rw [start, first]
    rfl
  | read rest free =>
    refine .clear (.enclosed free.1 fun _ => free.2) ?_
    rw [rest]
    exact List.nil_suffix

/-- A rule reads what it reads alone, or the word, too. -/
lemma Turn.of_settled (hu : u.kind = .label)
    (hi' : ∀ s ts, (inner' s ts).rest <:+ ts) (settled : p.isSettled = true)
    (steady : Steady u.start inner p) (steady' : Steady u.stop inner' p)
    (leaves : (p.run u.start inner ts).rest = [] → (p.run u.stop inner' (ts ++ [u])).rest ≠ [] →
      Leaves u (p.run u.start inner ts).nodes (p.run u.start inner ts).nodes) :
    Turn u (p.run u.start inner ts) (p.run u.stop inner' (ts ++ [u])) := by
  by_cases read : (p.run u.stop inner' (ts ++ [u])).rest = []
  · exact .read read (Clear.of_innerKinds (Rule.run_closed (Rule.isSettled.closed settled) _ _ _))
  · have same := Rule.run_word settled steady steady' hu rfl hi' read
    by_cases all : (p.run u.start inner ts).rest = []
    · have word := leaves all read
      rw [same]
      exact .ended all (congrArg (· ++ [u]) all) word
    · exact .same all same

/-- A production that reads its subject and then constraints, if it reads the subject so. -/
lemma StrayLoop.outcome (h : StrayLoop u inner inner' test p) (width : u.start < u.stop)
    (hu : u.kind = .label) (takes : k.takesStrays = true) (rp : Reads u.start (pre.run u.start inner))
    (rp' : Reads u.stop (pre.run u.stop inner')) (hts : InFront u ts) (ne : ts ≠ [])
    (turn : Turn u (pre.run u.start inner ts) (pre.run u.stop inner' (ts ++ [u]))) :
    Outcome u ((Rule.node k (.seq pre (.many test p))).run u.start inner ts)
      ((Rule.node k (.seq pre (.many test p))).run u.stop inner' (ts ++ [u])) := by
  have first := rp ts hts.spaced
  have first' := rp' (ts ++ [u]) hts.whole
  have held := turn.followedBy width first' (h.ends hu) fun left e =>
    h.held width hu (first.inFront first' hts (congrArg Parsed.rest e)) left
  exact held.enclosed takes (first.followedBy (.repeatWhile h.reads _ first.spaced)) ne

/-- A production whose subject may be the word holds no stray if the word is alone. -/
lemma StrayLoop.alone (h : StrayLoop u inner inner' test p) (hu : u.kind = .label)
    (closed : pre.isClosed = true) (rest : (pre.run u.stop inner' [u]).rest = []) :
    Clear u ((Rule.node k (.seq pre (.many test p))).run u.stop inner' [u]).nodes := by
  have free := Clear.of_innerKinds (u := u) (pre.run_closed closed u.stop inner' [u])
  have all : ((Rule.seq pre (.many test p)).run u.stop inner' [u]).nodes =
      (pre.run u.stop inner' [u]).nodes := by
    rw [Rule.run]
    simp only [rest, (h.ends hu).none']
    exact List.append_nil _
  refine .enclosed ?_ fun _ => ?_
  · rw [all]
    exact free.1
  · rw [all]
    exact free.2

/-! ## Choices -/

variable {q : Rule}

/-- Where the test passes, a branch reads its first rule. -/
lemma run_pass {eof : Nat} (pass : test (.of ts) = true) :
    (Rule.branch test p q).run eof inner ts = p.run eof inner ts :=
  if_pos pass

/-- Where the test fails, a branch reads its second rule. -/
lemma run_fail {eof : Nat} (fail : test (.of ts) = false) :
    (Rule.branch test p q).run eof inner ts = q.run eof inner ts :=
  if_neg (Bool.eq_false_iff.mp fail)

/-- Where the word changes no answer, a branch goes the same way with it and without it. -/
lemma branch_sides {S : Parsed → Parsed → Prop} (same : test (.of (ts ++ [u])) = test (.of ts))
    (hp : test (.of ts) = true → S (p.run u.start inner ts) (p.run u.stop inner' (ts ++ [u])))
    (hq : test (.of ts) = false → S (q.run u.start inner ts) (q.run u.stop inner' (ts ++ [u]))) :
    S ((Rule.branch test p q).run u.start inner ts)
      ((Rule.branch test p q).run u.stop inner' (ts ++ [u])) := by
  cases pass : test (.of ts) with
  | true =>
    rw [run_pass pass, run_pass (same.trans pass)]
    exact hp pass
  | false =>
    rw [run_fail pass, run_fail (same.trans pass)]
    exact hq pass

/-- The turns of a branch are those of its sides. -/
lemma Turn.branch (same : test (.of (ts ++ [u])) = test (.of ts))
    (hp : test (.of ts) = true →
      Turn u (p.run u.start inner ts) (p.run u.stop inner' (ts ++ [u])))
    (hq : test (.of ts) = false →
      Turn u (q.run u.start inner ts) (q.run u.stop inner' (ts ++ [u]))) :
    Turn u ((Rule.branch test p q).run u.start inner ts)
      ((Rule.branch test p q).run u.stop inner' (ts ++ [u])) :=
  branch_sides same hp hq

/-- A production around a branch has the outcome of the production around the side that is taken. -/
lemma Outcome.node_branch (same : test (.of (ts ++ [u])) = test (.of ts))
    (hp : test (.of ts) = true → Outcome u ((Rule.node k p).run u.start inner ts)
      ((Rule.node k p).run u.stop inner' (ts ++ [u])))
    (hq : test (.of ts) = false → Outcome u ((Rule.node k q).run u.start inner ts)
      ((Rule.node k q).run u.stop inner' (ts ++ [u]))) :
    Outcome u ((Rule.node k (.branch test p q)).run u.start inner ts)
      ((Rule.node k (.branch test p q)).run u.stop inner' (ts ++ [u])) :=
  branch_sides (S := fun a b => Outcome u
    ⟨[Grammar.enclosed u.start k (offsetOf u.start ts) a.nodes a.rest], a.faults, a.rest⟩
    ⟨[Grammar.enclosed u.stop k (offsetOf u.stop (ts ++ [u])) b.nodes b.rest], b.faults, b.rest⟩)
    same hp hq

/-- The stray word is no production. -/
lemma stray_not_mem_node {eof : Nat} (hk : k ≠ .error) :
    strayOf u ∉ ((Rule.node k p).run eof inner ts).nodes := by
  intro mem
  exact hk (congrArg Tree.kind (List.mem_singleton.mp mem)).symm

end Grammar

end TypeqlAssist
