import TypeqlAssist.Proofs.Grammar.Progress

/-!
# Reading in front of more tokens

A rule looks at two tokens at most, and a node is stretched to the end of the input only where no
token is left. So a rule that leaves two tokens reads the same when more tokens follow, whatever
they are and wherever the input ends (`Steady.run_append`). A document that ends with a query and
its `;` is therefore read as it is alone (`readDocument_append`).
-/

namespace TypeqlAssist

namespace Grammar

open TypeqlAssist.Tree

/-- What was read, with more tokens behind those left. -/
def Parsed.before (a : Parsed) (us : List Token) : Parsed :=
  ⟨a.nodes, a.faults, a.rest ++ us⟩

variable {eof eof' : Nat} {inner inner' : Symbol → List Token → Parsed} {ts us : List Token}

/-! ## What does not depend on the tokens behind -/

/-- Behind two tokens, nothing is seen ahead. -/
lemma Lookahead.of_append (h : 2 ≤ ts.length) : Lookahead.of (ts ++ us) = .of ts := by
  rw [Lookahead.of, List.getElem?_append_left (by omega), List.getElem?_append_left (by omega)]
  rfl

/-- Where a token is next, it does not matter what follows. -/
lemma offsetOf_append (eof eof' : Nat) (h : 0 < ts.length) :
    offsetOf eof' (ts ++ us) = offsetOf eof ts := by
  cases ts with
  | nil => cases h
  | cons t ts => rfl

/-- Where a token is left, a node does not see what follows. -/
lemma enclosed_append (eof eof' : Nat) {k : Kind} {offset : Nat} {cs : List Tree}
    (h : 0 < ts.length) :
    enclosed eof' k offset cs (ts ++ us) = enclosed eof k offset cs ts := by
  cases ts with
  | nil => cases h
  | cons t ts => rfl

/-- What was read is enclosed the same if a token is left. -/
lemma enclosing_append {k : Kind} (a : Parsed) (h : 0 < ts.length) (left : 0 < a.rest.length) :
    (⟨[enclosed eof' k (offsetOf eof' (ts ++ us)) a.nodes (a.rest ++ us)], a.faults,
      a.rest ++ us⟩ : Parsed) =
    (⟨[enclosed eof k (offsetOf eof ts) a.nodes a.rest], a.faults, a.rest⟩ : Parsed).before us := by
  rw [offsetOf_append eof eof' h, enclosed_append eof eof' left]
  rfl

/-- A gap in front of a token does not see what follows. -/
lemma absent_append {wanted : Wanted} (h : 0 < ts.length) :
    absent eof' wanted (ts ++ us) = (absent eof wanted ts).before us := by
  rw [absent, offsetOf_append eof eof' h]
  rfl

/-- Tokens are wrapped the same if not all of them are. -/
lemma wrapped_append {cause : Cause} {n : Nat} (h : n < ts.length) :
    wrapped eof' cause n (ts ++ us) = (wrapped eof cause n ts).before us := by
  have left : 0 < (ts.drop n).length := by
    rw [List.length_drop]
    omega
  simp only [wrapped, List.take_append_of_le_length (Nat.le_of_lt h),
    List.drop_append_of_le_length (Nat.le_of_lt h), Parsed.before]
  rw [offsetOf_append eof eof' (Nat.zero_lt_of_lt h), enclosed_append eof eof' left]

/-- Recovery that stops in front of a token does not see what follows. -/
lemma lengthBeforeStop_append (h : lengthBeforeStop ts < ts.length) :
    lengthBeforeStop (ts ++ us) = lengthBeforeStop ts := by
  induction ts with
  | nil => cases h
  | cons t ts ih =>
    rw [lengthBeforeStop, List.length_cons] at h
    rw [List.cons_append, lengthBeforeStop, lengthBeforeStop]
    split at h
    next stop => rw [if_pos stop, if_pos stop]
    next other => rw [if_neg other, if_neg other, ih (by omega)]

/-- Recovery that stops with a token left does not see what follows. -/
lemma lengthThroughStop_append (h : lengthThroughStop ts < ts.length) :
    lengthThroughStop (ts ++ us) = lengthThroughStop ts := by
  induction ts with
  | nil => cases h
  | cons t ts ih =>
    rw [lengthThroughStop, List.length_cons] at h
    rw [List.cons_append, lengthThroughStop, lengthThroughStop]
    split at h
    next point => rw [if_pos point, if_pos point]
    next other =>
      rw [if_neg other, if_neg other]
      split at h
      next stop => rw [if_pos stop, if_pos stop]
      next other => rw [if_neg other, if_neg other, ih (by omega)]

/-- Recovery that leaves a token does not see what follows. -/
lemma recoveryLength_append (us : List Token) (h : recoveryLength ts < ts.length) :
    recoveryLength (ts ++ us) = recoveryLength ts := by
  cases ts with
  | nil => cases h
  | cons t ts =>
    rw [recoveryLength, List.length_cons] at h
    rw [List.cons_append, recoveryLength, recoveryLength]
    split at h
    next stop => rw [if_pos stop, if_pos stop]
    next other => rw [if_neg other, if_neg other, lengthThroughStop_append (by omega)]

/-- What is wrapped leaves a token if fewer than all tokens are wrapped. -/
lemma lt_of_wrapped {cause : Cause} {n : Nat} (h : 2 ≤ (wrapped eof cause n ts).rest.length) :
    n < ts.length := by
  rw [wrapped, List.length_drop] at h
  omega

/-- A loop whose turns read the same in front of more tokens does, too. -/
lemma repeatWhile_append {test : Test} {read read' : List Token → Parsed}
    (consumes : Consumes (test · = true) read) (suffix : ∀ ts, (read ts).rest <:+ ts)
    (hr : ∀ ts, 2 ≤ (read ts).rest.length → read' (ts ++ us) = (read ts).before us)
    {fuel fuel' : Nat} (enough : ts.length ≤ fuel) (more : fuel ≤ fuel')
    (h : 2 ≤ (repeatWhile test read fuel ts).rest.length) :
    repeatWhile test read' fuel' (ts ++ us) = (repeatWhile test read fuel ts).before us := by
  induction fuel generalizing fuel' ts with
  | zero =>
    cases List.length_eq_zero_iff.mp (Nat.le_zero.mp enough)
    cases h
  | succ fuel ih =>
    obtain ⟨fuel', rfl⟩ := Nat.exists_eq_add_of_lt (Nat.lt_of_lt_of_le fuel.succ_pos more)
    rw [Nat.zero_add] at more ⊢
    have two := Nat.le_trans h (repeatWhile_suffix suffix (fuel + 1) ts).length_le
    rw [repeatWhile] at h ⊢
    rw [repeatWhile, Lookahead.of_append two]
    split at h
    next pass =>
      have less := consumes ts pass
      have rest := Nat.le_trans h (repeatWhile_suffix suffix fuel _).length_le
      rw [if_pos pass, if_pos pass, hr ts rest]
      exact congrArg (Parsed.followedBy _) (ih (by omega) (by omega) h)
    next fail => rw [if_neg fail, if_neg fail]; rfl

/-- A rule that leaves two tokens reads the same in front of more. -/
theorem Steady.run_append {r : Rule} (steady : Steady eof inner r) (eof' : Nat)
    (hi : ∀ s ts, (inner s ts).rest <:+ ts)
    (hc : ∀ s ts, 2 ≤ (inner s ts).rest.length → inner' s (ts ++ us) = (inner s ts).before us)
    {ts : List Token} (h : 2 ≤ (r.run eof inner ts).rest.length) :
    r.run eof' inner' (ts ++ us) = (r.run eof inner ts).before us := by
  -- a question looks at two tokens at most, and so many are left wherever one is asked
  have two := Nat.le_trans h (r.run_suffix eof hi ts).length_le
  induction steady generalizing ts with
  | skip => rfl
  | take =>
    cases ts with
    | nil => cases two
    | cons t ts => rfl
  | missing => exact absent_append (by omega)
  | stray =>
    cases ts with
    | nil => cases two
    | cons t ts => exact wrapped_append (lt_of_wrapped h)
  | recover =>
    cases ts with
    | nil => cases two
    | cons t ts =>
      have less := lt_of_wrapped h
      have length := recoveryLength_append us less
      rw [List.cons_append] at length ⊢
      rw [Rule.run, length]
      exact wrapped_append less
  | nested => exact hc _ ts h
  | @seq p q _ _ ihp ihq =>
    have rest := Nat.le_trans h (q.run_suffix eof hi _).length_le
    simp only [Rule.run]
    rw [ihp rest two]
    exact congrArg (Parsed.followedBy _) (ihq h rest)
  | @node k p _ ih =>
    simp only [Rule.run]
    rw [ih h two]
    have some : 0 < ts.length := by omega
    exact enclosing_append (p.run eof inner ts) some (Nat.lt_of_lt_of_le Nat.zero_lt_two h)
  | @branch test p q _ _ ihp ihq =>
    rw [Rule.run] at h ⊢
    rw [Rule.run, Lookahead.of_append two]
    split at h
    next pass => rw [if_pos pass, if_pos pass, ihp h two]
    next fail => rw [if_neg fail, if_neg fail, ihq h two]
  | @many test p consumes _ ih =>
    refine repeatWhile_append consumes (p.run_suffix eof hi) ?_ (Nat.le_refl _) ?_ h
    · exact fun ts h => ih h (Nat.le_trans h (p.run_suffix eof hi ts).length_le)
    · rw [List.length_append]
      omega
  | @joined p test k q _ _ ihp ihq =>
    simp only [Rule.run] at h ⊢
    split at h
    next pass =>
      have rest := Nat.le_trans h (q.run_suffix eof hi _).length_le
      have some : 0 < ts.length := by omega
      let a := (p.run eof inner ts).followedBy (q.run eof inner (p.run eof inner ts).rest)
      rw [ihp rest two, Parsed.before, Lookahead.of_append rest, if_pos pass, if_pos pass,
        ihq h rest]
      exact enclosing_append a some (Nat.lt_of_lt_of_le Nat.zero_lt_two h)
    next fail =>
      rw [ihp h two, Parsed.before, Lookahead.of_append h, if_neg fail, if_neg fail]
      rfl

/-- A symbol that leaves two tokens reads the same with more tokens behind. -/
lemma runSymbol_append (levels : Nat) (s : Symbol) (ts : List Token)
    (h : 2 ≤ (runSymbol definitionOf eof levels s ts).rest.length) :
    runSymbol definitionOf eof' levels s (ts ++ us) =
      (runSymbol definitionOf eof levels s ts).before us := by
  induction levels generalizing s ts with
  | zero =>
    have less := lt_of_wrapped h
    rw [runSymbol, cutOff, lengthBeforeStop_append less]
    exact wrapped_append less
  | succ levels ih =>
    have steady : Steady eof _ (definitionOf s) :=
      definitionOf_steady (runSymbol_guarded eof levels) s
    exact steady.run_append eof' (runSymbol_suffix _ _) ih h

/-! ## Queries that are ended -/

/-- The last of some nodes is a query that a `;` closes. -/
def endsWithQuery (ns : List Tree) : Bool :=
  ns.getLast?.any fun n => n.kind == .query && n.children.getLast?.any (·.kind == .semicolon)

/-- Of two rows, the last one decides whether a query ends them. -/
lemma endsWithQuery_append {ns ms : List Tree} (h : ms ≠ []) :
    endsWithQuery (ns ++ ms) = endsWithQuery ms := by
  rw [endsWithQuery, List.getLast?_append_of_ne_nil _ h]
  rfl

/-- A node ends with a query if it is one that ends with its semicolon. -/
lemma endsWithQuery_enclosed (k : Kind) (offset : Nat) (cs : List Tree) (rest : List Token) :
    endsWithQuery [enclosed eof k offset cs rest] =
      (k == .query && cs.getLast?.any (·.kind == .semicolon)) := rfl

/-- What is read at each turn of a document. -/
def queryOrError : Rule :=
  .branch (nextIs fun k => k.isSchemaKeyword || k.isStageKeyword) query .recover

/-- A document with a token takes its first turn and goes on with what that leaves. -/
lemma queries_cons (g : Guarded inner) (t : Token) (ts : List Token) :
    queries.run eof inner (t :: ts) =
      (queryOrError.run eof inner (t :: ts)).followedBy
        (queries.run eof inner (queryOrError.run eof inner (t :: ts)).rest) :=
  (turn_consumes g).many_eq rfl

/-- A document with a token has a node. -/
lemma queries_nodes (eof : Nat) (inner : Symbol → List Token → Parsed) (t : Token)
    (ts : List Token) : (queries.run eof inner (t :: ts)).nodes ≠ [] := by
  have some {pre : Front} :
      Opens (fun _ => true) fun l => nextIs (fun _ => true) l = true ∧ pre l :=
    (opens_nextIs fun _ _ => rfl).left
  have turn : Fills (nextIs (fun _ => true) · = true) (queryOrError.run eof inner) :=
    .branch fills_node (fills_recover some)
  exact Fills.many (fun _ hl => hl) (opens_nextIs fun _ hk => hk) turn _ rfl

/-- What a query reads in front of its end. -/
def queryBody : Rule :=
  .branch (nextIs Kind.isSchemaKeyword) querySchema queryPipeline

/-- The optional end of a query. -/
def queryEnd : Rule :=
  .branch (next .kwEnd) (.seq .take (expect .semicolon .semicolon)) .skip

/-- A query is a node over its body and its optional end. -/
lemma query_run (eof : Nat) (inner : Symbol → List Token → Parsed) (ts : List Token) :
    query.run eof inner ts =
      let a := (queryBody.run eof inner ts).followedBy
        (queryEnd.run eof inner (queryBody.run eof inner ts).rest)
      ⟨[enclosed eof .query (offsetOf eof ts) a.nodes a.rest], a.faults, a.rest⟩ := rfl

/-- The body of a query is a single node, and no semicolon. -/
lemma queryBody_nodes (eof : Nat) (inner : Symbol → List Token → Parsed) (ts : List Token) :
    ∃ n, (queryBody.run eof inner ts).nodes = [n] ∧ n.kind ≠ .semicolon := by
  rw [queryBody, Rule.run]
  split
  · exact ⟨_, rfl, Kind.noConfusion⟩
  · exact ⟨_, rfl, Kind.noConfusion⟩

/-- The end of a query is read in full, or its last node is no `;`. -/
lemma queryEnd_run (eof : Nat) (inner : Symbol → List Token → Parsed) (ts : List Token) :
    (∃ e s us, ts = e :: s :: us ∧ e.kind = .kwEnd ∧ s.kind = .semicolon) ∨
    (∀ n, (queryEnd.run eof inner ts).nodes.getLast? = some n → n.kind ≠ .semicolon) := by
  rw [queryEnd, Rule.run]
  split
  next pass =>
    obtain ⟨e, us, rfl, he⟩ := (opens_next (A := (· == .kwEnd)) rfl).exists_cons pass
    rw [Rule.run]
    simp only [Rule.run, expect]
    split
    next pass =>
      obtain ⟨s, us, rfl, hs⟩ := (opens_next (A := (· == .semicolon)) rfl).exists_cons pass
      exact .inl ⟨e, s, us, rfl, eq_of_beq he, eq_of_beq hs⟩
    next =>
      refine .inr fun n hn => ?_
      cases hn
      exact Kind.noConfusion
  next =>
    refine .inr fun n hn => ?_
    cases hn

/-- The end of a query is read the same whatever follows. -/
lemma queryEnd_append {e s : Token} (he : e.kind = .kwEnd) (hs : s.kind = .semicolon)
    (us : List Token) :
    queryEnd.run eof inner (e :: s :: us) = ⟨[leaf e, leaf s], [], us⟩ := by
  simp [queryEnd, expect, Rule.run, next, Lookahead.of, he, hs, Parsed.followedBy]

/-- A node that its last child closes is not stretched. -/
lemma enclosed_of_isClosedBy {k : Kind} {offset : Nat} {cs : List Tree} {rest : List Token}
    (h : isClosedBy k (cs.getLast?.map Tree.kind) = true) :
    enclosed eof k offset cs rest = enclose k offset cs none := by
  rw [enclosed, h]
  simp

/-- A query that a `;` closes has its end behind its body. -/
lemma queryBody_rest (ends : endsWithQuery (query.run eof inner ts).nodes = true) :
    ∃ e s us, (queryBody.run eof inner ts).rest = e :: s :: us ∧
      e.kind = .kwEnd ∧ s.kind = .semicolon := by
  obtain ⟨n, hn, hk⟩ := queryBody_nodes eof inner ts
  rcases queryEnd_run eof inner (queryBody.run eof inner ts).rest with found | other
  · exact found
  · rw [query_run, endsWithQuery_enclosed, Parsed.followedBy, hn] at ends
    cases last : (queryEnd.run eof inner (queryBody.run eof inner ts).rest).nodes.getLast? with
    | none => simp [List.getLast?_cons, last, hk] at ends
    | some m => simp [List.getLast?_cons, last, other m last] at ends

section

variable (g : Guarded inner) (g' : Guarded inner')
  (hc : ∀ s ts, 2 ≤ (inner s ts).rest.length → inner' s (ts ++ us) = (inner s ts).before us)
include g hc

/-- A query with its end at the end of the input is read the same in front of more tokens. -/
lemma query_append (eof' : Nat) (ends : endsWithQuery (query.run eof inner ts).nodes = true)
    (rest : (query.run eof inner ts).rest = []) :
    query.run eof' inner' (ts ++ us) = (query.run eof inner ts).before us ∧
      ∃ e s, [e, s] <:+ ts ∧ s.kind = .semicolon := by
  have steady : Steady eof inner queryBody :=
    .branch (querySchema_steady g) (queryPipeline_steady g)
  obtain ⟨e, s, vs, left, he, hs⟩ := queryBody_rest ends
  have last : (queryEnd.run eof inner (queryBody.run eof inner ts).rest).rest = [] := rest
  rw [left, queryEnd_append he hs] at last
  cases last
  have suffix := queryBody.run_suffix eof g.suffix ts
  have two : 2 ≤ (queryBody.run eof inner ts).rest.length := by
    rw [left]
    exact Nat.le_refl 2
  have continued := steady.run_append eof' g.suffix hc two
  rw [left] at suffix
  have some : 0 < ts.length := Nat.lt_of_lt_of_le Nat.zero_lt_two suffix.length_le
  have closed : isClosedBy .query
      (((queryBody.run eof inner ts).nodes ++ [leaf e, leaf s]).getLast?.map Tree.kind) = true := by
    simp [List.getLast?_append, leaf, hs, isClosedBy]
  refine ⟨?_, e, s, suffix, hs⟩
  simp only [query_run, continued, Parsed.before, left, List.cons_append, List.nil_append,
    queryEnd_append he hs, Parsed.followedBy]
  rw [enclosed_of_isClosedBy closed, enclosed_of_isClosedBy closed,
    offsetOf_append eof eof' some]

/-- A last turn that reads a query with its end is the same in front of more tokens. -/
lemma queryOrError_append (eof' : Nat)
    (ends : endsWithQuery (queryOrError.run eof inner ts).nodes = true)
    (rest : (queryOrError.run eof inner ts).rest = []) :
    queryOrError.run eof' inner' (ts ++ us) = (queryOrError.run eof inner ts).before us ∧
      ∃ e s, [e, s] <:+ ts ∧ s.kind = .semicolon := by
  rw [queryOrError, Rule.run] at ends rest
  rw [queryOrError, Rule.run, Rule.run]
  split at ends
  next pass =>
    rw [if_pos pass] at rest
    obtain ⟨same, e, s, suffix, hs⟩ := query_append g hc eof' ends rest
    rw [Lookahead.of_append suffix.length_le, if_pos pass, if_pos pass, same]
    exact ⟨rfl, e, s, suffix, hs⟩
  next =>
    -- recovery makes an error node, which is no query
    cases ts with
    | nil => cases ends
    | cons t ts =>
      rw [Rule.run, wrapped, endsWithQuery_enclosed] at ends
      cases ends

include g'

/-- Queries, the last one with its end, are read the same in front of more queries. -/
lemma queries_append (ends : endsWithQuery (queries.run eof inner ts).nodes = true) :
    queries.run eof' inner' (ts ++ us) =
      (queries.run eof inner ts).followedBy (queries.run eof' inner' us) ∧
      ∃ e s, [e, s] <:+ ts ∧ s.kind = .semicolon := by
  induction n : ts.length using Nat.strongRecOn generalizing ts with
  | ind n ih =>
    subst n
    cases ts with
    | nil => cases ends
    | cons t ts =>
      have less : (queryOrError.run eof inner (t :: ts)).rest.length < (t :: ts).length :=
        turn_consumes g _ rfl
      have suffix := queryOrError.run_suffix eof g.suffix (t :: ts)
      rw [queries_cons g] at ends ⊢
      rw [List.cons_append, queries_cons g', ← List.cons_append]
      -- the last query is ended by its `;`, and any other one leaves enough tokens
      cases rest : (queryOrError.run eof inner (t :: ts)).rest with
      | nil =>
        have last : endsWithQuery (queryOrError.run eof inner (t :: ts)).nodes = true := by
          rw [rest] at ends
          exact List.append_nil (queryOrError.run eof inner (t :: ts)).nodes ▸ ends
        obtain ⟨same, ended⟩ := queryOrError_append g hc eof' last rest
        rw [same]
        refine ⟨?_, ended⟩
        have none : queries.run eof inner [] = ⟨[], [], []⟩ := rfl
        simp only [Parsed.before, Parsed.followedBy, rest, none, List.nil_append, List.append_nil]
      | cons u vs =>
        rw [rest] at ends less suffix
        rw [Parsed.followedBy, endsWithQuery_append (queries_nodes eof inner u vs)] at ends
        obtain ⟨same, e, s, ended, hs⟩ := ih _ less ends rfl
        have steady : Steady eof inner queryOrError := .branch (query_steady g) .recover
        have turn := steady.run_append eof' g.suffix hc (rest ▸ ended.length_le)
        rw [turn, Parsed.before, rest, same]
        refine ⟨?_, e, s, ended.trans suffix, hs⟩
        simp only [Parsed.followedBy, List.append_assoc]

end

/-- A document that ends with a query and its `;` is read as it is alone, whatever follows. -/
theorem readDocument_append (eof' : Nat) (us : List Token)
    (ends : endsWithQuery (readDocument eof ts).nodes = true) :
    readDocument eof' (ts ++ us) = (readDocument eof ts).followedBy (readDocument eof' us) ∧
      ∃ e s, [e, s] <:+ ts ∧ s.kind = .semicolon :=
  queries_append (runSymbol_guarded eof maxNesting) (runSymbol_guarded eof' maxNesting)
    (runSymbol_append maxNesting) ends

end Grammar

end TypeqlAssist
