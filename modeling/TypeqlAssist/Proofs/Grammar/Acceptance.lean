import TypeqlAssist.Proofs.Grammar.Placement

/-!
# Acceptance

Whether a rule finds a fault, and where it stops if it finds none, depends on the kinds of the
tokens alone. `Rule.accept` reads kinds and gives up at the first fault; `Rule.accepted_run` shows
that it gives up exactly where `Rule.run` has a fault, and else leaves the same.
-/

namespace TypeqlAssist

namespace Grammar

/-- The first two of some kinds. -/
def Lookahead.ofKinds (ks : List Kind) : Lookahead :=
  ⟨ks.head?, ks.tail.head?⟩

/-- A lookahead sees the kinds of tokens only. -/
lemma Lookahead.of_eq (ts : List Token) : Lookahead.of ts = .ofKinds (ts.map (·.kind)) := by
  cases ts with
  | nil => rfl
  | cons t ts => cases ts <;> rfl

/-- Accepts again and again while the next kinds pass a test, at most `fuel` times. -/
def acceptWhile (test : Test) (accept : List Kind → Option (List Kind)) :
    (fuel : Nat) → List Kind → Option (List Kind)
  | 0, ks => some ks
  | fuel + 1, ks =>
    if test (.ofKinds ks) then (accept ks).bind (acceptWhile test accept fuel) else some ks

/-- The kinds that a rule leaves if it finds no fault. -/
def Rule.accept (inner : Symbol → List Kind → Option (List Kind)) :
    Rule → List Kind → Option (List Kind)
  | skip, ks => some ks
  | take, ks => some ks.tail
  | missing _, _ => none
  | stray, ks | recover, ks => if ks.isEmpty then some [] else none
  | nested symbol, ks => inner symbol ks
  | seq p q, ks => (p.accept inner ks).bind fun rest => q.accept inner rest
  | node _ p, ks => p.accept inner ks
  | branch test p q, ks =>
    if test (.ofKinds ks) then p.accept inner ks else q.accept inner ks
  | many test p, ks => acceptWhile test (fun ks => p.accept inner ks) ks.length ks
  | joined p test _ q, ks =>
    (p.accept inner ks).bind fun rest =>
      if test (.ofKinds rest) then q.accept inner rest else some rest

/-- The kinds that a symbol leaves if it finds no fault, with a number of levels left. -/
def acceptSymbol (definition : Symbol → Rule) :
    (levels : Nat) → Symbol → List Kind → Option (List Kind)
  | 0, _, _ => none
  | levels + 1, symbol, ks => (definition symbol).accept (acceptSymbol definition levels) ks

/-! ## One step of a rule -/

section

variable (inner : Symbol → List Kind → Option (List Kind)) (test : Test) (p q : Rule)
  (ks : List Kind)

/-- With fuel left, a loop goes round if its test passes. -/
lemma acceptWhile_succ (accept : List Kind → Option (List Kind)) (fuel : Nat) :
    acceptWhile test accept (fuel + 1) ks =
      if test (.ofKinds ks) then (accept ks).bind (acceptWhile test accept fuel) else some ks :=
  rfl

/-- Where there is a token, a stray is a fault. -/
lemma Rule.accept_stray : stray.accept inner ks = if ks.isEmpty then some [] else none := rfl

/-- The second of two rules accepts what the first one leaves. -/
lemma Rule.accept_seq :
    (seq p q).accept inner ks = (p.accept inner ks).bind fun rest => q.accept inner rest := rfl

/-- The test of a branch decides which rule accepts. -/
lemma Rule.accept_branch :
    (branch test p q).accept inner ks =
      if test (.ofKinds ks) then p.accept inner ks else q.accept inner ks := rfl

/-- A loop has as much fuel as there are kinds. -/
lemma Rule.accept_many :
    (many test p).accept inner ks =
      acceptWhile test (fun ks => p.accept inner ks) ks.length ks := rfl

/-- What is joined to a rule accepts what that leaves, if the test passes there. -/
lemma Rule.accept_joined (k : Kind) :
    (joined p test k q).accept inner ks =
      (p.accept inner ks).bind fun rest =>
        if test (.ofKinds rest) then q.accept inner rest else some rest := rfl

end

/-! ## Agreement with reading -/

/-- The kinds that are left, if there is no fault. -/
def Parsed.accepted (a : Parsed) : Option (List Kind) :=
  if a.faults.isEmpty then some (a.rest.map (·.kind)) else none

/-- Two readings have no fault if neither has one, and leave what the second one does. -/
lemma Parsed.accepted_followedBy (a b : Parsed) :
    (a.followedBy b).accepted = a.accepted.bind fun _ => b.accepted := by
  obtain ⟨ns, fs, ts⟩ := a
  cases fs <;> rfl

variable {eof : Nat} {inner : Symbol → List Token → Parsed}
  {accept : Symbol → List Kind → Option (List Kind)}

/-- What is left if there is no fault goes on to what is read next. -/
lemma Parsed.accepted_then {a : Parsed} {read : List Token → Parsed}
    {next : List Kind → Option (List Kind)}
    (h : ∀ ts, (read ts).accepted = next (ts.map (·.kind))) :
    (a.followedBy (read a.rest)).accepted = a.accepted.bind next := by
  rw [accepted_followedBy, h]
  unfold accepted
  split <;> rfl

/-- What comes next only depends on what is left. -/
lemma Parsed.accepted_bind {a : Parsed} {f g : List Kind → Option (List Kind)}
    (h : f (a.rest.map (·.kind)) = g (a.rest.map (·.kind))) :
    a.accepted.bind f = a.accepted.bind g := by
  unfold accepted
  split
  · exact h
  · rfl

/-- A loop without a fault goes round as it does on kinds. -/
lemma accepted_repeatWhile {test : Test} {read : List Token → Parsed}
    {next : List Kind → Option (List Kind)}
    (h : ∀ ts, (read ts).accepted = next (ts.map (·.kind))) (fuel : Nat) (ts : List Token) :
    (repeatWhile test read fuel ts).accepted =
      acceptWhile test next fuel (ts.map (·.kind)) := by
  induction fuel generalizing ts with
  | zero => rfl
  | succ fuel ih =>
    rw [repeatWhile, acceptWhile_succ, Lookahead.of_eq]
    split
    · rw [Parsed.accepted_then ih, h]
    · rfl

/-- A rule accepts as it reads. -/
theorem Rule.accepted_run (hi : ∀ s ts, (inner s ts).accepted = accept s (ts.map (·.kind)))
    (r : Rule) (ts : List Token) :
    (r.run eof inner ts).accepted = r.accept accept (ts.map (·.kind)) := by
  induction r generalizing ts with
  | skip => rfl
  | take => cases ts <;> rfl
  | missing wanted => rfl
  | stray => cases ts <;> rfl
  | recover => cases ts <;> rfl
  | nested s => exact hi s ts
  | seq p q ihp ihq =>
    rw [run, accept_seq, Parsed.accepted_then ihq, ihp]
  | node k p ih => exact ih ts
  | branch test p q ihp ihq =>
    rw [run, accept_branch, Lookahead.of_eq]
    split
    · exact ihp ts
    · exact ihq ts
  | many test p ih =>
    rw [run, accept_many, accepted_repeatWhile ih, List.length_map]
  | joined p test k q ihp ihq =>
    simp only [run, accept_joined, ← ihp, Lookahead.of_eq]
    split
    next pass =>
      change ((p.run eof inner ts).followedBy _).accepted = _
      rw [Parsed.accepted_then ihq]
      exact Parsed.accepted_bind (if_pos pass).symm
    next fail =>
      refine Eq.trans (Option.bind_fun_some _).symm ?_
      exact Parsed.accepted_bind (if_neg fail).symm

/-- A symbol without a fault is read as it is accepted on kinds, with any number of levels left. -/
lemma accepted_runSymbol (definition : Symbol → Rule) (levels : Nat) (s : Symbol)
    (ts : List Token) :
    (runSymbol definition eof levels s ts).accepted =
      acceptSymbol definition levels s (ts.map (·.kind)) := by
  induction levels generalizing s ts with
  | zero => rfl
  | succ levels ih => exact Rule.accepted_run ih _ ts

/-- The kinds that the queries of a document leave if they find no fault. -/
def acceptQueries (ks : List Kind) : Option (List Kind) :=
  queries.accept (acceptSymbol definitionOf maxNesting) ks

/-- A document has no fault exactly if its queries accept all of its kinds. -/
theorem readDocument_faults_eq_nil_iff (eof : Nat) (ts : List Token) :
    (readDocument eof ts).faults = [] ↔ acceptQueries (ts.map (·.kind)) = some [] := by
  have accepted : (readDocument eof ts).accepted = acceptQueries (ts.map (·.kind)) :=
    Rule.accepted_run (accepted_runSymbol definitionOf maxNesting) queries ts
  rw [← accepted, Parsed.accepted, readDocument_rest]
  cases (readDocument eof ts).faults <;> simp

end Grammar

end TypeqlAssist
