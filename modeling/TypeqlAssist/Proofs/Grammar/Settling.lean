import TypeqlAssist.Proofs.Grammar.Continuing
import TypeqlAssist.Proofs.Grammar.Inner

/-!
# A label more at the end

A label behind the last token answers few questions of the grammar in another way, and where it
does, the label is read (`Rule.settles`). So a rule whose nodes are not stretched by the end of the
input reads the same with a label behind the tokens, as long as the label is left
(`Rule.run_word`).
-/

namespace TypeqlAssist

namespace Grammar

open TypeqlAssist.Tree

/-! ## Questions that a label settles -/

/-- The rule takes the next token. -/
def Rule.reads (l : Lookahead) : Rule → Bool
  | take => l.first.isSome
  | seq p _ | node _ p => p.reads l
  | branch test p q => if test l then p.reads l else q.reads l
  | skip | missing _ | stray | recover | nested _ | many _ _ | joined _ _ _ _ => false

/-- The rule takes the next token and then a label. -/
def Rule.readsLabel : Rule → Bool
  | seq take p => p.reads ⟨some .label, none⟩
  | _ => false

/-- A label behind a token leaves the answer as it is, or it is read with the token. -/
def Rule.settles (test : Test) (p : Rule) : Bool :=
  Kind.all.all fun k => test ⟨some k, some .label⟩ == test ⟨some k, none⟩ ||
    test ⟨some k, some .label⟩ && p.readsLabel

/-- A label with nothing in front of it leaves the answer as it is, or it is read. -/
def Rule.settlesEnd (test : Test) (p : Rule) : Bool :=
  test ⟨some .label, none⟩ == test ⟨none, none⟩ ||
    test ⟨some .label, none⟩ && p.reads ⟨some .label, none⟩

/-- The end of the input stretches no node that the rule makes around others. -/
def Rule.isClosed : Rule → Bool
  | skip | take | missing _ => true
  | stray | recover | nested _ | joined _ _ _ _ => false
  | seq p q | branch _ p q => p.isClosed && q.isClosed
  | node k p => !isOpenEnded k && p.isClosed
  | many _ p => p.isClosed

/-- All questions of a closed rule are settled. -/
def Rule.isSettled : Rule → Bool
  | skip | take | missing _ => true
  | stray | recover | nested _ | joined _ _ _ _ => false
  | seq p q => p.isSettled && q.isSettled
  | node k p => !isOpenEnded k && p.isSettled
  | branch test p q => settles test p && settlesEnd test p && (p.isSettled && q.isSettled)
  | many test p => settles test p && settlesEnd test p && p.isSettled

variable {eof eof' : Nat} {inner inner' : Symbol → List Token → Parsed} {ts : List Token}
  {u : Token} {l : Lookahead} {test : Test} {p q r : Rule}

/-- Of a label at the end, one kind is seen ahead. -/
lemma Lookahead.of_label (hu : u.kind = .label) : Lookahead.of [u] = ⟨some .label, none⟩ := by
  rw [← hu]
  rfl

/-- A rule that reads the next token leaves fewer tokens. -/
lemma Rule.lt_of_reads (eof : Nat) (h : r.reads (.of ts) = true)
    (hi : ∀ s ts, (inner s ts).rest <:+ ts) : (r.run eof inner ts).rest.length < ts.length := by
  induction r generalizing ts with
  | take =>
    cases ts with
    | nil => cases h
    | cons t ts => exact Nat.lt_succ_self _
  | seq p q ihp _ => exact Nat.lt_of_le_of_lt (q.run_suffix eof hi _).length_le (ihp h)
  | node k p ih => exact ih h
  | branch test p q ihp ihq =>
    rw [reads] at h
    rw [run]
    split at h
    next pass =>
      rw [if_pos pass]
      exact ihp h
    next fail =>
      rw [if_neg fail]
      exact ihq h
  | skip | missing | stray | recover | nested | many | joined => cases h

/-- A rule that takes a label leaves nothing behind it. -/
lemma Rule.rest_of_reads (eof : Nat) (h : r.reads ⟨some .label, none⟩ = true)
    (hu : u.kind = .label) (hi : ∀ s ts, (inner s ts).rest <:+ ts) :
    (r.run eof inner [u]).rest = [] := by
  have less := Rule.lt_of_reads eof (Lookahead.of_label hu ▸ h) hi
  exact List.length_eq_zero_iff.mp (Nat.lt_one_iff.mp less)

/-- A settled question has the same answer with a label behind a token, or the label is read. -/
lemma Rule.settles_cases (eof : Nat) (h : settles test p = true) (hu : u.kind = .label)
    (hi : ∀ s ts, (inner s ts).rest <:+ ts) (ne : ts ≠ []) :
    test (.of (ts ++ [u])) = test (.of ts) ∨
      test (.of (ts ++ [u])) = true ∧ (p.run eof inner (ts ++ [u])).rest = [] := by
  match ts with
  | [] => exact absurd rfl ne
  | [t] =>
    have two : Lookahead.of [t, u] = ⟨some t.kind, some .label⟩ := by rw [← hu]; rfl
    rcases Bool.or_eq_true_iff.mp (List.all_eq_true.mp h t.kind t.kind.mem_all) with same | read
    · exact .inl (two ▸ eq_of_beq same)
    · obtain ⟨pass, read⟩ := Bool.and_eq_true_iff.mp read
      refine .inr ⟨two ▸ pass, ?_⟩
      unfold readsLabel at read
      split at read
      next p => exact Rule.rest_of_reads eof read hu hi
      next => cases read
  | _ :: _ :: _ => exact .inl rfl

/-- The same at the end of the input. -/
lemma Rule.settlesEnd_cases (eof : Nat) (h : settles test p = true)
    (end' : settlesEnd test p = true) (hu : u.kind = .label)
    (hi : ∀ s ts, (inner s ts).rest <:+ ts) (ts : List Token) :
    test (.of (ts ++ [u])) = test (.of ts) ∨
      test (.of (ts ++ [u])) = true ∧ (p.run eof inner (ts ++ [u])).rest = [] := by
  by_cases none : ts = []
  · subst none
    have first := Lookahead.of_label hu
    rcases Bool.or_eq_true_iff.mp end' with same | read
    · exact .inl (first ▸ eq_of_beq same)
    · obtain ⟨pass, read⟩ := Bool.and_eq_true_iff.mp read
      exact .inr ⟨first ▸ pass, Rule.rest_of_reads eof read hu hi⟩
  · exact settles_cases eof h hu hi none

/-! ## Reading with a label behind -/

/-- A settled rule makes no node that is stretched. -/
lemma Rule.isSettled.closed (h : r.isSettled = true) : r.isClosed = true := by
  induction r with
  | skip | take | missing => rfl
  | seq p q ihp ihq =>
    obtain ⟨sp, sq⟩ := Bool.and_eq_true_iff.mp h
    exact Bool.and_eq_true_iff.mpr ⟨ihp sp, ihq sq⟩
  | node k p ih =>
    obtain ⟨closed, sp⟩ := Bool.and_eq_true_iff.mp h
    exact Bool.and_eq_true_iff.mpr ⟨closed, ih sp⟩
  | branch test p q ihp ihq =>
    obtain ⟨sp, sq⟩ := Bool.and_eq_true_iff.mp (Bool.and_eq_true_iff.mp h).2
    exact Bool.and_eq_true_iff.mpr ⟨ihp sp, ihq sq⟩
  | many test p ih => exact ih (Bool.and_eq_true_iff.mp h).2
  | stray | recover | nested | joined => cases h

/-- No node with children that a closed rule makes is open-ended. -/
lemma Rule.run_closed (closed : r.isClosed = true) (eof : Nat)
    (inner : Symbol → List Token → Parsed) (ts : List Token) :
    InnerKinds (isOpenEnded · = false) (r.run eof inner ts).nodes := by
  induction r generalizing ts with
  | skip => exact .nil
  | take =>
    cases ts with
    | nil => exact .nil
    | cons t ts => exact .leaves [t]
  | missing wanted =>
    intro n hn some
    exact absurd (List.mem_singleton.mp hn ▸ rfl) some
  | seq p q ihp ihq =>
    obtain ⟨cp, cq⟩ := Bool.and_eq_true_iff.mp closed
    exact (ihp cp ts).append (ihq cq _)
  | node k p ih =>
    obtain ⟨hk, cp⟩ := Bool.and_eq_true_iff.mp closed
    exact .enclosed ((Bool.not_eq_true' _).mp hk) (ih cp ts)
  | branch test p q ihp ihq =>
    obtain ⟨cp, cq⟩ := Bool.and_eq_true_iff.mp closed
    rw [run]
    split
    · exact ihp cp ts
    · exact ihq cq ts
  | many test p ih =>
    exact repeatWhile_nodes .nil (fun _ _ => .append) (fun ts _ => ih closed ts) _ ts
  | stray | recover | nested | joined => cases closed

/-- The word starts where the tokens in front of it end. -/
lemma offsetOf_word (start : u.start = eof) (ts : List Token) :
    offsetOf eof' (ts ++ [u]) = offsetOf eof ts := by
  cases ts with
  | nil => exact start
  | cons t ts => rfl

/-- What follows does not stretch a node that is not open-ended. -/
lemma enclosed_closed {k : Kind} (h : isOpenEnded k = false) (offset : Nat) (cs : List Tree)
    (ts us : List Token) : enclosed eof' k offset cs us = enclosed eof k offset cs ts := by
  simp [enclosed, h]

/-- What is left behind a rule was there in front of it. -/
lemma Rule.ne_nil_of_run (hi : ∀ s ts, (inner s ts).rest <:+ ts)
    (left : (r.run eof inner ts).rest ≠ []) : ts ≠ [] := by
  rintro rfl
  exact left (List.suffix_nil.mp (r.run_suffix eof hi []))

/-- A settled rule that leaves the label reads what it reads without the label. -/
theorem Rule.run_word (settled : r.isSettled = true) (steady : Steady eof inner r)
    (steady' : Steady eof' inner' r) (hu : u.kind = .label) (start : u.start = eof)
    (hi : ∀ s ts, (inner' s ts).rest <:+ ts)
    (left : (r.run eof' inner' (ts ++ [u])).rest ≠ []) :
    r.run eof' inner' (ts ++ [u]) = (r.run eof inner ts).before [u] := by
  induction r generalizing ts with
  | skip => rfl
  | take =>
    cases ts with
    | nil => exact absurd rfl left
    | cons t ts => rfl
  | missing wanted =>
    simp only [run, absent, offsetOf_word start]
    rfl
  | seq p q ihp ihq =>
    obtain ⟨sp, sq⟩ := Bool.and_eq_true_iff.mp settled
    cases steady with | seq tp tq
    cases steady' with | seq tp' tq'
    simp only [run] at left ⊢
    have first := ihp sp tp tp' (Rule.ne_nil_of_run hi left)
    rw [first] at left ⊢
    exact congrArg (Parsed.followedBy _) (ihq sq tq tq' left)
  | node k p ih =>
    obtain ⟨closed, sp⟩ := Bool.and_eq_true_iff.mp settled
    cases steady with | node tp
    cases steady' with | node tp'
    simp only [run] at left ⊢
    rw [Bool.not_eq_true'] at closed
    rw [ih sp tp tp' left, offsetOf_word start,
      enclosed_closed closed _ _ (p.run eof inner ts).rest]
    rfl
  | branch test p q ihp ihq =>
    obtain ⟨asked, sides⟩ := Bool.and_eq_true_iff.mp settled
    obtain ⟨front, end'⟩ := Bool.and_eq_true_iff.mp asked
    obtain ⟨sp, sq⟩ := Bool.and_eq_true_iff.mp sides
    cases steady with | branch tp tq
    cases steady' with | branch tp' tq'
    rw [run] at left ⊢
    rw [run]
    -- the label changes the answer only where all tokens are read with it, and then none is left
    rcases settlesEnd_cases eof' front end' hu hi ts with same | ⟨pass, rest⟩
    · rw [← same]
      split at left
      next pass =>
        rw [if_pos pass, if_pos pass]
        exact ihp sp tp tp' left
      next fail =>
        rw [if_neg fail, if_neg fail]
        exact ihq sq tq tq' left
    · rw [if_pos pass] at left
      exact absurd rest left
  | many test p ih =>
    obtain ⟨asked, sp⟩ := Bool.and_eq_true_iff.mp settled
    obtain ⟨front, end'⟩ := Bool.and_eq_true_iff.mp asked
    cases steady with | many consumes tp
    cases steady' with | many consumes' tp'
    -- the turns without the label: as many are taken with it, since each of them leaves the label
    induction ts using consumes.turn_induction with
    | turn ts again =>
      have answer := settlesEnd_cases eof' front end' hu hi ts
      cases pass : test (.of (ts ++ [u])) with
      | false =>
        have same := answer.resolve_right fun read => by simp [pass] at read
        rw [many_stop pass, many_stop (same ▸ pass)]
        rfl
      | true =>
        rw [consumes'.many_eq pass] at left ⊢
        rcases answer with same | ⟨_, rest⟩
        · have pass' : test (.of ts) = true := same ▸ pass
          have turn := ih sp tp tp' (Rule.ne_nil_of_run hi left)
          rw [turn] at left ⊢
          rw [consumes.many_eq pass']
          exact congrArg (Parsed.followedBy _) (again pass' left)
        · exact absurd rest (Rule.ne_nil_of_run hi left)
  | stray | recover | nested | joined => cases settled

end Grammar

end TypeqlAssist
