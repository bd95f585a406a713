import TypeqlAssist.Proofs.Grammar.Guards

/-!
# Gaps

A gap is a fault without width. `Rule.leads` tells from the shape of a rule that it reads a token
before it may note a gap. A query does, and what is read between queries has a width, so every gap
of a document stands behind a keyword that opens a query (`readDocument_gap`).
-/

namespace TypeqlAssist

open Grammar

variable {P : Nat → Prop} {eof lo n : Nat} {t : Token} {ts us : List Token}

/-- Whatever is left behind a token starts behind it. -/
lemma Spaced.stop_le_offsetOf (h : Spaced P eof lo (t :: ts)) (rest : us <:+ ts) :
    t.stop ≤ offsetOf eof us := by
  cases h with
  | cons _ _ _ _ h =>
    obtain ⟨front, rfl⟩ := rest
    exact h.leaves.1.le

namespace Grammar

/-- Faults in order do not overlap. -/
lemma Ranged.separated {hi : Nat} {fs : List Fault} (h : Ranged P lo fs hi) :
    fs.Pairwise fun f g => f.stop ≤ g.start := by
  induction h with
  | nil => exact .nil
  | cons _ _ _ _ rest ih => exact .cons (fun g hg => (rest.of_mem hg).1) ih

/-- Every gap that was noted is at an offset or behind it. -/
def GapsFrom (n : Nat) (a : Parsed) : Prop :=
  ∀ f ∈ a.faults, f.start = f.stop → n ≤ f.start

/-- Faults with a width are no gaps. -/
lemma gapsFrom_of_width {a : Parsed} (h : ∀ f ∈ a.faults, f.start < f.stop) : GapsFrom n a :=
  fun f hf flat => absurd flat (Nat.ne_of_lt (h f hf))

/-- Where there is no fault, there is no gap. -/
lemma gapsFrom_of_nil {a : Parsed} (h : a.faults = []) : GapsFrom n a := by
  intro f hf
  rw [h] at hf
  cases hf

/-- Once a token is read all gaps are behind it, so that the second part counts only before. -/
lemma GapsFrom.followedBy {a b : Parsed} (spaced : Spaced P eof lo (t :: ts))
    (ha : Reading P eof (t :: ts) a) (hb : Reading P eof a.rest b) (first : GapsFrom t.stop a)
    (second : a.rest = t :: ts → GapsFrom t.stop b) : GapsFrom t.stop (a.followedBy b) := by
  intro f hf flat
  rcases List.mem_append.mp hf with hf | hf
  · exact first f hf flat
  · rcases List.suffix_cons_iff.mp ha.suffix with all | less
    · exact second all f hf flat
    · exact Nat.le_trans (spaced.stop_le_offsetOf less) (hb.ranged.of_mem hf).1

/-- Wrapped tokens have a width. -/
lemma wrapped_width {cause : Cause} (h : Spaced P eof lo (t :: ts)) (pos : 0 < n) :
    ∀ f ∈ (wrapped eof cause n (t :: ts)).faults, f.start < f.stop := by
  intro f hf
  obtain ⟨m, rfl⟩ := Nat.exists_eq_succ_of_ne_zero (Nat.ne_of_gt pos)
  cases List.mem_singleton.mp hf
  cases h with
  | cons _ lt _ _ h =>
    rw [List.take_succ_cons, List.getLast?_cons]
    change t.start < ((ts.take m).getLast?.getD t).stop
    cases last : (ts.take m).getLast? with
    | none => exact lt
    | some u =>
      -- the last of the tokens starts behind the first one
      obtain ⟨front, back, rfl⟩ :=
        List.append_of_mem (List.mem_of_mem_take (List.mem_of_getLast? last))
      have after : t.stop ≤ u.start := h.leaves.1.le
      have width := h.width u (List.mem_append_right _ (.head _))
      dsimp only [Option.getD_some]
      omega

/-- What recovery skips has a width. -/
lemma recover_width {inner : Symbol → List Token → Parsed} (h : Spaced P eof lo (t :: ts)) :
    ∀ f ∈ (Rule.recover.run eof inner (t :: ts)).faults, f.start < f.stop := by
  refine wrapped_width h ?_
  rw [recoveryLength]
  split <;> exact Nat.succ_pos _

/-! ## Rules -/

/-- The rule reads the next token, whatever it is, and does nothing else. -/
def Rule.isTake : Rule → Bool
  | take => true
  | _ => false

/-- The rule reads a token before it may note a gap. -/
def Rule.leads : Rule → Bool
  | skip | take | stray | recover => true
  | missing _ | nested _ => false
  | seq p q => p.leads && (p.isTake || q.leads)
  | branch _ p q | joined p _ _ q => p.leads && q.leads
  | node _ p | many _ p => p.leads

variable {inner : Symbol → List Token → Parsed}

/-- A rule that takes a token leaves those behind it. -/
lemma Rule.run_isTake {r : Rule} (h : r.isTake = true) :
    (r.run eof inner (t :: ts)).rest = ts := by
  cases r with
  | take => rfl
  | _ => cases h

/-- Reading again and again notes no gap in front of a token that the first time is read. -/
lemma GapsFrom.repeatWhile {test : Test} {read : List Token → Parsed}
    (hr : ∀ ts, Spaced P eof (offsetOf eof ts) ts → Reading P eof ts (read ts))
    (h : Spaced P eof (offsetOf eof (t :: ts)) (t :: ts)) (first : GapsFrom t.stop (read (t :: ts)))
    (fuel : Nat) : GapsFrom t.stop (repeatWhile test read fuel (t :: ts)) := by
  induction fuel with
  | zero => exact gapsFrom_of_nil rfl
  | succ fuel ih =>
    rw [Grammar.repeatWhile]
    split
    · have reading := hr _ h
      refine first.followedBy h reading (Reading.repeatWhile hr fuel reading.spaced) ?_
      intro all
      rw [all]
      exact ih
    · exact gapsFrom_of_nil rfl

/-- A rule that leads notes every gap behind the next token. -/
theorem Rule.run_leads (peof : P eof)
    (hi : ∀ s ts, Spaced P eof (offsetOf eof ts) ts → Reading P eof ts (inner s ts)) {r : Rule}
    (hk : .error ∉ r.kinds) (hl : r.leads = true)
    (h : Spaced P eof (offsetOf eof (t :: ts)) (t :: ts)) :
    GapsFrom t.stop (r.run eof inner (t :: ts)) := by
  induction r with
  | skip | take => exact gapsFrom_of_nil rfl
  | missing | nested => cases hl
  | stray => exact gapsFrom_of_width (wrapped_width h Nat.one_pos)
  | recover => exact gapsFrom_of_width (recover_width h)
  | seq p q ihp ihq =>
    simp only [kinds, List.mem_append, not_or] at hk
    obtain ⟨first, second⟩ := Bool.and_eq_true_iff.mp hl
    have reading := run_reading peof hi hk.1 h
    refine (ihp hk.1 first).followedBy h reading (run_reading peof hi hk.2 reading.spaced) ?_
    intro all
    rcases (Bool.or_eq_true _ _).mp second with taken | second
    · rw [run_isTake taken] at all
      exact absurd all.symm (List.cons_ne_self t ts)
    · rw [all]
      exact ihq hk.2 second
  | node k p ih =>
    simp only [kinds, List.mem_cons, not_or] at hk
    exact ih hk.2 hl
  | branch test p q ihp ihq =>
    simp only [kinds, List.mem_append, not_or] at hk
    obtain ⟨first, second⟩ := Bool.and_eq_true_iff.mp hl
    rw [run]
    split
    · exact ihp hk.1 first
    · exact ihq hk.2 second
  | many test p ih =>
    have hk : .error ∉ p.kinds := hk
    exact .repeatWhile (fun _ => run_reading peof hi hk) h (ih hk hl) _
  | joined p test k q ihp ihq =>
    simp only [kinds, List.mem_cons, List.mem_append, not_or] at hk
    obtain ⟨first, second⟩ := Bool.and_eq_true_iff.mp hl
    have reading := run_reading peof hi hk.2.1 h
    simp only [run]
    split
    · refine (ihp hk.2.1 first).followedBy h reading (run_reading peof hi hk.2.2 reading.spaced) ?_
      intro all
      rw [all]
      exact ihq hk.2.2 second
    · exact ihp hk.2.1 first

/-! ## Documents -/

/-- The keyword opens a query. -/
def opensQuery (k : Kind) : Bool :=
  k.isSchemaKeyword || k.isStageKeyword

/-- Every gap of a document stands behind a keyword that opens a query. -/
theorem readDocument_gap (peof : P eof) (h : Spaced P eof (offsetOf eof ts) ts) :
    ∀ f ∈ (readDocument eof ts).faults, f.start = f.stop →
      ∃ t ∈ ts, opensQuery t.kind = true ∧ t.stop ≤ f.start := by
  have hi (s : Symbol) (ts : List Token) (h : Spaced P eof (offsetOf eof ts) ts) :
      Reading P eof ts (runSymbol definitionOf eof maxNesting s ts) :=
    runSymbol_reading peof error_not_mem_kinds.2 maxNesting s h
  refine repeatWhile_induction
    (motive := fun ts a => Spaced P eof (offsetOf eof ts) ts → ∀ f ∈ a.faults, f.start = f.stop →
      ∃ t ∈ ts, opensQuery t.kind = true ∧ t.stop ≤ f.start)
    (fun _ _ => nofun) ?_ ts.length ts h
  intro ts others pass ho h f hf flat
  cases ts with
  | nil => contradiction
  | cons t ts =>
    rcases List.mem_append.mp hf with hf | hf
    · -- a query, which starts with its keyword, or something with a width
      rw [Rule.run] at hf
      split at hf
      next opens =>
        have query := Rule.run_leads (r := query) peof hi (by decide) (by decide) h
        exact ⟨t, .head _, opens, query f hf flat⟩
      next => exact absurd flat (Nat.ne_of_lt (recover_width h f hf))
    · have reading := Rule.run_reading peof hi
        (r := .branch (nextIs opensQuery) query .recover) (by decide) h
      obtain ⟨u, hu, opens, before⟩ := ho reading.spaced f hf flat
      exact ⟨u, reading.suffix.subset hu, opens, before⟩

end Grammar

end TypeqlAssist
