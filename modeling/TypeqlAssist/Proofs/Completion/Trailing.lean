import TypeqlAssist.Proofs.Completion.Redefinition
import TypeqlAssist.Proofs.Completion.Replacement
import TypeqlAssist.Proofs.Token.Isolation

/-!
# Blanks at the end

A text with blanks behind its last token is read to the same tree whatever the blanks are: only what
reaches up to the end of the document ends elsewhere. So a cursor at the end is resolved to the same
place, and the same is offered there, with nothing to replace (`complete_of_trailing`).
-/

namespace TypeqlAssist

open TypeqlAssist.Tree Grammar Location Lexer

/-! ## Tokens in front of blanks -/

/-- A token that ends in front of a character that separates tokens is the same without it. -/
lemma Lexer.measure_append_of_ends {c s : Char} {cs ds : Text} (hs : separates s = true)
    (h : (measure c (cs ++ s :: ds)).2 ≤ cs.length + 1) :
    measure c (cs ++ s :: ds) = measure c cs := by
  refine measure_append_of_string hs fun quote => ?_
  rw [measure_quote quote] at h
  exact stringLength_append_of_le c (Nat.le_of_succ_le_succ h)

/-- What no token reaches into leaves the tokens in front of it as they are. -/
theorem tokenize_append_of_within {s : Char} (hs : separates s = true) (b : Text) {a : Text}
    (within : ∀ t ∈ tokenize (a ++ s :: b), t.stop ≤ a.byteSize) :
    tokenize (a ++ s :: b) = tokenize a := by
  induction a using gap_induction with
  | trivia a none =>
    -- a token behind blanks and comments would stop behind them
    rw [tokenize_trivia none]
    refine List.eq_nil_iff_forall_not_mem.mpr fun t ht => ?_
    have starts := byteSize_le_start_of_trivia none ht
    have wide := (tokenize_spaced _).width t ht
    have stops := within t ht
    omega
  | token gap c cs length ih =>
    rw [List.append_assoc, List.cons_append,
      tokenize_cons (triviaLength_gap length (s :: b))] at within ⊢
    obtain ⟨first, rest⟩ := List.forall_mem_cons.mp within
    rw [Text.byteSize_append] at first
    have le : (measure c (cs ++ s :: b)).2 ≤ cs.length + 1 :=
      measure_le_of_byteSize_le (Nat.le_of_add_le_add_left first)
    have same := measure_append_of_ends hs le
    have keep := same ▸ le
    rw [same, ← List.cons_append, List.take_append_of_le_length keep,
      List.drop_append_of_le_length keep] at rest ⊢
    have size := byteSize_behind gap c cs
    have behind : ∀ t ∈ tokenize ((c :: cs).drop (measure c cs).2 ++ s :: b),
        t.stop ≤ Text.byteSize ((c :: cs).drop (measure c cs).2) := by
      intro t ht
      have stops := rest _ (List.mem_map_of_mem ht)
      simp only [Token.shift] at stops
      omega
    rw [tokenize_cons length, ih behind]

/-- Blanks, at least one, behind all tokens of a text. -/
structure Trailing (s w : Text) : Prop where
  nonempty : w ≠ []
  blank : ∀ c ∈ w, isBlank c = true
  within : ∀ t ∈ tokenize (s ++ w), t.stop ≤ s.byteSize

namespace Trailing

variable {s w w' : Text}

/-- The blanks have a width. -/
lemma pos (h : Trailing s w) : 0 < w.byteSize :=
  Nat.pos_of_ne_zero fun none => h.nonempty (Text.eq_nil_of_byteSize none)

/-- Blanks behind all tokens change none of them. -/
lemma tokenize_eq (h : Trailing s w) : tokenize (s ++ w) = tokenize s := by
  obtain ⟨nonempty, blank, within⟩ := h
  cases w with
  | nil => exact absurd rfl nonempty
  | cons c w => exact tokenize_append_of_within (separates_of_isBlank (blank c (.head _))) w within

end Trailing

/-! ## Moving the end of a document -/

/-- The change that moves the end of a document from `p` to `q`, and nothing up to `n`. -/
def Recast.moveEnd (n p q : Nat) (le : n ≤ q) : Recast where
  kind _ k := k
  offset m := if m < p then min m n else q
  mono := by
    intro m m' le'
    dsimp only
    split <;> split <;> omega
  recasts _ k := .same k

section

variable {n p q : Nat}

/-- Moving the end of the document moves the cursor there. -/
lemma Recast.syncs_moveEnd (lt : n < q) : (moveEnd n p q lt.le).Syncs p q := by
  intro m
  simp only [moveEnd]
  split <;> omega

/-- Moving the end changes no kind. -/
lemma Recast.kind_moveEnd (le : n ≤ q) (a : Nat) (k : Kind) : k = (moveEnd n p q le).kind a k :=
  rfl

/-- The end is moved. -/
lemma Recast.offset_moveEnd (le : n ≤ q) : (moveEnd n p q le).offset p = q :=
  if_neg (Nat.lt_irrefl p)

/-- What stands before the end is not moved. -/
lemma Recast.offset_moveEnd_of_le (le : n ≤ q) (lt : n < p) {m : Nat} (hm : m ≤ n) :
    (moveEnd n p q le).offset m = m := by
  simp only [moveEnd]
  split <;> omega

end

namespace Trailing

variable {s w w' : Text}

/-- The text is longer with the blanks. -/
lemma lt (h : Trailing s w) : s.byteSize < Text.byteSize (s ++ w) := by
  have pos := h.pos
  rw [Text.byteSize_append]
  omega

/-- With other blanks behind the tokens, only the end of the tree is moved. -/
lemma parseTree_eq (h : Trailing s w) (h' : Trailing s w') :
    parseTree (s ++ w') = (parseTree (s ++ w)).recast
      (.moveEnd s.byteSize (Text.byteSize (s ++ w)) (Text.byteSize (s ++ w')) h'.lt.le) := by
  refine parseTree_recast (Recast.offset_moveEnd_of_le _ h.lt (Nat.zero_le _))
    (Recast.offset_moveEnd _).symm ?_
  rw [h'.tokenize_eq, h.tokenize_eq]
  refine (List.map_id' _).symm.trans (List.map_congr_left fun t ht => ?_)
  obtain ⟨start, stop⟩ := ends_of_mem ht
  rw [Recast.token, Recast.offset_moveEnd_of_le _ h.lt start.le,
    Recast.offset_moveEnd_of_le _ h.lt stop]
  rfl

/-- Blanks hold no words. -/
lemma candidates_eq (h : Trailing s w) (g : Completion.Generator) :
    g.candidates (parseTree (s ++ w)) (s ++ w) = g.block s := by
  have tokens : tokenize (s ++ w) = tokenize s ++ [] := by rw [h.tokenize_eq, List.append_nil]
  have words (k : Kind) : wordsOf (s ++ w) k = wordsOf s k := wordsOf_append tokens nofun
  rw [Completion.Generator.candidates_parseTree]
  exact Completion.Generator.block_congr g (words .label) (words .var)

end Trailing

namespace Completion

variable {s w w' : Text}

/-- Behind blanks, there is no word to replace. -/
lemma wordStart_of_trailing (h : Trailing s w) :
    wordStart (s ++ w) (Text.byteSize (s ++ w)) = Text.byteSize (s ++ w) := by
  have last : ∀ c ∈ (s ++ w).getLast?, isWordChar c = false := by
    intro c hc
    rw [List.getLast?_append_of_ne_nil _ h.nonempty] at hc
    exact isWordChar_of_isBlank (h.blank c (List.mem_of_getLast? hc))
  have start := wordStart_append (v := []) [] nofun last
  rwa [List.append_nil, List.append_nil] at start

/-- What is offered at the end of a text replaces the word there. -/
lemma complete_eq_offeredAt {text : Text} {n : Nat} (start : wordStart text text.byteSize = n) :
    complete (parseTree text) text text.byteSize =
      (offeredAt text text.byteSize).map (Result.mk n) := by
  rw [offeredAt]
  cases offered : complete (parseTree text) text text.byteSize with
  | none => rfl
  | some r =>
    have replaced := replaceFrom_eq offered
    rw [Nat.min_self, start] at replaced
    simp [← replaced]

/-- Whatever the blanks are, the nodes at the end of the document say the same. -/
lemma contextsAt_trailing (h : Trailing s w) (h' : Trailing s w') :
    let p := Text.byteSize (s ++ w)
    let q := Text.byteSize (s ++ w')
    List.Forall₂ (fun x y => consult q y = consult p x)
      (contextsAt ((parseTree (s ++ w)).resolve p) p)
      (contextsAt ((parseTree (s ++ w')).resolve q) q) := by
  intro p q
  have sync := Recast.syncs_moveEnd (p := p) h'.lt
  have stops : q ≤ (Recast.moveEnd s.byteSize p q h'.lt.le).offset (parseTree (s ++ w)).stop := by
    rw [← stop_recast, ← h.parseTree_eq h']
    exact Nat.le_refl _
  have plain := Recast.kind_moveEnd (p := p) h'.lt.le
  rw [h.parseTree_eq h', resolve_recast sync (Nat.le_refl _) stops]
  refine (contextsAt_forall₂ plain sync _).imp fun x y moved =>
    consult_recast_of_firing sync moved.1 fun e _ rs _ => ?_
  rw [List.forall₂_eq_eq_eq] at moved
  rw [moved.2]

/--
Whatever blanks stand behind the tokens of a text, at least one, the same is offered at the end of
the document, and it replaces nothing.
-/
theorem complete_of_trailing (s w w' : Text) (h : Trailing s w) (h' : Trailing s w') :
    ∃ offered : Option (List Candidate),
      complete (parseTree (s ++ w)) (s ++ w) (Text.byteSize (s ++ w)) =
        offered.map (Result.mk (Text.byteSize (s ++ w))) ∧
      complete (parseTree (s ++ w')) (s ++ w') (Text.byteSize (s ++ w')) =
        offered.map (Result.mk (Text.byteSize (s ++ w'))) := by
  have same : climb (parseTree (s ++ w')) (s ++ w') _ _ = climb (parseTree (s ++ w)) (s ++ w) _ _ :=
    climb_forall₂ (fun g => (h'.candidates_eq g).trans (h.candidates_eq g).symm)
      (contextsAt_trailing h h')
  have offer {v : Text} (hv : Trailing s v) := complete_eq_offeredAt (wordStart_of_trailing hv)
  refine ⟨_, offer h, ?_⟩
  rw [offer h']
  congr 1
  rw [offeredAt_eq, offeredAt_eq]
  simp only [Nat.min_self, same]

/-- Behind an unfinished constraint, a blank more and a line feed do not matter. -/
theorem complete_of_trailing_isa :
    Trailing "match $x isa".toList " ".toList ∧ Trailing "match $x isa".toList " \n\t".toList ∧
    (offeredAt "match $x isa ".toList 13).isSome = true ∧
    ∃ offered : Option (List Candidate),
      complete (parseTree "match $x isa ".toList) "match $x isa ".toList 13 =
        offered.map (Result.mk 13) ∧
      complete (parseTree "match $x isa \n\t".toList) "match $x isa \n\t".toList 15 =
        offered.map (Result.mk 15) := by
  have blank : Trailing "match $x isa".toList " ".toList :=
    ⟨by decide, List.all_eq_true.mp (by decide), by decide +kernel⟩
  have blanks : Trailing "match $x isa".toList " \n\t".toList :=
    ⟨by decide, List.all_eq_true.mp (by decide), by decide +kernel⟩
  exact ⟨blank, blanks, by decide +kernel,
    complete_of_trailing "match $x isa".toList " ".toList " \n\t".toList blank blanks⟩

end Completion

end TypeqlAssist
