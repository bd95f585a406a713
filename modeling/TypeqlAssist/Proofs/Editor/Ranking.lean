import Mathlib.Tactic.IntervalCases
import TypeqlAssist.Editor.Item

/-!
# The order of items

Items stand in the order of a stable sort of the candidates by descending boost. Their sort keys
increase strictly byte by byte, whatever the boosts are, since the numbers in a key are filled up to
a fixed width. So a client that sorts by the keys keeps the order, and a larger limit only adds
items at the end (`render_ranked`).
-/

namespace TypeqlAssist

namespace Editor

open Completion (Candidate Result)

/-! ## The order of bytes -/

/-- The bytes of a string in UTF-8. -/
def bytesOf (s : String) : List UInt8 :=
  s.toUTF8.data.toList

/-- The bytes of two strings are those of one and then of the other. -/
lemma bytesOf_append (s t : String) : bytesOf (s ++ t) = bytesOf s ++ bytesOf t := by
  rw [bytesOf, String.toUTF8, String.toByteArray_append, ByteArray.toList_data_append]
  rfl

/-- The bytes of a string are those of its characters. -/
lemma bytesOf_ofList (cs : List Char) :
    bytesOf (String.ofList cs) = cs.flatMap String.utf8EncodeChar := by
  rw [bytesOf, String.toUTF8, String.toByteArray_ofList, List.utf8Encode, List.data_toByteArray]

/-- Of strings of bytes of one length, what follows them does not change the order. -/
lemma append_lt_append {a b : List UInt8} (length : a.length = b.length) (lt : a < b)
    (c d : List UInt8) : a ++ c < b ++ d := by
  induction a generalizing b with
  | nil =>
    cases List.eq_nil_of_length_eq_zero length.symm
    cases lt
  | cons x a ih =>
    cases b with
    | nil => cases length
    | cons y b =>
      rw [List.cons_append, List.cons_append, List.cons_lt_cons_iff]
      refine (List.cons_lt_cons_iff.mp lt).imp_right fun ⟨same, lt⟩ => ⟨same, ?_⟩
      exact ih (Nat.succ.inj length) lt

/-! ## Numbers of a fixed width -/

/-- The byte of a decimal digit. -/
def digitByte (d : Nat) : UInt8 :=
  UInt8.ofNat (48 + d)

/-- A digit is encoded as one byte. -/
lemma utf8EncodeChar_digitChar {d : Nat} (h : d < 10) :
    String.utf8EncodeChar (Nat.digitChar d) = [digitByte d] := by
  interval_cases d <;> rfl

/-- Digits are ordered as their bytes are. -/
lemma digitByte_lt {d e : Nat} (lt : d < e) (he : e < 10) : digitByte d < digitByte e := by
  rw [UInt8.lt_iff_toNat_lt, digitByte, digitByte, UInt8.toNat_ofNat', UInt8.toNat_ofNat']
  omega

/-- A number of one digit takes up one digit. -/
lemma bytesOf_padded_one {n : Nat} (h : n < 10) : bytesOf (padded 1 n) = [digitByte n] := by
  rw [padded, bytesOf_ofList, Nat.toDigits_of_lt_base h, List.length_singleton, Nat.sub_self,
    List.replicate_zero, List.nil_append, List.flatMap_singleton, utf8EncodeChar_digitChar h]

/-- One more place holds the last digit. -/
lemma bytesOf_padded_succ {w : Nat} (hw : 0 < w) (n : Nat) :
    bytesOf (padded (w + 1) n) = bytesOf (padded w (n / 10)) ++ [digitByte (n % 10)] := by
  have last := utf8EncodeChar_digitChar (Nat.mod_lt n (by decide : 10 > 0))
  rw [← last, ← List.flatMap_singleton String.utf8EncodeChar, padded, padded, bytesOf_ofList,
    bytesOf_ofList, ← List.flatMap_append, List.append_assoc]
  congr 1
  by_cases small : n < 10
  · -- all other places are filled with zeros
    rw [Nat.div_eq_of_lt small, Nat.mod_eq_of_lt small, Nat.toDigits_of_lt_base small]
    obtain ⟨v, rfl⟩ := Nat.exists_eq_add_of_lt hw
    simp [List.replicate_succ']
  · have digits : Nat.toDigits 10 n = Nat.toDigits 10 (n / 10) ++ [Nat.digitChar (n % 10)] := by
      rw [Nat.toDigits_eq_if (by decide), if_neg small]
    rw [digits, List.length_append, List.length_singleton, Nat.add_sub_add_right]

/-- A number is filled up to the width if it has no more digits. -/
lemma length_bytesOf_padded {w n : Nat} (h : n < 10 ^ (w + 1)) :
    (bytesOf (padded (w + 1) n)).length = w + 1 := by
  induction w generalizing n with
  | zero => rw [bytesOf_padded_one h, List.length_singleton]
  | succ w ih =>
    rw [bytesOf_padded_succ (Nat.succ_pos w), List.length_append, ih, List.length_singleton]
    exact Nat.div_lt_of_lt_mul (by rwa [Nat.pow_succ'] at h)

/-- Numbers that are filled up to one width are ordered as their bytes are. -/
lemma bytesOf_padded_lt {w n m : Nat} (lt : n < m) (h : m < 10 ^ (w + 1)) :
    bytesOf (padded (w + 1) n) < bytesOf (padded (w + 1) m) := by
  induction w generalizing n m with
  | zero =>
    rw [bytesOf_padded_one (lt.trans h), bytesOf_padded_one h]
    exact List.cons_lt_cons_iff.mpr (.inl (digitByte_lt lt h))
  | succ w ih =>
    rw [bytesOf_padded_succ (Nat.succ_pos w), bytesOf_padded_succ (Nat.succ_pos w)]
    have bound : m / 10 < 10 ^ (w + 1) := Nat.div_lt_of_lt_mul (by rwa [Nat.pow_succ'] at h)
    rcases Nat.lt_or_eq_of_le (Nat.div_le_div_right (c := 10) (Nat.le_of_lt lt)) with less | same
    · refine append_lt_append ?_ (ih less bound) _ _
      rw [length_bytesOf_padded (less.trans bound), length_bytesOf_padded bound]
    · rw [same]
      refine List.append_left_lt (List.cons_lt_cons_iff.mpr (.inl (digitByte_lt ?_ ?_)))
      · omega
      · exact Nat.mod_lt m (by decide)

/-! ## Sort keys -/

/-- The key of an item comes before that of one with a higher rank and no higher boost. -/
lemma sortText_lt {boost boost' : Int} {rank rank' : Nat} (le : boost' ≤ boost)
    (lt : rank < rank') (h : rank' < 10 ^ 10) :
    bytesOf (sortText boost rank) < bytesOf (sortText boost' rank') := by
  simp only [sortText, bytesOf_append, List.append_assoc]
  have later : bytesOf (padded 10 rank) < bytesOf (padded 10 rank') := bytesOf_padded_lt lt h
  generalize first : (max 0 (min 9999 (5000 - boost))).toNat = n
  generalize second : (max 0 (min 9999 (5000 - boost'))).toNat = m
  have bound : m < 10 ^ 4 := by omega
  rcases Nat.lt_or_eq_of_le (show n ≤ m by omega) with less | same
  · refine append_lt_append ?_ (bytesOf_padded_lt less bound) _ _
    rw [length_bytesOf_padded (less.trans bound), length_bytesOf_padded bound]
  · rw [same]
    exact List.append_left_lt (List.append_left_lt later)

/-! ## Ranking -/

/-- Some candidates by descending boost, where those of one boost keep their order. -/
structure IsRanking (order candidates : List Candidate) : Prop where
  perm : order.Perm candidates
  sorted : order.Pairwise fun a b => b.boost ≤ a.boost
  stable : ∀ boost, order.filter (·.boost == boost) = candidates.filter (·.boost == boost)

variable {order other candidates : List Candidate}

/-- Lists by descending boost are the same if they agree on each boost. -/
lemma eq_of_filter_boost (sorted : order.Pairwise fun a b => b.boost ≤ a.boost)
    (sorted' : other.Pairwise fun a b => b.boost ≤ a.boost)
    (same : ∀ boost, order.filter (·.boost == boost) = other.filter (·.boost == boost)) :
    order = other := by
  induction order generalizing other with
  | nil =>
    cases other with
    | nil => rfl
    | cons b other =>
      have first := same b.boost
      rw [List.filter_nil, List.filter_cons_of_pos (by simp)] at first
      cases first
  | cons a order ih =>
    obtain ⟨highest, later⟩ := List.pairwise_cons.mp sorted
    have mem : a ∈ other :=
      (List.mem_filter.mp (same a.boost ▸ List.mem_filter.mpr ⟨.head _, by simp⟩)).1
    cases other with
    | nil => cases mem
    | cons b other =>
      obtain ⟨highest', later'⟩ := List.pairwise_cons.mp sorted'
      have mem' : b ∈ a :: order :=
        (List.mem_filter.mp ((same b.boost).symm ▸ List.mem_filter.mpr ⟨.head _, by simp⟩)).1
      -- both heads have the highest boost, and each list starts with the first of that boost
      have boost : a.boost = b.boost := by
        rcases List.mem_cons.mp mem with rfl | mem
        · rfl
        rcases List.mem_cons.mp mem' with rfl | mem'
        · rfl
        exact Int.le_antisymm (highest' a mem) (highest b mem')
      have heads := same a.boost
      rw [List.filter_cons, List.filter_cons, if_pos (beq_self_eq_true _),
        if_pos (beq_iff_eq.mpr boost.symm)] at heads
      obtain ⟨rfl, _⟩ := List.cons_eq_cons.mp heads
      refine congrArg _ (ih later later' fun k => ?_)
      have rest := same k
      rw [List.filter_cons, List.filter_cons] at rest
      split at rest
      · exact (List.cons_eq_cons.mp rest).2
      · exact rest

/-- There is one ranking of candidates. -/
lemma IsRanking.unique (h : IsRanking order candidates) (h' : IsRanking other candidates) :
    order = other :=
  eq_of_filter_boost h.sorted h'.sorted fun boost => (h.stable boost).trans (h'.stable boost).symm

/-- Candidates are ranked. -/
lemma isRanking_ranked (candidates : List Candidate) :
    IsRanking (ranked candidates) candidates := by
  have trans (a b c : Candidate) : decide (b.boost ≤ a.boost) = true →
      decide (c.boost ≤ b.boost) = true → decide (c.boost ≤ a.boost) = true := by
    simp only [decide_eq_true_eq]
    exact fun le le' => le'.trans le
  have total (a b : Candidate) :
      (decide (b.boost ≤ a.boost) || decide (a.boost ≤ b.boost)) = true := by
    simpa using Int.le_total b.boost a.boost
  have perm : (ranked candidates).Perm candidates := List.mergeSort_perm _ _
  refine ⟨perm, ?_, fun boost => ?_⟩
  · exact (List.pairwise_mergeSort trans total candidates).imp of_decide_eq_true
  · -- the candidates of one boost are sorted as they stand, so the sort keeps them in place
    have kept : (candidates.filter (·.boost == boost)).Pairwise fun a b =>
        decide (b.boost ≤ a.boost) = true := by
      rw [List.pairwise_filter]
      refine List.pairwise_of_forall fun a b ha hb => ?_
      rw [beq_iff_eq] at ha hb
      exact decide_eq_true (Int.le_of_eq (hb.trans ha.symm))
    have sub := (List.sublist_mergeSort trans total kept List.filter_sublist).filter
      (·.boost == boost)
    rw [List.filter_filter, funext fun c : Candidate => Bool.and_self (c.boost == boost)] at sub
    exact (sub.eq_of_length (perm.filter _).length_eq.symm).symm

/-! ## Items -/

/-- Mapping with indices keeps what is in front in front. -/
lemma mapIdx_prefix {α β : Type} {f : Nat → α → β} {as bs : List α} (h : as <+: bs) :
    as.mapIdx f <+: bs.mapIdx f := by
  obtain ⟨cs, rfl⟩ := h
  rw [List.mapIdx_append]
  exact List.prefix_append _ _

/--
Items show the first candidates of the one ranking, as many as are wanted. Each sort key is smaller
than the keys behind it, byte by byte, and a larger limit only adds items at the end.
-/
theorem render_ranked (config : Config) (text : Text) (cursor : Nat) (result : Result)
    (few : result.candidates.length < 10 ^ 10) :
    (∃ order, (∀ other, IsRanking other result.candidates ↔ other = order) ∧
      render config text cursor result =
        (order.take config.maxItems).mapIdx fun rank c =>
          itemOf config (rangeOf text result.replaceFrom cursor) c rank) ∧
    (render config text cursor result).Pairwise
      (fun a b => bytesOf a.sortText < bytesOf b.sortText) ∧
    ∀ m m', m ≤ m' →
      render { config with maxItems := m } text cursor result <+:
        render { config with maxItems := m' } text cursor result := by
  have ranking := isRanking_ranked result.candidates
  refine ⟨⟨_, fun other => ⟨fun h => h.unique ranking, fun e => e ▸ ranking⟩, rfl⟩, ?_, ?_⟩
  · rw [List.pairwise_iff_getElem]
    intro i j hi hj lt
    rw [render, List.length_mapIdx, List.length_take, ranking.perm.length_eq] at hi hj
    have sorted := List.pairwise_iff_getElem.mp ranking.sorted i j
      (by rw [ranking.perm.length_eq]; omega) (by rw [ranking.perm.length_eq]; omega) lt
    simp only [render, List.getElem_mapIdx, List.getElem_take, itemOf]
    exact sortText_lt sorted lt (by omega)
  · exact fun m m' le => mapIdx_prefix (List.take_prefix_take_left le)

/-- Candidates with boosts beyond those that a key can tell apart, and with equal ones. -/
def clampedCandidates : List Candidate :=
  [.ofLabel "$a" .variableName (-20000), .ofLabel "$b" .variableName 3,
    .ofLabel "$c" .variableName 20000, .ofLabel "$d" .variableName 3,
    .ofLabel "$e" .variableName 30000]

/-- Four of the candidates with such boosts. -/
theorem render_ranked_clamped :
    clampedCandidates.length < 10 ^ 10 ∧
    (render ⟨4, true⟩ "match ".toList 6 ⟨6, clampedCandidates⟩).map
      (fun item => (item.label, item.sortText)) =
      [("$e", "0000_0000000000"), ("$c", "0000_0000000001"), ("$b", "4997_0000000002"),
        ("$d", "4997_0000000003")] ∧
    (render ⟨4, true⟩ "match ".toList 6 ⟨6, clampedCandidates⟩).Pairwise
      (fun a b => bytesOf a.sortText < bytesOf b.sortText) ∧
    render ⟨4, true⟩ "match ".toList 6 ⟨6, clampedCandidates⟩ <+:
      render ⟨5, true⟩ "match ".toList 6 ⟨6, clampedCandidates⟩ := by
  have few : clampedCandidates.length < 10 ^ 10 := by decide
  have order : ranked clampedCandidates = [.ofLabel "$e" .variableName 30000,
      .ofLabel "$c" .variableName 20000, .ofLabel "$b" .variableName 3,
      .ofLabel "$d" .variableName 3, .ofLabel "$a" .variableName (-20000)] := by
    simp [ranked, clampedCandidates, Candidate.ofLabel, List.mergeSort]
  obtain ⟨_, keys, grows⟩ :=
    render_ranked ⟨4, true⟩ "match ".toList 6 ⟨6, clampedCandidates⟩ few
  refine ⟨few, ?_, keys, grows 4 5 (by decide)⟩
  rw [render, order]
  decide

end Editor

end TypeqlAssist
