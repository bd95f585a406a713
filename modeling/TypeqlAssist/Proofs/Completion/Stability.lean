import Mathlib.Data.List.Find
import TypeqlAssist.Completion.Result
import TypeqlAssist.Proofs.Document.Cursor

/-!
# Cursors in one token or gap

A cursor is only ever compared with the ends of nodes, and every node of a document below the root
ends where a token or the document does. So two cursors that no such end separates, since they
stand in one token or in one gap between tokens, are offered the same candidates
(`candidates_of_sameSpot`).
-/

namespace TypeqlAssist

open TypeqlAssist.Tree Grammar Location

/-! ## Cursors that agree -/

/-- No offset that satisfies `P` stands before one cursor and not before the other. -/
def Agree (P : Nat → Prop) (p q : Nat) : Prop :=
  ∀ n, P n → (n < p ↔ n < q)

variable {P : Nat → Prop} {p q : Nat}

/-- An offset stands before both cursors or before none. -/
lemma Agree.decide_lt {n : Nat} (h : Agree P p q) (hn : P n) : decide (n < p) = decide (n < q) :=
  decide_eq_decide.mpr (h n hn)

/-- An offset stands at or behind both cursors or none. -/
lemma Agree.decide_le {n : Nat} (h : Agree P p q) (hn : P n) : decide (p ≤ n) = decide (q ≤ n) := by
  have lt := h n hn
  exact decide_eq_decide.mpr (by omega)

/-! ## What is read off a tree at a cursor -/

namespace Tree

variable {t root : Tree} {lo hi : Nat}

/-- Both cursors touch a node or none does. -/
lemma touches_agree (h : Agree P p q) (start : P t.start) (stop : P t.stop) :
    t.touches p = t.touches q := by
  rw [touches, touches, h.decide_lt start, h.decide_le stop]

/-- The child before a cursor is the same for cursors that agree. -/
lemma childBefore?_agree (h : Agree P p q) (laid : Laid P lo t.children hi) :
    t.childBefore? p = t.childBefore? q := by
  have same (c) (hc : c ∈ t.children.reverse) : decide (c.start < p) = decide (c.start < q) :=
    h.decide_lt (laid.of_mem (List.mem_reverse.mp hc)).2.2.1
  rw [childBefore?, childBefore?]
  exact List.find?_congr same

/-- Tests that agree on a list drop the same of it. -/
lemma dropWhile_congr {α : Type} {f g : α → Bool} {l : List α} (h : ∀ a ∈ l, f a = g a) :
    l.dropWhile f = l.dropWhile g := by
  induction l with
  | nil => rfl
  | cons a l ih =>
    obtain ⟨first, rest⟩ := List.forall_mem_cons.mp h
    rw [List.dropWhile, List.dropWhile, first, ih rest]

/-- The same kinds stand before both cursors. -/
lemma kindsUpTo_agree (h : Agree P p q) (laid : Laid P lo t.children hi) :
    t.kindsUpTo p = t.kindsUpTo q := by
  have same (c) (hc : c ∈ t.children.reverse) : decide (p ≤ c.start) = decide (q ≤ c.start) :=
    h.decide_le (laid.of_mem (List.mem_reverse.mp hc)).2.2.1
  rw [kindsUpTo, kindsUpTo, dropWhile_congr same]

mutual

/-- Cursors that agree go down the same way. -/
lemma descend_agree (h : Agree P p q) (path : List Step) :
    ∀ t : Tree, Laid P t.start t.children t.stop → descend p path t = descend q path t
  | node k a b cs, laid => by
    rw [descend, descend, descendLast_agree h (node k a b cs) path 0 cs laid]

/-- Both cursors lead into the same child. -/
lemma descendLast_agree (h : Agree P p q) (parent : Tree) (path : List Step) (index : Nat) :
    ∀ (ts : List Tree) {lo hi : Nat}, Laid P lo ts hi →
      descendLast p parent path index ts = descendLast q parent path index ts
  | [], _, _, _ => rfl
  | t :: ts, _, hi, laid => by
    obtain ⟨_, _, start, stop, inner⟩ := laid.of_mem (.head _)
    have rest : Laid P t.stop ts hi := by
      cases laid
      assumption
    rw [descendLast, descendLast, descendLast_agree h parent path (index + 1) ts rest,
      touches_agree h start stop, descend_agree h _ t inner]

end

/-- Below a node whose children are laid out, all nodes have children that are. -/
lemma Laid.of_mem_node {n : Tree} (laid : Laid P t.start t.children t.stop)
    (hn : n ∈ t.preorder) : Laid P n.start n.children n.stop := by
  obtain ⟨k, a, b, cs⟩ := t
  rcases List.mem_cons.mp hn with rfl | hn
  · exact laid
  · exact (laid.of_mem_preorder hn).2.2.2.2

/-- What is above a location is in the tree. -/
lemma Location.Reaches.ancestors_mem {l : Location} (h : Reaches (ofRoot root) l) :
    ∀ a ∈ l.ancestors, a ∈ root.preorder := by
  intro a ha
  obtain ⟨m, _, down, _, rfl⟩ := Reaches.exists_of_mem_ancestors h ha
  exact Reaches.mem_preorder down

end Tree

namespace Completion

variable {root : Tree} {text : Text}

/-- The nodes that are asked stand at the location or above it. -/
lemma node_of_contextsAlong {t : Tree} {preceding : List Kind} {path : List Step} {c : Context}
    (h : c ∈ contextsAlong t preceding path) : c.node = t ∨ c.node ∈ path.map (·.parent) := by
  induction path generalizing t preceding with
  | nil =>
    cases List.mem_singleton.mp h
    exact .inl rfl
  | cons s path ih =>
    rcases List.mem_cons.mp h with rfl | h
    · exact .inl rfl
    · rcases ih h with e | above
      · exact .inr (e ▸ .head _)
      · exact .inr (.tail _ above)

/-- A node says the same to cursors that agree. -/
lemma consult_agree {c : Context} {lo hi : Nat} (h : Agree P p q)
    (laid : Laid P lo c.node.children hi) : consult p c = consult q c := by
  have same (e : Entry) : e.rulesFor? c.node p = e.rulesFor? c.node q := by
    cases e with
    | rules rs => rfl
    | refined refinements otherwise =>
      rw [Entry.rulesFor?, Entry.rulesFor?, childBefore?_agree h laid]
  rw [consult, consult]
  cases table c.node.kind with
  | none => rfl
  | some e => simp only [same]

/-- Where the nodes say the same and the rules that fire offer the same, the same is collected. -/
lemma climb_forall₂_of_fires {root' : Tree} {text' : Text} {xs ys : List Context}
    (same : ∀ x ∈ xs, ∀ r, consult p x = .fires r →
      r.candidates root' text' = r.candidates root text)
    (h : List.Forall₂ (fun x y => consult q y = consult p x) xs ys) :
    climb root' text' q ys = climb root text p xs := by
  induction h with
  | nil => rfl
  | @cons x y _ _ first _ ih =>
    obtain ⟨here, above⟩ := List.forall_mem_cons.mp same
    rw [climb, climb, first]
    cases fires : consult p x with
    | suppressed => rfl
    | silent => exact ih above
    | fires r => simp only [here r fires, ih above]

/-- Where the nodes say the same and the generators offer the same, the same is collected. -/
lemma climb_forall₂ {root' : Tree} {text' : Text} {xs ys : List Context}
    (same : ∀ g : Generator, g.candidates root' text' = g.candidates root text)
    (h : List.Forall₂ (fun x y => consult q y = consult p x) xs ys) :
    climb root' text' q ys = climb root text p xs :=
  climb_forall₂_of_fires (fun _ _ r _ => by rw [Rule.candidates, Rule.candidates, funext same]) h

/-- Where no node has anything to say, nothing is collected. -/
lemma climb_mute {xs : List Context}
    (h : ∀ x ∈ xs, consult p x = .silent ∨ consult p x = .suppressed) :
    climb root text p xs = none ∨ climb root text p xs = some [] := by
  induction xs with
  | nil => exact .inr rfl
  | cons x xs ih =>
    obtain ⟨first, rest⟩ := List.forall_mem_cons.mp h
    rw [climb]
    rcases first with silent | suppressed
    · rw [silent]
      exact ih rest
    · rw [suppressed]
      exact .inl rfl

/-- Nodes that answer alike offer the same. -/
lemma climb_congr {cs : List Context} (h : ∀ c ∈ cs, consult p c = consult q c) :
    climb root text p cs = climb root text q cs :=
  climb_forall₂ (fun _ => rfl) (List.forall₂_same.mpr h)

/-- In a tree that is laid out, the same is offered to cursors that agree. -/
theorem candidates_agree (h : Agree P p q) (laid : Laid P root.start root.children root.stop)
    (hroot : root.stop = text.byteSize) (hp : p ≤ text.byteSize) (hq : q ≤ text.byteSize) :
    (complete root text p).map (·.candidates) = (complete root text q).map (·.candidates) := by
  have resolved : root.resolve p = root.resolve q := by
    rw [resolve, resolve, hroot, Nat.min_eq_left hp, Nat.min_eq_left hq]
    exact descend_agree h [] root laid
  have down : Reaches (ofRoot root) (root.resolve q) := (descends_descend _ [] root).reaches
  have before : contextsAt (root.resolve q) p = contextsAt (root.resolve q) q := by
    rw [contextsAt, contextsAt, kindsUpTo_agree h (laid.of_mem_node down.mem_preorder)]
  have asked (c) (hc : c ∈ contextsAt (root.resolve q) q) : consult p c = consult q c := by
    rcases node_of_contextsAlong hc with e | above
    · exact consult_agree h (e ▸ laid.of_mem_node down.mem_preorder)
    · exact consult_agree h (laid.of_mem_node (down.ancestors_mem _ above))
  simp only [complete, Nat.min_eq_left hp, Nat.min_eq_left hq, resolved, before,
    climb_congr asked]
  cases climb root text q (contextsAt (root.resolve q) q) with
  | none => rfl
  | some collected =>
    dsimp only
    split <;> rfl

end Completion

/-! ## Spots in a text -/

/-- The offset is an end of one of the tokens, or the end of the document. -/
def IsTokenEnd (eof : Nat) (ts : List Token) (n : Nat) : Prop :=
  n = eof ∨ ∃ t ∈ ts, n = t.start ∨ n = t.stop

/-- The nodes below the root of a document end where tokens or the document do. -/
lemma laid_tokenEnds (text : Text) :
    Laid (IsTokenEnd text.byteSize (tokenize text)) (parseTree text).start
      (parseTree text).children (parseTree text).stop := by
  have spaced : Spaced (IsTokenEnd text.byteSize (tokenize text)) text.byteSize
      (offsetOf text.byteSize (tokenize text)) (tokenize text) := by
    refine (tokenize_spaced text).tight.2.mono ?_
    intro t ht
    exact ⟨.inr ⟨t, ht, .inl rfl⟩, .inr ⟨t, ht, .inr rfl⟩⟩
  have laid := (readDocument_reading (.inl rfl) spaced).laid
  rw [readDocument_rest] at laid
  exact laid.mono (Nat.zero_le _) (Nat.le_refl _)

/--
Two cursors in one place among some tokens: inside one token or at its end, in the gap behind one
token and up to the next, in front of all tokens, or behind all of them.
-/
inductive SameSpot (ts : List Token) (p q : Nat) : Prop where
  | inside (t : Token) :
    t ∈ ts →
    t.start < p ∧ p ≤ t.stop →
    t.start < q ∧ q ≤ t.stop →
    SameSpot ts p q
  | between (before : List Token) (t u : Token) (after : List Token) :
    ts = before ++ t :: u :: after →
    t.stop < p ∧ p ≤ u.start →
    t.stop < q ∧ q ≤ u.start →
    SameSpot ts p q
  | front :
    (∀ t ∈ ts, p ≤ t.start ∧ q ≤ t.start) →
    SameSpot ts p q
  | behind :
    (∀ t ∈ ts, t.stop < p ∧ t.stop < q) →
    SameSpot ts p q

/-- No end of a token separates two cursors in one place. -/
lemma SameSpot.agree {eof lo : Nat} {ts : List Token} (h : SameSpot ts p q)
    (spaced : Spaced P eof lo ts) (hp : p ≤ eof) (hq : q ≤ eof) :
    Agree (IsTokenEnd eof ts) p q := by
  have width := spaced.width
  have apart := spaced.pairwise.2
  rintro n (rfl | ⟨x, hx, hn⟩)
  · omega
  have wide := width x hx
  cases h with
  | inside t ht inp inq =>
    -- a token before it ends where it starts at the latest, and one after it starts behind its end
    obtain ⟨before, after, rfl⟩ := List.append_of_mem ht
    obtain ⟨_, right, left⟩ := List.pairwise_append.mp apart
    rcases List.mem_append.mp hx with hx | hx
    · have := left x hx t (.head _)
      omega
    · rcases List.mem_cons.mp hx with rfl | hx
      · omega
      · have := (List.pairwise_cons.mp right).1 x hx
        omega
  | between before t u after e inp inq =>
    subst e
    obtain ⟨_, right, left⟩ := List.pairwise_append.mp apart
    obtain ⟨next, right⟩ := List.pairwise_cons.mp right
    have wideT := width t (List.mem_append_right _ (.head _))
    have wideU := width u (List.mem_append_right _ (.tail _ (.head _)))
    rcases List.mem_append.mp hx with hx | hx
    · have := left x hx t (.head _)
      omega
    · rcases List.mem_cons.mp hx with rfl | hx
      · omega
      · rcases List.mem_cons.mp hx with rfl | hx
        · omega
        · have := (List.pairwise_cons.mp right).1 x hx
          omega
  | front ahead =>
    have := ahead x hx
    omega
  | behind past =>
    have := past x hx
    omega

/-- Wherever a cursor stands in a token or in a gap, the same candidates are offered. -/
theorem Completion.candidates_of_sameSpot (text : Text) (p q : Nat) (hp : p ≤ text.byteSize)
    (hq : q ≤ text.byteSize) (spot : SameSpot (tokenize text) p q) :
    (complete (parseTree text) text p).map (·.candidates) =
      (complete (parseTree text) text q).map (·.candidates) :=
  candidates_agree (spot.agree (tokenize_spaced text) hp hq) (laid_tokenEnds text) rfl hp hq

/-- In the gap behind a constraint that lacks its type, up to where the type is missed. -/
theorem Completion.candidates_in_gap :
    SameSpot (tokenize "match $x isa  ;".toList) 13 14 ∧
    (complete (parseTree "match $x isa  ;".toList) "match $x isa  ;".toList 13).map
      (·.candidates) = some [.ofLabel "$x" .variableName (-10)] ∧
    (complete (parseTree "match $x isa  ;".toList) "match $x isa  ;".toList 13).map
      (·.candidates) =
      (complete (parseTree "match $x isa  ;".toList) "match $x isa  ;".toList 14).map
        (·.candidates) := by
  have spot : SameSpot (tokenize "match $x isa  ;".toList) 13 14 :=
    .between [⟨.kwMatch, 0, 5⟩, ⟨.var, 6, 8⟩] ⟨.kwIsa, 9, 12⟩ ⟨.semicolon, 14, 15⟩ [] (by decide)
      (by decide) (by decide)
  exact ⟨spot, by decide +kernel, candidates_of_sameSpot _ 13 14 (by decide) (by decide) spot⟩

end TypeqlAssist
