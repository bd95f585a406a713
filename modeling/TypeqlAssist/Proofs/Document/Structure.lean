import TypeqlAssist.Proofs.Grammar.Machine
import TypeqlAssist.Proofs.Grammar.Placement

/-!
# The structure of documents

What holds of the tree and the errors of every text. The tree holds the tokens of the text, each
once and in order; its nodes nest and do not overlap; and its faults are the errors that are
reported.
-/

namespace TypeqlAssist

open TypeqlAssist.Tree Grammar

/-! ## Nodes below a well-placed node -/

/-- A node below a well-placed node is well placed, or a token that an error node wraps. -/
lemma Grammar.Placed.of_mem_preorder {n m : Tree} (h : Placed n) (hm : m ∈ n.preorder) :
    Placed m ∨ ∃ t : Token, t.start < t.stop ∧ m = leaf t := by
  induction h with
  | token hk width =>
    cases List.mem_singleton.mp hm
    exact .inl (.token hk width)
  | fault width flat =>
    rcases List.mem_cons.mp hm with rfl | hm
    · exact .inl (.fault width flat)
    · rw [preorderAll_leaves] at hm
      obtain ⟨t, ht, rfl⟩ := List.mem_map.mp hm
      exact .inr ⟨t, width t ht, rfl⟩
  | production hk some hcs ih =>
    rcases List.mem_cons.mp hm with rfl | hm
    · exact .inl (.production hk some hcs)
    · obtain ⟨c, hc, hm⟩ := mem_preorderAll hm
      exact ih c hc hm

/-- A well-placed node without children is a token or a fault. -/
lemma Grammar.Placed.of_children_nil {n : Tree} (h : Placed n) (hc : n.children = [])
    (hl : n.isLeaf = false) : n.kind = .error := by
  cases h with
  | token hk width => rw [isLeaf, leaf] at hl; simp [width] at hl
  | fault => rfl
  | production hk some hcs => exact absurd hc some

/-- An unrecognised token below a well-placed node is the child of a fault. -/
lemma Grammar.Placed.error_mem {n : Tree} {t : Token} (h : Placed n) (hm : leaf t ∈ n.preorder)
    (hk : t.kind = .error) (width : t.start < t.stop) :
    ∃ f ∈ n.preorder, f.isFault = true ∧ leaf t ∈ f.children := by
  induction h with
  | @token u hu _ =>
    have e := List.mem_singleton.mp hm
    injection e with e
    exact absurd (e ▸ hk) hu
  | @fault a b ts _ flat =>
    rcases List.mem_cons.mp hm with e | hm
    · injection e with _ e1 e2 e3
      have same := flat (List.map_eq_nil_iff.mp e3.symm)
      omega
    · rw [preorderAll_leaves] at hm
      refine ⟨_, .head _, ?_, hm⟩
      cases ts with
      | nil => cases hm
      | cons => rfl
  | production _ some _ ih =>
    rcases List.mem_cons.mp hm with e | hm
    · injection e with _ _ _ e
      exact absurd e.symm some
    · obtain ⟨c, hc, hm⟩ := mem_preorderAll hm
      obtain ⟨f, hf, h⟩ := ih c hc hm
      exact ⟨f, .tail _ (mem_preorderAll_of_mem hc hf), h⟩

/-- What a well-placed fault wraps holds no fault. -/
lemma Grammar.Placed.no_fault_inside {n m : Tree} (h : Placed n) (hn : n.isFault = true)
    (hm : m ∈ preorderAll n.children) : m.isFault = false := by
  cases h with
  | token => cases hm
  | fault width =>
    rw [children_node, preorderAll_leaves] at hm
    obtain ⟨t, ht, rfl⟩ := List.mem_map.mp hm
    exact isFault_leaf (width t ht)
  | production hk => simp [isFault, hk] at hn

/-! ## Documents -/

/-- The tokens of a text, its nodes and its faults are related as in every reading. -/
lemma reading_of_text (text : Text) :
    Reading (text.isBoundary · = true) text.byteSize (tokenize text)
      (readDocument text.byteSize (tokenize text)) :=
  readDocument_reading text.isBoundary_byteSize (tokenize_spaced text).tight.2

/-- The tokens below the root of the tree of a text are the tokens of the text. -/
lemma tokensOf_text (text : Text) :
    tokensOf (readDocument text.byteSize (tokenize text)).nodes = tokenize text := by
  have lossless := (reading_of_text text).lossless
  rwa [readDocument_rest, List.append_nil] at lossless

/-- The tree of a text is laid out between its ends. -/
lemma laid_of_text (text : Text) :
    Laid (text.isBoundary · = true) 0 [(parse text).tree.root] text.byteSize := by
  have laid := (reading_of_text text).laid
  rw [readDocument_rest] at laid
  have zero : text.isBoundary 0 = true := Text.isBoundary_append [] text
  exact .cons (Nat.le_refl _) zero text.isBoundary_byteSize
    (laid.mono (Nat.zero_le _) (Nat.le_refl _)) (.nil (Nat.le_refl _))

/-- Every node below the root of the tree of a text is well placed, or a token in an error node. -/
lemma placed_of_text {text : Text} {n : Tree} (h : n ∈ (parse text).tree.root.preorder.tail) :
    Placed n ∨ ∃ t : Token, t.start < t.stop ∧ n = leaf t := by
  obtain ⟨m, hm, h⟩ := mem_preorderAll h
  exact (readDocument_placed _ (tokenize_spaced text).width m hm).of_mem_preorder h

/--
The nodes below the root with a width and without children are the tokens of the text, in order
and each once. All others without children are gaps, and no node is left outside of the tree,
which is the one that a builder makes step by step.
-/
theorem tokens_of_tree (text : Text) :
    ((parse text).tree.root.preorder.tail.filter isLeaf).map token = tokenize text ∧
    (∀ n ∈ (parse text).tree.root.preorder.tail, n.children = [] → n.isLeaf = false →
      n.kind = .error ∧ n.start = n.stop) ∧
    (driveDocument text).builder.build text.byteSize = (parse text).tree ∧
    (parse text).tree.size = (parse text).tree.root.preorder.length := by
  refine ⟨?_, ?_, build_driveDocument text, ?_⟩
  · have lossless := (reading_of_text text).lossless
    rw [readDocument_rest, List.append_nil] at lossless
    exact lossless
  · intro n hn hc hl
    obtain ⟨_, _, _, _, laid⟩ := (laid_of_text text).of_mem_preorder
      (List.mem_append_left _ (List.mem_of_mem_tail hn))
    have order := laid.le
    rcases placed_of_text hn with h | ⟨t, width, rfl⟩
    · refine ⟨h.of_children_nil hc hl, ?_⟩
      simp [isLeaf, hc] at hl
      omega
    · simp [isLeaf, leaf, width] at hl
  · rw [length_preorder]
    exact Nat.zero_add _

/-- The root of a blank text has a width and no children, but it is no token. -/
theorem root_of_blank :
    ((parse [' ']).tree.root.preorder.filter isLeaf).map token ≠ tokenize [' '] := by
  decide

/--
Every node stands between boundaries of the text, children stay within their parent, neighbours
do not overlap, and the root spans the text.
-/
theorem spans_nest (text : Text) :
    (parse text).tree.root.start = 0 ∧ (parse text).tree.root.stop = text.byteSize ∧
    ∀ n ∈ (parse text).tree.root.preorder,
      n.start ≤ n.stop ∧ n.stop ≤ text.byteSize ∧
      text.isBoundary n.start = true ∧ text.isBoundary n.stop = true ∧
      (∀ c ∈ n.children, n.start ≤ c.start ∧ c.stop ≤ n.stop) ∧
      n.children.IsChain fun l r => l.stop ≤ r.start := by
  refine ⟨rfl, rfl, ?_⟩
  intro n hn
  obtain ⟨_, stop, pa, pb, laid⟩ := (laid_of_text text).of_mem_preorder (List.mem_append_left _ hn)
  refine ⟨laid.le, stop, pa, pb, ?_, laid.isChain⟩
  intro c hc
  obtain ⟨le, le', _⟩ := laid.of_mem hc
  exact ⟨le, le'⟩

/-- The errors of a text are its faults, which need not be sorted. -/
lemma errors_of_text (text : Text) :
    (parse text).errors =
      (readDocument text.byteSize (tokenize text)).faults.map (Document.errorOf text) := by
  have sorted := List.mergeSort_of_pairwise (reading_of_text text).ranged.pairwise
  exact congrArg (List.map _) sorted

/-- The faults of the tree of a text are those of the nodes below its root. -/
lemma faults_of_text (text : Text) :
    (parse text).tree.root.preorder.filter isFault =
      faultsOf (readDocument text.byteSize (tokenize text)).nodes :=
  List.filter_cons_of_neg (by exact Bool.false_ne_true)

/-- A fault of the tree of a text is well placed. -/
lemma placed_of_fault {text : Text} {n : Tree}
    (h : n ∈ faultsOf (readDocument text.byteSize (tokenize text)).nodes) : Placed n := by
  obtain ⟨hn, fault⟩ := List.mem_filter.mp h
  rcases placed_of_text hn with h | ⟨t, width, rfl⟩
  · exact h
  · rw [isFault_leaf width] at fault
    cases fault

/-- The spans of faults that are equal one by one give errors that are. -/
lemma forall₂_errors {text : Text} {fs : List Fault} {ns : List Tree}
    (h : fs.map (fun f => (f.start, f.stop)) = ns.map faultSpan) :
    List.Forall₂ (fun e n => e.start = n.start ∧ e.stop = lastStop n.start n.children)
      (fs.map (Document.errorOf text)) ns := by
  rw [List.forall₂_map_left_iff]
  have same := List.forall₂_eq_eq_eq ▸ h
  rw [List.forall₂_map_left_iff, List.forall₂_map_right_iff] at same
  exact same.imp fun f n e => ⟨congrArg Prod.fst e, congrArg Prod.snd e⟩

/--
The errors are the faults of the tree, in order: each concerns what its fault wraps, between
boundaries of the text. No fault lies within another, and each unrecognised token is in one.
-/
theorem errors_are_faults (text : Text) :
    List.Forall₂
      (fun e n => e.start = n.start ∧ e.stop = lastStop n.start n.children)
      (parse text).errors ((parse text).tree.root.preorder.filter isFault) ∧
    (∀ e ∈ (parse text).errors, e.start ≤ text.byteSize ∧ e.stop ≤ text.byteSize ∧
      text.isBoundary e.start = true ∧ text.isBoundary e.stop = true) ∧
    (∀ n ∈ (parse text).tree.root.preorder.filter isFault,
      ∀ m ∈ n.preorder.tail, m.isFault = false) ∧
    (∀ t ∈ tokenize text, t.kind = .error →
      ∃ n ∈ (parse text).tree.root.preorder.filter isFault, leaf t ∈ n.children) := by
  have reading := reading_of_text text
  rw [errors_of_text, faults_of_text]
  refine ⟨forall₂_errors reading.faults, ?_, ?_, ?_⟩
  · intro e he
    obtain ⟨f, hf, rfl⟩ := List.mem_map.mp he
    obtain ⟨_, _, pa, pb⟩ := reading.ranged.of_mem hf
    exact ⟨Text.le_of_isBoundary pa, Text.le_of_isBoundary pb, pa, pb⟩
  · intro n hn m hm
    have placed := placed_of_fault hn
    cases n with
    | node k a b cs => exact placed.no_fault_inside (List.mem_filter.mp hn).2 hm
  · intro t ht hk
    have lossless := reading.lossless
    rw [readDocument_rest, List.append_nil] at lossless
    rw [← lossless] at ht
    obtain ⟨n, hn, rfl⟩ := List.mem_map.mp ht
    obtain ⟨hn, hl⟩ := List.mem_filter.mp hn
    cases n with
    | node k a b cs =>
      -- a node without children is the leaf of the token it stands for
      obtain ⟨empty, width⟩ := Bool.and_eq_true_iff.mp hl
      cases List.isEmpty_iff.mp empty
      obtain ⟨u, hu, hn⟩ := mem_preorderAll hn
      have placed := readDocument_placed _ (tokenize_spaced text).width u hu
      obtain ⟨f, hf, fault, mem⟩ :=
        @Placed.error_mem u ⟨k, a, b⟩ placed hn hk (of_decide_eq_true width)
      exact ⟨f, List.mem_filter.mpr ⟨mem_preorderAll_of_mem hu hf, fault⟩, mem⟩

end TypeqlAssist
