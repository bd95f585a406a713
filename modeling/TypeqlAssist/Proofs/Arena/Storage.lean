import Mathlib.Data.List.Forall2
import TypeqlAssist.Proofs.Arena.Linking
import TypeqlAssist.Proofs.Tree.Layout

/-!
# What an arena holds

`Holds` says that a node of an arena, read down to any depth, shows a given tree. A builder in an
arena and a builder of trees that take the same steps stay in agreement (`Models`), and no step in
the arena fails as long as numbers are left. So the arena holds the tree that is built
(`exists_ofActions`).
-/

namespace TypeqlAssist

/-- Mapping a function that may fail gives a list if it gives each of its elements. -/
lemma mapM_eq_some_iff {α β : Type} {f : α → Option β} {l : List α} {l' : List β} :
    l.mapM f = some l' ↔ List.Forall₂ (fun x y => f x = some y) l l' := by
  induction l generalizing l' with
  | nil => simp [eq_comm]
  | cons x l ih =>
    rw [List.mapM_cons, List.forall₂_cons_left_iff]
    simp only [Option.bind_eq_bind, Option.bind_eq_some_iff, Option.pure_def, Option.some.injEq,
      ih]
    constructor
    · rintro ⟨y, hy, ys, hys, rfl⟩
      exact ⟨y, ys, hy, hys, rfl⟩
    · rintro ⟨y, ys, hy, hys, rfl⟩
      exact ⟨y, hy, ys, hys, rfl⟩

/-- Lists related element by element end at one index, and are related at every other. -/
lemma forall₂_getElem? {α β : Type} {R : α → β → Prop} {l : List α} {l' : List β}
    (h : List.Forall₂ R l l') (i : Nat) :
    (l[i]? = none ∧ l'[i]? = none) ∨ ∃ x y, l[i]? = some x ∧ l'[i]? = some y ∧ R x y := by
  induction h generalizing i with
  | nil => exact .inl ⟨rfl, rfl⟩
  | @cons x y _ _ first _ ih =>
    cases i with
    | zero => exact .inr ⟨x, y, rfl, rfl, first⟩
    | succ i => exact ih i

namespace Tree

/-- A tree without what stands more than `depth` levels below its top. -/
def cut : (depth : Nat) → Tree → Tree
  | 0, t => node t.kind t.start t.stop []
  | depth + 1, t => node t.kind t.start t.stop (t.children.map (cut depth))

namespace Builder

/-- The number of nodes made so far. -/
def made (b : Builder) : Nat :=
  sizeAll (b.detached ++ b.frames.flatMap (·.children))

variable {f : Frame} {fs : List Frame} {detached : List Tree}

/-- With no open node, only the nodes that stand outside have been made. -/
@[simp]
lemma made_nil : made ⟨[], detached⟩ = sizeAll detached := by
  rw [made, List.flatMap_nil, List.append_nil]

/-- The nodes under an open node have been made, and so have those under the others. -/
@[simp]
lemma made_cons : made ⟨f :: fs, detached⟩ = made ⟨fs, detached⟩ + sizeAll f.children := by
  simp only [made, List.flatMap_cons, sizeAll_append]
  omega

/-- Attaching a tree makes all of its nodes. -/
lemma made_attach (b : Builder) (t : Tree) : (b.attach t).made = b.made + t.size := by
  obtain ⟨_ | ⟨f, fs⟩, detached⟩ := b
  · rw [attach, made_nil, made_nil, sizeAll_append]
    rfl
  · simp only [attach, made_cons, sizeAll_append, sizeAll]
    omega

/-- Attaching a tree opens and closes nothing. -/
lemma length_attach (b : Builder) (t : Tree) : (b.attach t).frames.length = b.frames.length := by
  obtain ⟨_ | ⟨f, fs⟩, detached⟩ := b <;> rfl

/-- Finishing closes one node, if one is open. -/
lemma length_finish (b : Builder) (extent : Option Nat) :
    (b.finish extent).frames.length = b.frames.length - 1 := by
  obtain ⟨_ | ⟨f, fs⟩, detached⟩ := b
  · rfl
  · rw [finish, length_attach]
    rfl

/-- Opening a node over children that are there makes none. -/
lemma made_startAt (b : Builder) (checkpoint : Nat) (kind : Kind) :
    (b.startAt checkpoint kind).made = b.made := by
  obtain ⟨_ | ⟨f, fs⟩, detached⟩ := b
  · rw [startAt, start, made_cons]
    rfl
  · have whole := sizeAll_append (f.children.take checkpoint) (f.children.drop checkpoint)
    rw [List.take_append_drop] at whole
    simp only [startAt, made_cons, whole]
    omega

/-- Each step makes nodes or opens them, and never loses one. -/
lemma made_apply (b : Builder) (action : Action) :
    b.made + b.frames.length ≤ (b.apply action).made + (b.apply action).frames.length := by
  cases action with
  | start kind offset =>
    obtain ⟨frames, detached⟩ := b
    simp only [apply, start, made_cons, List.length_cons]
    omega
  | token token =>
    rw [apply, Builder.token, made_attach, length_attach]
    omega
  | finish extent =>
    obtain ⟨_ | ⟨f, fs⟩, detached⟩ := b
    · exact Nat.le_refl _
    · simp only [apply, finish, made_attach, length_attach, made_cons, List.length_cons, enclose,
        size]
      omega
  | startAt checkpoint kind =>
    rw [apply, made_startAt]
    obtain ⟨_ | ⟨f, fs⟩, detached⟩ := b <;> simp [startAt, start]

/-- Closing what is open makes one node for each open one. -/
lemma size_closeInto (length : Nat) (detached : List Tree) (f : Frame) (fs : List Frame) :
    sizeAll detached + (closeInto length f fs).size =
      made ⟨f :: fs, detached⟩ + fs.length + 1 := by
  induction fs generalizing f with
  | nil =>
    rw [closeInto, size, made_cons, made_nil]
    rfl
  | cons g fs ih =>
    rw [closeInto, ih]
    simp only [made_cons, sizeAll_append, sizeAll, enclose, size, List.length_cons]
    omega

/-- Each open node is closed in the end. -/
lemma made_le_build (b : Builder) (length : Nat) :
    b.made + b.frames.length ≤ (b.build length).size := by
  obtain ⟨_ | ⟨f, fs⟩, detached⟩ := b
  · rw [made_nil]
    exact Nat.le_add_right _ _
  · rw [build, SyntaxTree.size, size_closeInto]
    exact Nat.le_refl _

/-- Closing an inner node changes nothing about the result. -/
lemma build_finish {b : Builder} (length : Nat) (inner : 1 < b.frames.length) :
    (b.finish none).build length = b.build length := by
  obtain ⟨_ | ⟨f, _ | ⟨g, fs⟩⟩, detached⟩ := b
  · cases inner
  · cases Nat.lt_irrefl _ inner
  · rfl

end Builder

end Tree

namespace Record

variable {r : Record} {t : Tree} {ts : List Tree}

/-- A tree made from a record has its kind. -/
lemma kind_eq (h : r.node ts = t) : t.kind = r.kind := by
  rw [← h]
  rfl

/-- A tree made from a record ends where the record does. -/
lemma stop_eq (h : r.node ts = t) : t.stop = r.stop := by
  rw [← h]
  rfl

end Record

namespace Arena

open TypeqlAssist.Tree (cut sizeAll)

variable {a a' : Arena} {id n : NodeId} {r q new : Record} {cs : List NodeId} {t : Tree}
  {ts : List Tree}

/-! ## Held trees -/

/-- Read down to any depth, the node shows the tree. -/
def Holds (a : Arena) (id : NodeId) (t : Tree) : Prop :=
  ∀ depth, a.view? depth id = some (t.cut depth)

/-- Children that hold trees show them down to any depth. -/
lemma mapM_view? {depth : Nat} (held : List.Forall₂ a.Holds cs ts) :
    cs.mapM (a.view? depth) = some (ts.map (cut depth)) := by
  refine mapM_eq_some_iff.mpr (List.forall₂_map_right_iff.mpr (held.imp ?_))
  exact fun _ _ held => held depth

/-- A node whose children hold trees holds the tree over them. -/
lemma holds_node (hr : a.record? id = some r) (children : List.Forall₂ a.Holds r.children ts) :
    a.Holds id (r.node ts) := by
  intro depth
  cases depth with
  | zero =>
    rw [view?, hr]
    rfl
  | succ depth =>
    show ((a.record? id).bind fun r => (r.children.mapM (a.view? depth)).bind _) = _
    rw [hr, Option.bind_some, mapM_view? children]
    rfl

/-- A node that can be read has a record, and its children can be read one level less. -/
lemma view?_succ {depth : Nat} (h : a.view? (depth + 1) id = some t) :
    ∃ r, a.record? id = some r ∧ r.node t.children = t ∧
      List.Forall₂ (fun c u => a.view? depth c = some u) r.children t.children := by
  obtain ⟨r, hr, h⟩ := Option.bind_eq_some_iff.mp h
  obtain ⟨ts, hts, h⟩ := Option.bind_eq_some_iff.mp h
  cases h
  exact ⟨r, hr, rfl, mapM_eq_some_iff.mp hts⟩

/-- What is held is recorded: the node by its record, and each child by a child. -/
lemma Holds.record (h : a.Holds id t) :
    ∃ r, a.record? id = some r ∧ r.node t.children = t ∧
      List.Forall₂ a.Holds r.children t.children := by
  obtain ⟨k, first, last, ts⟩ := t
  obtain ⟨r, hr, node, _⟩ := view?_succ (h 1)
  cases node
  refine ⟨r, hr, rfl, ?_⟩
  have below (depth : Nat) :
      List.Forall₂ (fun c u => a.view? depth c = some (u.cut depth)) r.children ts := by
    obtain ⟨r', hr', _, children⟩ := view?_succ (h (depth + 1))
    cases hr.symm.trans hr'
    change List.Forall₂ _ _ (ts.map (cut depth)) at children
    rwa [List.forall₂_map_right_iff] at children
  exact List.forall₂_iff_get.mpr
    ⟨(below 0).length_eq, fun i hi hi' depth => (below depth).get hi hi'⟩

/-- Making a node changes nothing of what is seen. -/
lemma Adds.view? {depth : Nat} (h : Adds a id new a') (seen : a.view? depth n = some t) :
    a'.view? depth n = some t := by
  induction depth generalizing n t with
  | zero =>
    obtain ⟨q, hq, e⟩ := Option.bind_eq_some_iff.mp seen
    obtain ⟨r, hr, node, _⟩ := h.old hq
    cases e
    rw [Arena.view?, hr, ← node]
    rfl
  | succ depth ih =>
    obtain ⟨q, hq, e, children⟩ := view?_succ seen
    obtain ⟨r, hr, node, same⟩ := h.old hq
    have below : r.children.mapM (a'.view? depth) = some t.children := by
      rw [same]
      exact mapM_eq_some_iff.mpr (children.imp fun _ _ => ih)
    show ((a'.record? n).bind fun r => (r.children.mapM (a'.view? depth)).bind _) = _
    rw [hr, Option.bind_some, below, ← e, ← node]
    rfl

/-- What a node holds, it holds after another one is made. -/
lemma Adds.holds (h : Adds a id new a') (held : a.Holds n t) : a'.Holds n t :=
  fun depth => h.view? (held depth)

/-- The new node holds the tree over what its children hold. -/
lemma Adds.holds_new (h : Adds a id new a') (children : List.Forall₂ a.Holds new.children ts) :
    a'.Holds id (new.node ts) :=
  holds_node h.made (children.imp fun _ _ => h.holds)

/-- A node can be made over nodes that wait, and holds the tree over what they hold. -/
lemma exists_node (kind : Kind) (first last : Nat) {rest : List NodeId}
    (linked : Linked a (cs ++ rest)) (children : List.Forall₂ a.Holds cs ts)
    (room : a.size < UInt32.size) :
    ∃ id a', a.add? kind first last cs = some (id, a') ∧
      Adds a id ⟨kind, first, last, none, 0, cs⟩ a' ∧ Linked a' (id :: rest) ∧
      a'.Holds id (.node kind first last ts) := by
  obtain ⟨id, a', made, add⟩ := exists_add kind first last room linked.distinct.of_append_left
    fun c hc => linked.known c (List.mem_append_left _ hc)
  exact ⟨id, a', made, add, linked.add add rfl, add.holds_new children⟩

/-- The edge of a child is that of the tree it holds. -/
lemma edge?_eq (children : List.Forall₂ a.Holds cs ts) {side : Record → Nat}
    {side' : Tree → Nat} (same : ∀ r us, side' (Record.node r us) = side r) (offset i : Nat) :
    a.edge? side offset cs[i]? = some ((ts[i]?.map side').getD offset) := by
  rcases forall₂_getElem? children i with ⟨hc, hu⟩ | ⟨c, u, hc, hu, held⟩
  · rw [hc, hu]
    rfl
  · obtain ⟨r, hr, node, _⟩ := held.record
    rw [hc, hu, edge?, hr, ← node]
    show some (side r) = some (side' (r.node _))
    rw [same]

/-- The start of the first child is that of the first tree it holds. -/
lemma edge?_head (children : List.Forall₂ a.Holds cs ts) (offset : Nat) :
    a.edge? Record.start offset cs.head? = some ((ts.head?.map Tree.start).getD offset) := by
  rw [List.head?_eq_getElem?, List.head?_eq_getElem?]
  exact edge?_eq children (fun _ _ => rfl) offset 0

/-- The end of the last child is that of the last tree it holds. -/
lemma edge?_getLast (children : List.Forall₂ a.Holds cs ts) (offset : Nat) :
    a.edge? Record.stop offset cs.getLast? = some ((ts.getLast?.map Tree.stop).getD offset) := by
  rw [List.getLast?_eq_getElem?, List.getLast?_eq_getElem?, children.length_eq]
  exact edge?_eq children (fun _ _ => rfl) offset _

/-! ## Builders that agree -/

namespace Builder

/-- The nodes that wait for a parent, those of the innermost open node first. -/
def loose (b : Builder) : List NodeId :=
  b.frames.flatMap (·.children)

/-- The open nodes are the same, and the children of one hold those of the other. -/
structure Matches (a : Arena) (f : Frame) (g : Tree.Frame) : Prop where
  kind : f.kind = g.kind
  offset : f.offset = g.offset
  children : List.Forall₂ a.Holds f.children g.children

/-- A builder in an arena agrees with a builder of trees. -/
structure Models (b : Builder) (t : Tree.Builder) : Prop where
  linked : Linked b.arena b.loose
  frames : List.Forall₂ (Matches b.arena) b.frames t.frames
  size : b.arena.size = t.made

variable {b : Builder} {t : Tree.Builder} {kind : Kind} {first last : Nat}

/-- Open nodes that match still match after a node is made. -/
lemma Matches.adds {f : Frame} {g : Tree.Frame} (h : Matches a f g) (add : Adds a id new a') :
    Matches a' f g :=
  { h with children := h.children.imp fun _ _ => add.holds }

/-- Making a node over children that are in no open node keeps builders in agreement. -/
lemma models_add (linked : Linked b.arena (cs ++ b.loose))
    (frames : List.Forall₂ (Matches b.arena) b.frames t.frames)
    (children : List.Forall₂ b.arena.Holds cs ts) (size : b.arena.size = t.made + sizeAll ts)
    (room : b.arena.size < UInt32.size) :
    ∃ b', b.add? kind first last cs = some b' ∧
      Models b' (t.attach (.node kind first last ts)) := by
  obtain ⟨id, a', made, add, waiting, held⟩ := exists_node kind first last linked children room
  refine ⟨_, by rw [add?, made]; rfl, ?_⟩
  have kept : List.Forall₂ (Matches a') b.frames t.frames := frames.imp fun _ _ h => h.adds add
  have grown : a'.size = (t.attach (.node kind first last ts)).made := by
    rw [add.size, size, Tree.Builder.made_attach, Tree.size, Nat.add_assoc]
  obtain ⟨arena, frames⟩ := b
  obtain ⟨frames', detached⟩ := t
  cases kept with
  | nil => exact ⟨waiting.subperm (List.nil_subperm), .nil, grown⟩
  | @cons f g fs gs same rest =>
    refine ⟨waiting.subperm ?_, .cons ?_ rest, grown⟩
    · show ((f.children ++ [id]) ++ fs.flatMap (·.children)).Subperm _
      rw [List.append_assoc]
      exact List.perm_middle.subperm
    · exact { same with children := List.rel_append same.children (.cons held .nil) }

/-! ## Steps -/

/-- Builders that agree still do after a token. -/
lemma Models.token (h : Models b t) (token : Token) (room : b.arena.size < UInt32.size) :
    ∃ b', b.token token = some b' ∧ Models b' (t.token token) :=
  models_add h.linked h.frames .nil h.size room

/-- Builders that agree still do after a node is closed. -/
lemma Models.finish (h : Models b t) (extent : Option Nat) (room : b.arena.size < UInt32.size) :
    ∃ b', b.finish extent = some b' ∧ Models b' (t.finish extent) := by
  obtain ⟨arena, fs⟩ := b
  obtain ⟨gs, detached⟩ := t
  obtain ⟨linked, frames, size⟩ := h
  cases frames with
  | nil => exact ⟨_, rfl, linked, .nil, size⟩
  | @cons f g fs gs same rest =>
    have made := size.trans Tree.Builder.made_cons
    obtain ⟨b', added, models⟩ :=
      models_add (b := ⟨arena, fs⟩) (t := ⟨gs, detached⟩) linked rest same.children made room
    refine ⟨b', ?_, models⟩
    show ((arena.edge? Record.start f.offset f.children.head?).bind fun first =>
      (arena.edge? Record.stop first f.children.getLast?).bind fun last =>
        add? ⟨arena, fs⟩ f.kind first (max last (extent.getD last)) f.children) = some b'
    rw [edge?_head same.children, Option.bind_some, edge?_getLast same.children, Option.bind_some,
      same.kind, same.offset]
    exact added

/-- Builders that agree still do after a node is opened over children that are there. -/
lemma Models.startAt (h : Models b t) (checkpoint : Nat) (kind : Kind) :
    ∃ b', b.startAt checkpoint kind = some b' ∧ Models b' (t.startAt checkpoint kind) := by
  obtain ⟨arena, fs⟩ := b
  obtain ⟨gs, detached⟩ := t
  obtain ⟨linked, frames, size⟩ := h
  cases frames with
  | nil =>
    have made := size.trans (Tree.Builder.made_startAt _ checkpoint kind).symm
    exact ⟨_, rfl, linked, .cons ⟨rfl, rfl, .nil⟩ .nil, made⟩
  | @cons f g fs gs same rest =>
    have adopted := List.forall₂_drop checkpoint same.children
    have left := List.forall₂_take checkpoint same.children
    refine ⟨⟨arena, ⟨kind, f.children.drop checkpoint,
        ((g.children.drop checkpoint).head?.map Tree.start).getD 0⟩ ::
        { f with children := f.children.take checkpoint } :: fs⟩, ?_, ?_, ?_, ?_⟩
    · show ((arena.edge? Record.start 0 (f.children.drop checkpoint).head?).bind _) = _
      rw [edge?_head adopted]
      rfl
    · -- the waiting nodes only change their order
      refine linked.subperm (List.Perm.subperm ?_)
      show (f.children.drop checkpoint ++ (f.children.take checkpoint ++ _)).Perm
        (f.children ++ _)
      rw [← List.append_assoc]
      refine List.Perm.append_right _ ?_
      exact List.perm_append_comm.trans (.of_eq (List.take_append_drop checkpoint f.children))
    · exact .cons ⟨rfl, rfl, adopted⟩ (.cons { same with children := left } rest)
    · exact size.trans (Tree.Builder.made_startAt _ checkpoint kind).symm

/-- As long as numbers are left, no step fails, and builders stay in agreement. -/
lemma Models.apply (h : Models b t) (action : Tree.Builder.Action)
    (room : b.arena.size < UInt32.size) :
    ∃ b', b.apply action = some b' ∧ Models b' (t.apply action) := by
  cases action with
  | start kind offset =>
    refine ⟨_, rfl, h.linked, .cons ⟨rfl, rfl, .nil⟩ h.frames, h.size.trans ?_⟩
    rw [Tree.Builder.apply, Tree.Builder.start, Tree.Builder.made_cons]
    rfl
  | token token => exact h.token token room
  | finish extent => exact h.finish extent room
  | startAt checkpoint kind => exact h.startAt checkpoint kind

/-- Builders with no nodes agree. -/
lemma models_empty : Models empty .empty :=
  ⟨linked_empty, .nil, rfl⟩

/-- Nodes made or opened are not lost in any number of steps. -/
lemma made_le_foldl (t : Tree.Builder) (actions : List Tree.Builder.Action) :
    t.made + t.frames.length ≤ (actions.foldl Tree.Builder.apply t).made +
      (actions.foldl Tree.Builder.apply t).frames.length := by
  induction actions generalizing t with
  | nil => exact Nat.le_refl _
  | cons action actions ih => exact Nat.le_trans (Tree.Builder.made_apply t action) (ih _)

/-- If there is a number for every node, no sequence of steps fails. -/
lemma Models.run (h : Models b t) (actions : List Tree.Builder.Action)
    (room : (actions.foldl Tree.Builder.apply t).made +
      (actions.foldl Tree.Builder.apply t).frames.length < UInt32.size) :
    ∃ b', actions.foldlM Builder.apply b = some b' ∧
      Models b' (actions.foldl Tree.Builder.apply t) := by
  induction actions generalizing b t with
  | nil => exact ⟨b, rfl, h⟩
  | cons action actions ih =>
    have now : b.arena.size < UInt32.size := by
      have le := made_le_foldl t (action :: actions)
      rw [h.size]
      omega
    obtain ⟨b₁, step, h₁⟩ := h.apply action now
    obtain ⟨b₂, run, h₂⟩ := ih h₁ room
    refine ⟨b₂, ?_, h₂⟩
    rw [List.foldlM_cons, step]
    exact run

/-! ## The result -/

/-- There is a number for the next node if there is one for every node in the end. -/
lemma Models.room {length : Nat} (h : Models b t) (room : (t.build length).size < UInt32.size) :
    b.arena.size < UInt32.size := by
  have le := Tree.Builder.made_le_build t length
  rw [h.size]
  omega

/-- Inner nodes can be closed, which changes nothing about the result. -/
lemma Models.close {count length : Nat} (h : Models b t)
    (room : (t.build length).size < UInt32.size) (inner : count ≤ t.frames.length - 1) :
    ∃ b' t', b.close count = some b' ∧ Models b' t' ∧
      t'.frames.length = t.frames.length - count ∧ t'.build length = t.build length := by
  induction count generalizing b t with
  | zero => exact ⟨b, t, rfl, h, rfl, rfl⟩
  | succ count ih =>
    obtain ⟨b₁, step, h₁⟩ := h.finish none (h.room room)
    have built : (t.finish none).build length = t.build length :=
      Tree.Builder.build_finish length (by omega)
    have fewer := Tree.Builder.length_finish t none
    obtain ⟨b', t', closed, h', left, built'⟩ := ih h₁ (by rwa [built]) (by omega)
    refine ⟨b', t', ?_, h', by omega, built'.trans built⟩
    rw [Builder.close, step]
    exact closed

/-- The stored tree is the node made once all inner ones are closed. -/
lemma build_eq {b b' : Builder} {length : Nat} (closed : b.close (b.frames.length - 1) = some b')
    (made : b'.arena.add? (b'.frames.headD ⟨.source, [], 0⟩).kind 0 length
      (b'.frames.headD ⟨.source, [], 0⟩).children = some (id, a')) :
    b.build length = some ⟨a', id⟩ := by
  simp only [Builder.build, closed, made, Option.bind_eq_bind, Option.bind_some, Option.pure_def]

/-- The arena holds the tree that is built, and only its root still waits for a parent. -/
lemma Models.build {length : Nat} (h : Models b t) (room : (t.build length).size < UInt32.size) :
    ∃ s, b.build length = some s ∧ Linked s.arena [s.root] ∧
      s.arena.Holds s.root (t.build length).root ∧ s.arena.size = (t.build length).size := by
  obtain ⟨b, t, closed, h', few, built⟩ := h.close room (Nat.le_refl _)
  rw [← h.frames.length_eq] at closed
  rw [← built] at room ⊢
  have now := h'.room room
  obtain ⟨arena, fs⟩ := b
  obtain ⟨gs, detached⟩ := t
  obtain ⟨linked, frames, size⟩ := h'
  cases frames with
  | nil =>
    rw [Tree.Builder.made_nil] at size
    obtain ⟨root, a', made, add, waiting, held⟩ := exists_node .source 0 length linked .nil now
    exact ⟨⟨a', root⟩, build_eq closed made, waiting, held,
      add.size.trans (congrArg (· + 1) size)⟩
  | @cons f g fs gs same rest =>
    obtain rfl : gs = [] := List.length_eq_zero_iff.mp (by rw [List.length_cons] at few; omega)
    cases rest
    rw [Tree.Builder.made_cons, Tree.Builder.made_nil] at size
    obtain ⟨root, a', made, add, waiting, held⟩ :=
      exists_node f.kind 0 length linked same.children now
    rw [same.kind] at held
    exact ⟨⟨a', root⟩, build_eq closed made, waiting, held,
      add.size.trans (congrArg (· + 1) size)⟩

end Builder

end Arena

namespace StoredTree

/-- If there is a number for every node, any steps build a tree that the arena holds. -/
theorem exists_ofActions (actions : List Tree.Builder.Action) (length : Nat)
    (room : (SyntaxTree.ofActions actions length).size < UInt32.size) :
    ∃ s, ofActions actions length = some s ∧ Arena.Linked s.arena [s.root] ∧
      s.arena.Holds s.root (SyntaxTree.ofActions actions length).root ∧
      s.arena.size = (SyntaxTree.ofActions actions length).size := by
  have enough := Tree.Builder.made_le_build (actions.foldl Tree.Builder.apply .empty) length
  obtain ⟨b, run, h⟩ := Arena.Builder.models_empty.run actions (Nat.lt_of_le_of_lt enough room)
  obtain ⟨s, built, result⟩ := h.build room
  refine ⟨s, ?_, result⟩
  rw [ofActions, run]
  exact built

end StoredTree

end TypeqlAssist
