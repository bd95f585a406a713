import Mathlib.Tactic.Lemma
import TypeqlAssist.Document
import TypeqlAssist.Tree.Builder

/-!
# Reading with a builder

A second interpreter of rules: a machine that goes through the tokens once and makes the tree by
the steps of a `Builder`, opening and closing one node at a time and adopting the children since a
checkpoint. `Rule.drive_eq` shows that it attaches exactly the nodes that `Rule.run` reads, so at
the end of a document only the root is open and nothing has been made outside of it.
-/

namespace TypeqlAssist

namespace Tree.Builder

/-- Finished trees go to the innermost open node one after the other. -/
def attachAll (b : Builder) (ts : List Tree) : Builder :=
  ts.foldl attach b

/-- Trees are attached one after another. -/
lemma attachAll_append (b : Builder) (ts us : List Tree) :
    b.attachAll (ts ++ us) = (b.attachAll ts).attachAll us :=
  List.foldl_append

/-- With a node open, finished trees become its last children. -/
lemma attachAll_cons (f : Frame) (fs : List Frame) (detached ts : List Tree) :
    attachAll ⟨f :: fs, detached⟩ ts =
      ⟨{ f with children := f.children ++ ts } :: fs, detached⟩ := by
  induction ts generalizing f with
  | nil => rw [List.append_nil]; rfl
  | cons t ts ih =>
    change attachAll ⟨{ f with children := f.children ++ [t] } :: fs, detached⟩ ts = _
    rw [ih, List.append_assoc]
    rfl

/-- Attaching trees leaves a frame open. -/
lemma attachAll_frames {b : Builder} (h : b.frames ≠ []) (ts : List Tree) :
    (b.attachAll ts).frames ≠ [] := by
  obtain ⟨frames, detached⟩ := b
  cases frames with
  | nil => exact absurd rfl h
  | cons f fs => rw [attachAll_cons]; exact nofun

end Tree.Builder

namespace Grammar

open TypeqlAssist.Tree

/-- The builder, the faults so far and the tokens that are left. -/
structure Machine where
  builder : Builder
  faults : List Fault
  rest : List Token

namespace Machine

/-- Adds the next token to the tree. -/
def bump (m : Machine) : Machine :=
  match m.rest with
  | [] => m
  | t :: ts => { m with builder := m.builder.token t, rest := ts }

/-- Adds a number of tokens to the tree. -/
def bumps : Nat → Machine → Machine
  | 0, m => m
  | n + 1, m => bumps n m.bump

/-- Opens a node in front of the next token. -/
def start (eof : Nat) (kind : Kind) (m : Machine) : Machine :=
  { m with builder := m.builder.start kind (offsetOf eof m.rest) }

/-- Closes the innermost open node. With no token left it may reach to the end of the document. -/
def finish (eof : Nat) (m : Machine) : Machine :=
  match m.builder.currentKind? with
  | none => m
  | some kind =>
    let stays := m.rest.isEmpty && isOpenEnded kind &&
      !isClosedBy kind m.builder.lastChildKind?
    { m with builder := m.builder.finish (if stays then some eof else none) }

/-- Notes a fault. -/
def report (f : Fault) (m : Machine) : Machine :=
  { m with faults := m.faults ++ [f] }

/-- Notes that something is absent in front of the next token. -/
def absent (eof : Nat) (wanted : Wanted) (m : Machine) : Machine :=
  let offset := offsetOf eof m.rest
  { m with builder := (m.builder.start .error offset).finish none }.report
    ⟨.missing wanted, offset, offset⟩

/-- Wraps a number of tokens in an error node. -/
def wrap (eof : Nat) (cause : Cause) (n : Nat) (m : Machine) : Machine :=
  let offset := offsetOf eof m.rest
  (((m.start eof .error).bumps n).finish eof).report
    ⟨cause, offset, ((m.rest.take n).getLast?.map (·.stop)).getD offset⟩

/-- Takes turns while the next tokens pass a test, at most `fuel` of them. -/
def repeatWhile (test : Test) (turn : Machine → Machine) : (fuel : Nat) → Machine → Machine
  | 0, m => m
  | fuel + 1, m => if test (.of m.rest) then repeatWhile test turn fuel (turn m) else m

/-- The machine after something was read from its tokens. -/
def after (m : Machine) (a : Parsed) : Machine :=
  ⟨m.builder.attachAll a.nodes, m.faults ++ a.faults, a.rest⟩

end Machine

/-- What the machine does for a rule, where `inner` does it for the symbols one level down. -/
def Rule.drive (eof : Nat) (inner : Symbol → Machine → Machine) : Rule → Machine → Machine
  | skip, m => m
  | take, m => m.bump
  | missing wanted, m => m.absent eof wanted
  | stray, m => if m.rest.isEmpty then m else m.wrap eof .unexpected 1
  | recover, m => if m.rest.isEmpty then m else m.wrap eof .unexpected (recoveryLength m.rest)
  | nested symbol, m => inner symbol m
  | seq p q, m => q.drive eof inner (p.drive eof inner m)
  | node kind p, m => (p.drive eof inner (m.start eof kind)).finish eof
  | branch test p q, m =>
    if test (.of m.rest) then p.drive eof inner m else q.drive eof inner m
  | many test p, m => m.repeatWhile test (fun m => p.drive eof inner m) m.rest.length
  | joined p test kind q, m =>
    let a := p.drive eof inner m
    if test (.of a.rest) then
      let b := { a with builder := a.builder.startAt m.builder.checkpoint kind }
      (q.drive eof inner b).finish eof
    else a

/-- What the machine does for a symbol with a number of levels left. -/
def driveSymbol (definition : Symbol → Rule) (eof : Nat) :
    (levels : Nat) → Symbol → Machine → Machine
  | 0, _, m => m.wrap eof .tooDeep (lengthBeforeStop m.rest)
  | levels + 1, symbol, m =>
    (definition symbol).drive eof (driveSymbol definition eof levels) m

/-- The machine at the end of a document. -/
def driveDocument (text : Text) : Machine :=
  let eof := text.byteSize
  queries.drive eof (driveSymbol definitionOf eof maxNesting)
    ⟨Builder.empty.start .source 0, [], tokenize text⟩

/-! ## The machine attaches what is read -/

namespace Machine

variable {eof : Nat} {m : Machine}

/-- After a reading, the tokens are left that it leaves. -/
lemma after_rest (m : Machine) (a : Parsed) : (m.after a).rest = a.rest := rfl

/-- After nothing is read, the machine is as it was. -/
lemma after_nothing (m : Machine) : m.after ⟨[], [], m.rest⟩ = m := by
  rw [after, List.append_nil]
  rfl

/-- After one reading and another, the machine is as after both. -/
lemma after_followedBy (m : Machine) (a b : Parsed) :
    m.after (a.followedBy b) = (m.after a).after b := by
  rw [after, Parsed.followedBy, Builder.attachAll_append, ← List.append_assoc]
  rfl

/-- A number of tokens become leaves. -/
lemma bumps_eq (n : Nat) (m : Machine) :
    m.bumps n = m.after ⟨(m.rest.take n).map leaf, [], m.rest.drop n⟩ := by
  induction n generalizing m with
  | zero => exact (after_nothing m).symm
  | succ n ih =>
    obtain ⟨b, fs, ts⟩ := m
    cases ts with
    | nil =>
      rw [bumps, bump, ih]
      simp only [List.take_nil, List.drop_nil]
    | cons t ts =>
      rw [bumps, bump, ih]
      rfl

/-- A node that is opened, filled and closed again is attached as a whole. -/
lemma finish_start (m : Machine) (k : Kind) (a : Parsed) :
    ((m.start eof k).after a).finish eof =
      m.after ⟨[enclosed eof k (offsetOf eof m.rest) a.nodes a.rest], a.faults, a.rest⟩ := by
  simp only [start, Builder.start, after, Builder.attachAll_cons, finish, Builder.currentKind?,
    List.head?_cons, Option.map_some, Builder.lastChildKind?, Option.bind_some, List.nil_append,
    Builder.finish]
  rfl

/-- Noting a gap is what the grammar says of it. -/
lemma absent_eq (wanted : Wanted) (m : Machine) :
    m.absent eof wanted = m.after (Grammar.absent eof wanted m.rest) := by
  obtain ⟨⟨frames, detached⟩, fs, ts⟩ := m
  simp only [absent, report, Builder.start, Builder.finish, enclose, List.head?_nil,
    Option.map_none, Option.getD_none, List.getLast?_nil, Nat.max_self]
  rfl

/-- Wrapping tokens is what the grammar says of it. -/
lemma wrap_eq (cause : Cause) (n : Nat) (m : Machine) :
    m.wrap eof cause n = m.after (wrapped eof cause n m.rest) := by
  simp only [wrap, bumps_eq]
  rw [show (m.start eof .error).rest = m.rest from rfl, finish_start, report, after, after,
    List.append_nil]
  rfl

/-- The offset of a node with children is where the first child starts. -/
lemma enclose_offset {ts : List Tree} (h : ts ≠ []) (k : Kind) (o o' : Nat) (e : Option Nat) :
    enclose k o ts e = enclose k o' ts e := by
  cases ts with
  | nil => exact absurd rfl h
  | cons t ts => rfl

/-- Adopting the children since a checkpoint encloses what was read since then. -/
lemma finish_startAt (h : m.builder.frames ≠ []) {k : Kind} {a b : Parsed} (ha : a.nodes ≠ []) :
    ({ m.after a with builder := (m.after a).builder.startAt m.builder.checkpoint k }.after
      b).finish eof =
      m.after ⟨[enclosed eof k (offsetOf eof m.rest) (a.nodes ++ b.nodes) b.rest],
        a.faults ++ b.faults, b.rest⟩ := by
  obtain ⟨⟨frames, detached⟩, fs, ts⟩ := m
  cases frames with
  | nil => exact absurd rfl h
  | cons f frames =>
    have some : a.nodes ++ b.nodes ≠ [] := fun nil => ha (List.append_eq_nil_iff.mp nil).1
    simp only [after, Builder.attachAll_cons, Builder.checkpoint, Builder.startAt,
      List.drop_left, List.take_left, finish, Builder.currentKind?, List.head?_cons,
      Option.map_some, Builder.lastChildKind?, Option.bind_some, Builder.finish]
    rw [enclose_offset some _ _ (offsetOf eof ts), List.append_assoc]
    rfl

/-- Turns that attach what is read attach what is read in all turns. -/
lemma repeatWhile_eq {test : Test} {turn : Machine → Machine} {read : List Token → Parsed}
    (ht : ∀ m : Machine, m.builder.frames ≠ [] → turn m = m.after (read m.rest)) (fuel : Nat)
    {m : Machine} (h : m.builder.frames ≠ []) :
    m.repeatWhile test turn fuel = m.after (Grammar.repeatWhile test read fuel m.rest) := by
  induction fuel generalizing m with
  | zero => exact (after_nothing m).symm
  | succ fuel ih =>
    rw [repeatWhile, Grammar.repeatWhile]
    split
    · rw [ht m h, ih (Builder.attachAll_frames h _), after_followedBy]
      rfl
    · exact (after_nothing m).symm

end Machine

/-- A rule that is one node. -/
def Rule.isNode : Rule → Bool
  | node _ _ => true
  | _ => false

/-- What a rule encloses together with a node read before it is one node. -/
def Rule.joinsNodes : Rule → Bool
  | skip | take | missing _ | stray | recover | nested _ => true
  | seq p q | branch _ p q => p.joinsNodes && q.joinsNodes
  | node _ p | many _ p => p.joinsNodes
  | joined p _ _ q => p.isNode && p.joinsNodes && q.joinsNodes

/-- A rule that is one node makes one. -/
lemma Rule.nodes_ne_nil {r : Rule} (h : r.isNode = true) (eof : Nat)
    (inner : Symbol → List Token → Parsed) (ts : List Token) :
    (r.run eof inner ts).nodes ≠ [] := by
  cases r with
  | node k p => exact nofun
  | _ => cases h

/-- The machine attaches exactly the nodes that a rule reads, and keeps its faults. -/
theorem Rule.drive_eq {eof : Nat} {step : Symbol → Machine → Machine}
    {inner : Symbol → List Token → Parsed}
    (hi : ∀ s m, m.builder.frames ≠ [] → step s m = m.after (inner s m.rest))
    {r : Rule} (hj : r.joinsNodes = true) {m : Machine} (h : m.builder.frames ≠ []) :
    r.drive eof step m = m.after (r.run eof inner m.rest) := by
  induction r generalizing m with
  | skip => exact (Machine.after_nothing m).symm
  | take =>
    obtain ⟨b, fs, ts⟩ := m
    cases ts with
    | nil => exact (Machine.after_nothing _).symm
    | cons t ts =>
      rw [drive, Machine.bump, Machine.after, run, List.append_nil]
      rfl
  | missing wanted => exact Machine.absent_eq wanted m
  | stray =>
    obtain ⟨b, fs, ts⟩ := m
    cases ts with
    | nil => exact (Machine.after_nothing _).symm
    | cons t ts => exact Machine.wrap_eq ..
  | recover =>
    obtain ⟨b, fs, ts⟩ := m
    cases ts with
    | nil => exact (Machine.after_nothing _).symm
    | cons t ts => exact Machine.wrap_eq ..
  | nested s => exact hi s m h
  | seq p q ihp ihq =>
    simp only [joinsNodes, Bool.and_eq_true] at hj
    rw [Rule.drive, ihp hj.1 h, ihq hj.2 (Builder.attachAll_frames h _), run,
      Machine.after_followedBy]
    rfl
  | node k p ih =>
    rw [Rule.drive, ih hj (List.cons_ne_nil _ _), Machine.finish_start]
    rfl
  | branch test p q ihp ihq =>
    simp only [joinsNodes, Bool.and_eq_true] at hj
    rw [Rule.drive, run]
    split
    · exact ihp hj.1 h
    · exact ihq hj.2 h
  | many test p ih => exact Machine.repeatWhile_eq (fun m h => ih hj h) _ h
  | joined p test k q ihp ihq =>
    simp only [joinsNodes, Bool.and_eq_true] at hj
    simp only [Rule.drive, run, ihp hj.1.2 h, Machine.after_rest]
    by_cases pass : test (.of (p.run eof inner m.rest).rest) = true
    · have adopted : ((m.after (p.run eof inner m.rest)).builder.startAt m.builder.checkpoint
          k).frames ≠ [] := by
        unfold Builder.startAt
        split <;> exact List.cons_ne_nil _ _
      rw [if_pos pass, if_pos pass, ihq hj.2 adopted]
      exact Machine.finish_startAt h (nodes_ne_nil hj.1.1 eof inner m.rest)
    · rw [if_neg pass, if_neg pass]

/-- Driving a symbol does what reading it says, with any number of levels left. -/
lemma driveSymbol_eq {definition : Symbol → Rule} {eof : Nat}
    (hj : ∀ s, (definition s).joinsNodes = true) (levels : Nat) (s : Symbol) {m : Machine}
    (h : m.builder.frames ≠ []) :
    driveSymbol definition eof levels s m =
      m.after (runSymbol definition eof levels s m.rest) := by
  induction levels generalizing s m with
  | zero => exact Machine.wrap_eq ..
  | succ levels ih => exact Rule.drive_eq (fun s _ => ih s) (hj s) h

/-- The grammar only encloses nodes together. -/
lemma joinsNodes_productions :
    queries.joinsNodes = true ∧ ∀ s, (definitionOf s).joinsNodes = true := by
  refine ⟨by decide, ?_⟩
  rintro (⟨⟨⟩⟩ | ⟨⟩) <;> decide

/-- At the end of a document the machine has only the root open, with all that was read in it. -/
theorem driveDocument_eq (text : Text) :
    driveDocument text =
      ⟨⟨[⟨.source, (readDocument text.byteSize (tokenize text)).nodes, 0⟩], []⟩,
        (readDocument text.byteSize (tokenize text)).faults,
        (readDocument text.byteSize (tokenize text)).rest⟩ := by
  rw [driveDocument, Rule.drive_eq (fun s _ => driveSymbol_eq joinsNodes_productions.2 maxNesting s)
    joinsNodes_productions.1 (List.cons_ne_nil _ _), Machine.after, Builder.start,
    Builder.attachAll_cons]
  rfl

/-- The tree of a document is the tree that the machine builds. -/
theorem build_driveDocument (text : Text) :
    (driveDocument text).builder.build text.byteSize = (parse text).tree := by
  rw [driveDocument_eq]
  rfl

end Grammar

end TypeqlAssist
