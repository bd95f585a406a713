import TypeqlAssist.Proofs.Grammar.Recasting
import TypeqlAssist.Proofs.Token.Joining

/-!
# Reading further on

Tokens that stand a number of bytes further on are read as the same nodes and faults, further on
by as much (`readDocument_shift`).
-/

namespace TypeqlAssist

/-- The change that moves all tokens by a number of bytes. -/
def Recast.shift (d : Nat) : Recast where
  kind _ k := k
  offset n := d + n
  mono _ _ h := Nat.add_le_add_left h d
  recasts _ k := .same k

namespace Tree

mutual

/-- The same tree a number of bytes further on. -/
def shift (d : Nat) : Tree → Tree
  | node k a b cs => node k (d + a) (d + b) (shiftAll d cs)

/-- The same trees a number of bytes further on. -/
def shiftAll (d : Nat) : List Tree → List Tree
  | [] => []
  | t :: ts => t.shift d :: shiftAll d ts

end

mutual

/-- To move a tree is to change its offsets alone. -/
lemma recast_shift (d : Nat) : ∀ t : Tree, t.recast (.shift d) = t.shift d
  | node k a b cs => congrArg (node k (d + a) (d + b)) (recastAll_shift d cs)

/-- To move trees is to change their offsets alone. -/
lemma recastAll_shift (d : Nat) : ∀ ts : List Tree, recastAll (.shift d) ts = shiftAll d ts
  | [] => rfl
  | t :: ts => congrArg₂ List.cons (recast_shift d t) (recastAll_shift d ts)

end

end Tree

namespace Grammar

/-- The same fault a number of bytes further on. -/
def Fault.shift (d : Nat) (f : Fault) : Fault :=
  ⟨f.cause, d + f.start, d + f.stop⟩

/-- The same nodes, faults and tokens a number of bytes further on. -/
def Parsed.shift (d : Nat) (a : Parsed) : Parsed :=
  ⟨a.nodes.map (Tree.shift d), a.faults.map (Fault.shift d), a.rest.map (Token.shift d)⟩

/-- To move what was read is to change its offsets alone. -/
lemma Parsed.recast_shift (d : Nat) (a : Parsed) : a.recast (.shift d) = a.shift d := by
  rw [recast, shift, funext (Tree.recast_shift d)]
  rfl

/-- A document is read the same further on. -/
theorem readDocument_shift {eof d : Nat} (ts : List Token) :
    readDocument (d + eof) (ts.map (Token.shift d)) = (readDocument eof ts).shift d :=
  (readDocument_recast (.shift d) eof ts).trans (Parsed.recast_shift d _)

end Grammar

end TypeqlAssist
