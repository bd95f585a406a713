import TypeqlAssist.Grammar.Fault
import TypeqlAssist.Tree.Basic

/-!
# Error-tolerant grammar rules

A `Rule` describes how a production reads the tokens in front of it. Rules are data, and
`Rule.run` is their only interpreter: it never fails, puts every token it reads into the tree
exactly once, and wraps what it cannot place in `error` nodes, each with a `Fault`.

Productions that contain themselves are named by a `Symbol`, and a rule reaches one only through
`Rule.nested`. How a symbol is read is a parameter of the interpreter, so the number of levels is
bounded from outside and every run ends.
-/

namespace TypeqlAssist

namespace Grammar

/-- The kinds of the next two tokens; at the end of the input there is none. -/
structure Lookahead where
  first : Option Kind
  second : Option Kind
  deriving DecidableEq, Repr

/-- The kinds of the first two of some tokens. -/
def Lookahead.of (tokens : List Token) : Lookahead :=
  ⟨tokens[0]?.map (·.kind), tokens[1]?.map (·.kind)⟩

/-- A question about the next tokens. -/
abbrev Test := Lookahead → Bool

/-- What patterns may say: a writing clause takes every subject for a thing. -/
inductive Mode where
  | reading
  | writing
  deriving DecidableEq, Repr

/-- The productions that may contain themselves. -/
inductive Symbol where
  | block (mode : Mode)
  | expression
  deriving DecidableEq, Repr

/-- How a production reads the tokens in front of it. -/
inductive Rule where
  /-- Reads nothing. -/
  | skip
  /-- Reads the next token. -/
  | take
  /-- Notes that something is absent here, as an error node without width. -/
  | missing (wanted : Wanted)
  /-- Wraps the next token in an error node. -/
  | stray
  /-- Wraps the input up to the next `;`, or before the next recovery point, in an error node. -/
  | recover
  /-- Reads a production one level further down. -/
  | nested (symbol : Symbol)
  /-- Reads one rule, then another. -/
  | seq (p q : Rule)
  /-- Encloses what a rule reads in a node. -/
  | node (kind : Kind) (p : Rule)
  /-- Reads one of two rules, by the next tokens. -/
  | branch (test : Test) (p q : Rule)
  /-- Reads a rule again and again while the next tokens pass a test. -/
  | many (test : Test) (p : Rule)
  /-- Reads a rule, and if the next tokens pass a test, a second one, both enclosed in a node. -/
  | joined (p : Rule) (test : Test) (kind : Kind) (q : Rule)

/-- What was read from some tokens: nodes and faults in document order, and the tokens left. -/
structure Parsed where
  nodes : List Tree
  faults : List Fault
  rest : List Token
  deriving Repr, Inhabited

/-- What was read first, followed by what was read from the tokens it left. -/
def Parsed.followedBy (a b : Parsed) : Parsed :=
  ⟨a.nodes ++ b.nodes, a.faults ++ b.faults, b.rest⟩

/-- The tokens at which an unfinished construct is given up. -/
def isRecoveryPoint (k : Kind) : Bool :=
  k.isStageKeyword || k.isSchemaKeyword ||
    match k with
    | .kwEnd | .kwReturn | .kwFun | .rbrace => true
    | _ => false

/-- The productions that can keep growing, and so stay open at the end of the input. -/
def isOpenEnded : Kind → Bool
  | .query | .querySchema | .queryPipeline
  | .clauseMatch | .clauseInsert | .clauseDelete | .clauseUpdate | .clausePut
  | .definable | .function
  | .statement | .statementThing | .statementType | .statementAssignment
  | .patternDisjunction | .expression | .error => true
  | _ => false

/-- The last child closes a node: a closing bracket always, a `;` only a query or an error. -/
def isClosedBy (kind : Kind) : Option Kind → Bool
  | some .rbrace | some .rparen => true
  | some .semicolon => kind == .query || kind == .error
  | _ => false

/-- The offset of the next token, or the end of the document. -/
def offsetOf (eof : Nat) (tokens : List Token) : Nat :=
  (tokens.head?.map (·.start)).getD eof

/--
A node over children that were read. With no token left, an open-ended node that nothing closes
reaches to the end of the document, so that a cursor behind it is still inside.
-/
def enclosed (eof : Nat) (kind : Kind) (offset : Nat) (children : List Tree) (rest : List Token) :
    Tree :=
  let stays := rest.isEmpty && isOpenEnded kind &&
    !isClosedBy kind (children.getLast?.map Tree.kind)
  Tree.enclose kind offset children (if stays then some eof else none)

/-- Notes that something is absent in front of some tokens. -/
def absent (eof : Nat) (wanted : Wanted) (tokens : List Token) : Parsed :=
  let offset := offsetOf eof tokens
  ⟨[.node .error offset offset []], [⟨.missing wanted, offset, offset⟩], tokens⟩

/-- Wraps the first `n` tokens in an error node; the fault ends with the last of them. -/
def wrapped (eof : Nat) (cause : Cause) (n : Nat) (tokens : List Token) : Parsed :=
  let taken := tokens.take n
  let rest := tokens.drop n
  let offset := offsetOf eof tokens
  ⟨[enclosed eof .error offset (taken.map Tree.leaf) rest],
    [⟨cause, offset, (taken.getLast?.map (·.stop)).getD offset⟩], rest⟩

/-- The number of tokens in front of the next `;` or recovery point. -/
def lengthBeforeStop : List Token → Nat
  | [] => 0
  | t :: ts => if t.kind == .semicolon || isRecoveryPoint t.kind then 0 else lengthBeforeStop ts + 1

/-- The number of tokens up to the next `;`, or in front of the next recovery point. -/
def lengthThroughStop : List Token → Nat
  | [] => 0
  | t :: ts =>
    if isRecoveryPoint t.kind then 0
    else if t.kind == .semicolon then 1
    else lengthThroughStop ts + 1

/-- The number of tokens to recover: the first in any case, and then through the next stop. -/
def recoveryLength : List Token → Nat
  | [] => 0
  | t :: ts => if t.kind == .semicolon then 1 else lengthThroughStop ts + 1

/-- What is read below the last level of nesting: everything up to the next stop, as an error. -/
def cutOff (eof : Nat) (tokens : List Token) : Parsed :=
  wrapped eof .tooDeep (lengthBeforeStop tokens) tokens

/-- Reads again and again while the next tokens pass a test, at most `fuel` times. -/
def repeatWhile (test : Test) (read : List Token → Parsed) : (fuel : Nat) → List Token → Parsed
  | 0, tokens => ⟨[], [], tokens⟩
  | fuel + 1, tokens =>
    if test (.of tokens) then
      let a := read tokens
      a.followedBy (repeatWhile test read fuel a.rest)
    else ⟨[], [], tokens⟩

/-- Induction along a loop, whatever its fuel: it reads nothing, or takes a turn and goes on. -/
theorem repeatWhile_induction {motive : List Token → Parsed → Prop} {test : Test}
    {read : List Token → Parsed} (stop : ∀ ts, motive ts ⟨[], [], ts⟩)
    (turn : ∀ ts others, test (.of ts) = true → motive (read ts).rest others →
      motive ts ((read ts).followedBy others))
    (fuel : Nat) (ts : List Token) : motive ts (repeatWhile test read fuel ts) := by
  induction fuel generalizing ts with
  | zero => exact stop ts
  | succ fuel ih =>
    rw [repeatWhile]
    split
    next pass => exact turn ts _ pass (ih _)
    next => exact stop ts

/-- What a rule reads, where `inner` reads the symbols one level further down. -/
def Rule.run (eof : Nat) (inner : Symbol → List Token → Parsed) : Rule → List Token → Parsed
  | skip, tokens => ⟨[], [], tokens⟩
  | take, [] => ⟨[], [], []⟩
  | take, t :: ts => ⟨[.leaf t], [], ts⟩
  | missing wanted, tokens => absent eof wanted tokens
  | stray, [] => ⟨[], [], []⟩
  | stray, t :: ts => wrapped eof .unexpected 1 (t :: ts)
  | recover, [] => ⟨[], [], []⟩
  | recover, t :: ts => wrapped eof .unexpected (recoveryLength (t :: ts)) (t :: ts)
  | nested symbol, tokens => inner symbol tokens
  | seq p q, tokens =>
    let a := p.run eof inner tokens
    a.followedBy (q.run eof inner a.rest)
  | node kind p, tokens =>
    let a := p.run eof inner tokens
    ⟨[enclosed eof kind (offsetOf eof tokens) a.nodes a.rest], a.faults, a.rest⟩
  | branch test p q, tokens =>
    if test (.of tokens) then p.run eof inner tokens else q.run eof inner tokens
  | many test p, tokens => repeatWhile test (fun ts => p.run eof inner ts) tokens.length tokens
  | joined p test kind q, tokens =>
    let a := p.run eof inner tokens
    if test (.of a.rest) then
      let b := a.followedBy (q.run eof inner a.rest)
      ⟨[enclosed eof kind (offsetOf eof tokens) b.nodes b.rest], b.faults, b.rest⟩
    else a

/-- A loop whose test the next tokens pass takes a turn and goes on with what that leaves. -/
theorem Rule.run_many_turn {eof : Nat} {inner : Symbol → List Token → Parsed} {test : Test}
    {p : Rule} {t : Token} {ts : List Token} (pass : test (.of (t :: ts)) = true) :
    (many test p).run eof inner (t :: ts) =
      (p.run eof inner (t :: ts)).followedBy
        (repeatWhile test (p.run eof inner) ts.length (p.run eof inner (t :: ts)).rest) := by
  rw [Rule.run, List.length_cons, repeatWhile, if_pos pass]

/-- What a symbol reads with a number of levels left, by the rule that defines it. -/
def runSymbol (definition : Symbol → Rule) (eof : Nat) :
    (levels : Nat) → Symbol → List Token → Parsed
  | 0, _, tokens => cutOff eof tokens
  | levels + 1, symbol, tokens =>
    (definition symbol).run eof (runSymbol definition eof levels) tokens

end Grammar

end TypeqlAssist
