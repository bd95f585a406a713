import TypeqlAssist.Text.Bytes

/-!
# Patterns

A pattern is a row of pieces, and a text matches it if some part of the text is what the pieces
read, one behind the other. A class stands between brackets: it lists characters and ranges of
them, a backslash takes the character behind it as it is, and a star behind the class allows any
number of its characters. The marks `^` and `$` read nothing; they hold at the start and at the end
of the text only.
-/

namespace TypeqlAssist

namespace Completion

namespace Pattern

/-- The characters of a class, as ranges with both ends. -/
abbrev Class := List (Char × Char)

/-- The character is in one of the ranges. -/
def Class.contains (k : Class) (c : Char) : Bool :=
  k.any fun range => range.1 ≤ c && c ≤ range.2

/-- A piece of a pattern. -/
inductive Piece where
  | textStart
  | textEnd
  | one (k : Class)
  | many (k : Class)
  deriving DecidableEq, Repr

/-- The pieces of a pattern. A class may be open, of which some characters have been read. -/
def read? : (opened : Option Class) → Text → Option (List Piece)
  | none, [] => some []
  | some _, [] => none
  | none, '^' :: cs => (read? none cs).map (.textStart :: ·)
  | none, '$' :: cs => (read? none cs).map (.textEnd :: ·)
  | none, '[' :: cs => read? (some []) cs
  | none, _ :: _ => none
  | some k, ']' :: '*' :: cs => (read? none cs).map (.many k :: ·)
  | some k, ']' :: cs => (read? none cs).map (.one k :: ·)
  | some k, '\\' :: c :: cs => read? (some (k ++ [(c, c)])) cs
  | some k, c :: '-' :: d :: cs => read? (some (k ++ [(c, d)])) cs
  | some k, c :: cs => read? (some (k ++ [(c, c)])) cs

/-- What a piece reads, between what stands before and behind it. -/
inductive Piece.Reads : Piece → (before part behind : Text) → Prop where
  | textStart {behind} :
    Reads .textStart [] [] behind
  | textEnd {before} :
    Reads .textEnd before [] []
  | one {k c before behind} :
    Class.contains k c = true →
    Reads (.one k) before [c] behind
  | many {k part before behind} :
    (∀ c ∈ part, Class.contains k c = true) →
    Reads (.many k) before part behind

/-- What pieces read, one behind the other. -/
inductive Reads : List Piece → (before part behind : Text) → Prop where
  | nil {before behind} :
    Reads [] before [] behind
  | cons {p ps x y before behind} :
    p.Reads before x (y ++ behind) →
    Reads ps (before ++ x) y behind →
    Reads (p :: ps) before (x ++ y) behind

/-- Some part of the text is what the pieces of the pattern read. -/
def Matches (pattern : String) (text : Text) : Prop :=
  ∃ pieces before part behind, read? none pattern.toList = some pieces ∧
    text = before ++ (part ++ behind) ∧ Reads pieces before part behind

end Pattern

end Completion

end TypeqlAssist
