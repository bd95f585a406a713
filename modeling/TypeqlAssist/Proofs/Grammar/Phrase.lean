import Mathlib.Tactic.Lemma
import TypeqlAssist.Grammar.Productions

/-!
# The phrases of TypeQL

The language as a grammar of its own, apart from the rules that read it: phrases are built from
words by sequence, choice and repetition, and `Derives` says which kinds of tokens a phrase stands
for. Phrases know nothing of lookahead, recovery or faults. A derivation goes through a bounded
number of blocks and expressions nested in each other.
-/

namespace TypeqlAssist

namespace Grammar

/-- What a part of a document looks like. -/
inductive Phrase where
  /-- No token. -/
  | empty
  /-- A token of one of some kinds. -/
  | word (ks : List Kind)
  /-- One phrase after another. -/
  | seq (a b : Phrase)
  /-- One of two phrases. -/
  | either (a b : Phrase)
  /-- A phrase any number of times. -/
  | star (a : Phrase)
  /-- A phrase that may contain itself. -/
  | nested (s : Symbol)

/--
The kinds of tokens that a phrase stands for, where `body` tells what the symbols stand for and at
most `n` of them are nested in each other.
-/
inductive Derives (body : Symbol → Phrase) : (n : Nat) → Phrase → List Kind → Prop where
  | empty {n} :
    Derives body n .empty []
  | word {n ks k} :
    k ∈ ks →
    Derives body n (.word ks) [k]
  | seq {n a b u v} :
    Derives body n a u →
    Derives body n b v →
    Derives body n (.seq a b) (u ++ v)
  | left {n a b w} :
    Derives body n a w →
    Derives body n (.either a b) w
  | right {n a b w} :
    Derives body n b w →
    Derives body n (.either a b) w
  | none {n a} :
    Derives body n (.star a) []
  | more {n a u v} :
    Derives body n a u →
    Derives body n (.star a) v →
    Derives body n (.star a) (u ++ v)
  | nested {n s w} :
    Derives body n (body s) w →
    Derives body (n + 1) (.nested s) w

namespace Phrase

/-! ## Notions -/

/-- A token of a kind. -/
def token (k : Kind) : Phrase :=
  word [k]

/-- A phrase or nothing. -/
def maybe (a : Phrase) : Phrase :=
  either a empty

/-- A phrase at least once. -/
def plus (a : Phrase) : Phrase :=
  seq a (star a)

/-- Phrases one after the other. -/
def row : List Phrase → Phrase
  | [] => empty
  | [a] => a
  | a :: as => seq a (row as)

/-- One of some phrases. -/
def choice : List Phrase → Phrase
  | [] => word []
  | [a] => a
  | a :: as => either a (choice as)

/-- A phrase at least once, with commas between. -/
def separated (a : Phrase) : Phrase :=
  seq a (star (seq (token .comma) a))

/-- A phrase any number of times, with a comma after each that the last one may lack. -/
def listed (a : Phrase) : Phrase :=
  seq (star (seq a (token .comma))) (maybe a)

/-! ## Types, variables and expressions -/

/-- A word of one of some kinds, and after a colon a role. -/
def reference (ks : List Kind) : Phrase :=
  seq (word ks) (maybe (seq (token .colon) (token .label)))

/-- A label, optionally with a role. -/
def labelRef : Phrase :=
  reference [.label]

/-- A label or a root kind, optionally with a role. -/
def typeRef : Phrase :=
  reference [.label, .rootKind]

/-- A type or a variable for one. -/
def typeOrVariable : Phrase :=
  either typeRef (token .var)

/-- Variables with commas between. -/
def variableList : Phrase :=
  separated (token .var)

/-- A variable, a literal, a label, a function call or an expression in brackets. -/
def operand : Phrase :=
  choice [
    word [.var, .numberLiteral, .stringLiteral, .label],
    row [token .label, token .lparen, maybe (separated (nested .expression)), token .rparen],
    row [token .lparen, nested .expression, token .rparen]]

/-- Operands with operators between. -/
def expression : Phrase :=
  seq operand (star (seq (token .operator) operand))

/-! ## Constraints -/

/-- Constraints, each with an optional comma in front. -/
def constraints (c : Phrase) : Phrase :=
  star (seq (maybe (token .comma)) c)

/-- A constraint on a type. -/
def typeConstraint : Phrase :=
  seq (word [.kwSub, .kwOwns, .kwRelates, .kwPlays, .kwValue]) typeOrVariable

/-- A variable with an optional role in front. -/
def rolePlayer : Phrase :=
  seq (maybe (seq labelRef (token .colon))) (token .var)

/-- An attribute with an optional value, or a variable for one. -/
def ownedAttribute : Phrase :=
  either (seq labelRef (maybe (word [.var, .stringLiteral, .numberLiteral]))) (token .var)

/-- A constraint on a thing. -/
def thingConstraint : Phrase :=
  choice [
    seq (token .kwIsa) typeOrVariable,
    seq (token .kwHas) ownedAttribute,
    row [token .kwLinks, token .lparen, separated rolePlayer, token .rparen]]

/-! ## Patterns -/

/-- A variable with constraints. To write is to say something of things. -/
def subject : Mode → Phrase
  | .writing => seq (token .var) (constraints thingConstraint)
  | .reading =>
    choice [
      token .var,
      row [token .var, thingConstraint, constraints thingConstraint],
      row [token .var, typeConstraint, constraints typeConstraint]]

/-- A pattern. -/
def pattern (mode : Mode) : Phrase :=
  choice [
    seq (word [.kwNot, .kwTry]) (nested (.block mode)),
    seq (nested (.block mode)) (star (seq (token .kwOr) (nested (.block mode)))),
    row [token .kwLet, variableList, token .assign, nested .expression],
    seq labelRef (constraints typeConstraint),
    subject mode]

/-- A pattern with its semicolon. -/
def patternEnd (mode : Mode) : Phrase :=
  seq (pattern mode) (token .semicolon)

/-- Patterns in braces. -/
def block (mode : Mode) : Phrase :=
  row [token .lbrace, star (patternEnd mode), token .rbrace]

/-- What the symbols stand for. -/
def body : Symbol → Phrase
  | .block mode => block mode
  | .expression => expression

/-! ## Stages -/

/-- A variable with an optional direction. -/
def sortKey : Phrase :=
  seq (token .var) (maybe (word [.kwAsc, .kwDesc]))

/-- A variable and the expression that it takes its value from. -/
def reduction : Phrase :=
  row [token .var, token .assign, nested .expression]

/-- A stage of a pipeline. -/
def stage : Phrase :=
  choice [
    seq (token .kwMatch) (plus (patternEnd .reading)),
    seq (word [.kwInsert, .kwDelete, .kwUpdate, .kwPut]) (plus (patternEnd .writing)),
    row [token .kwSelect, variableList, token .semicolon],
    row [token .kwSort, separated sortKey, token .semicolon],
    row [word [.kwLimit, .kwOffset], token .numberLiteral, token .semicolon],
    row [token .kwReduce, separated reduction, token .semicolon]]

/-! ## Schema definitions -/

/-- A type with its constraints. -/
def definable : Phrase :=
  row [maybe (token .rootKind), token .label, constraints typeConstraint]

/-- A variable with its type. -/
def parameter : Phrase :=
  row [token .var, token .colon, labelRef]

/-- Parameters in brackets. -/
def parameters : Phrase :=
  row [token .lparen, listed parameter, token .rparen]

/-- The types of the results, optionally in braces. -/
def returnTypes : Phrase :=
  either (row [token .lbrace, separated labelRef, token .rbrace]) (separated labelRef)

/-- The variables that are returned, optionally in braces, and optionally a label in front. -/
def returned : Phrase :=
  row [
    token .kwReturn, maybe (token .label),
    either (row [token .lbrace, variableList, token .rbrace]) variableList, token .semicolon]

/-- A function. -/
def function : Phrase :=
  row [
    token .kwFun, token .label, parameters, seq (token .arrow) returnTypes, token .colon,
    star stage, returned]

/-! ## Queries -/

/-- A definition: a type with its semicolon, or a function. -/
def definition : Phrase :=
  either (seq definable (token .semicolon)) function

/-- Definitions under a keyword. -/
def schema : Phrase :=
  seq (word [.kwDefine, .kwRedefine, .kwUndefine]) (plus definition)

/-- The optional end of a query. -/
def queryEnd : Phrase :=
  maybe (seq (token .kwEnd) (token .semicolon))

/-- A schema or a pipeline. -/
def query : Phrase :=
  seq (either schema (plus stage)) queryEnd

/-- A document. -/
def source : Phrase :=
  star query

end Phrase

/-! ## Inversion -/

variable {body : Symbol → Phrase} {n : Nat} {a b : Phrase} {w : List Kind}

/-- The empty phrase stands for no token. -/
lemma derives_empty : Derives body n .empty w ↔ w = [] := by
  constructor
  · rintro ⟨⟩; rfl
  · rintro rfl; exact .empty

/-- A word stands for one token of one of its kinds. -/
lemma derives_word {ks : List Kind} : Derives body n (.word ks) w ↔ ∃ k ∈ ks, w = [k] := by
  constructor
  · rintro ⟨⟩; exact ⟨_, ‹_›, rfl⟩
  · rintro ⟨k, hk, rfl⟩; exact .word hk

/-- A token stands for its kind. -/
lemma derives_token {k : Kind} : Derives body n (.token k) w ↔ w = [k] := by
  rw [Phrase.token, derives_word]
  simp

/-- A sequence stands for what its parts do, one behind the other. -/
lemma derives_seq :
    Derives body n (.seq a b) w ↔
      ∃ u v, w = u ++ v ∧ Derives body n a u ∧ Derives body n b v := by
  constructor
  · rintro ⟨⟩; exact ⟨_, _, rfl, ‹_›, ‹_›⟩
  · rintro ⟨u, v, rfl, hu, hv⟩; exact .seq hu hv

/-- A choice stands for what either phrase does. -/
lemma derives_either :
    Derives body n (.either a b) w ↔ Derives body n a w ∨ Derives body n b w := by
  constructor
  · rintro ⟨⟩
    · exact .inl ‹_›
    · exact .inr ‹_›
  · rintro (h | h)
    · exact .left h
    · exact .right h

/-- An option stands for what its phrase does, or for nothing. -/
lemma derives_maybe : Derives body n (.maybe a) w ↔ Derives body n a w ∨ w = [] := by
  rw [Phrase.maybe, derives_either, derives_empty]

/-- A symbol stands for what its phrase does, with one level less. -/
lemma derives_nested {s : Symbol} :
    Derives body (n + 1) (.nested s) w ↔ Derives body n (body s) w := by
  constructor
  · rintro ⟨⟩; exact ‹_›
  · exact .nested

/-- With no level left a symbol stands for nothing. -/
lemma not_derives_nested {s : Symbol} : ¬ Derives body 0 (.nested s) w :=
  nofun

/-- What holds of nothing, and with one more turn in front, holds of every repetition. -/
lemma Derives.star_induction {motive : List Kind → Prop} (h : Derives body n (.star a) w)
    (none : motive [])
    (more : ∀ u v, Derives body n a u → Derives body n (.star a) v → motive v →
      motive (u ++ v)) : motive w := by
  generalize e : Phrase.star a = c at h
  induction h with
  | none => exact none
  | more hu hv _ ih =>
    cases e
    exact more _ _ hu hv (ih more rfl)
  | _ => cases e

/-- A phrase repeated after a phrase repeated is the phrase repeated. -/
lemma Derives.star_append {u v : List Kind} (hu : Derives body n (.star a) u)
    (hv : Derives body n (.star a) v) : Derives body n (.star a) (u ++ v) := by
  refine hu.star_induction (motive := fun u => Derives body n (.star a) (u ++ v)) hv ?_
  intro u u' hu _ ih
  rw [List.append_assoc]
  exact .more hu ih

/-- What is repeated at least once is repeated. -/
lemma derives_star_of_plus (h : Derives body n (.plus a) w) : Derives body n (.star a) w := by
  obtain ⟨u, v, rfl, hu, hv⟩ := derives_seq.mp h
  exact .more hu hv

/-! ## First words -/

/-- A phrase stands for something, and that starts with one of some kinds. -/
def Starts (body : Symbol → Phrase) (n : Nat) (a : Phrase) (ks : List Kind) : Prop :=
  ∀ w, Derives body n a w → ∃ k ∈ ks, ∃ v, w = k :: v

variable {ks ks' : List Kind} {k : Kind}

/-- A word starts with one of its kinds. -/
lemma starts_word (hs : ks ⊆ ks') : Starts body n (.word ks) ks' := by
  intro w hw
  obtain ⟨k, hk, rfl⟩ := derives_word.mp hw
  exact ⟨k, hs hk, [], rfl⟩

/-- A token starts with its kind. -/
lemma starts_token (hk : k ∈ ks) : Starts body n (.token k) ks :=
  starts_word (by simpa using hk)

/-- A sequence starts as its first phrase does. -/
lemma Starts.seq (h : Starts body n a ks) : Starts body n (.seq a b) ks := by
  intro w hw
  obtain ⟨u, v, rfl, hu, _⟩ := derives_seq.mp hw
  obtain ⟨k, hk, u, rfl⟩ := h u hu
  exact ⟨k, hk, u ++ v, rfl⟩

/-- A sequence that starts with a token starts with its kind. -/
lemma starts_tokenThen (hk : k ∈ ks) : Starts body n (.seq (.token k) a) ks :=
  .seq (starts_token hk)

/-- A choice starts as one of its phrases does. -/
lemma Starts.either (ha : Starts body n a ks) (hb : Starts body n b ks) :
    Starts body n (.either a b) ks := by
  intro w hw
  rcases derives_either.mp hw with hw | hw
  · exact ha w hw
  · exact hb w hw

/-- With an option in front, a sequence starts as either phrase does. -/
lemma Starts.maybeThen (ha : Starts body n a ks) (hb : Starts body n b ks) :
    Starts body n (.seq (.maybe a) b) ks := by
  intro w hw
  obtain ⟨u, v, rfl, hu, hv⟩ := derives_seq.mp hw
  rcases derives_maybe.mp hu with hu | rfl
  · exact ha.seq _ (.seq hu hv)
  · exact hb v hv

/-- What starts with one of some kinds starts with one of more kinds. -/
lemma Starts.subset (h : Starts body n a ks) (hs : ks ⊆ ks') : Starts body n a ks' := by
  intro w hw
  obtain ⟨k, hk, e⟩ := h w hw
  exact ⟨k, hs hk, e⟩

/-- A symbol starts as its phrase does. -/
lemma Starts.nested {s : Symbol} (h : ∀ n, Starts body n (body s) ks) :
    Starts body n (.nested s) ks := by
  intro w hw
  cases hw with
  | nested hw => exact h _ w hw

/-- A phrase that starts with something stands for something. -/
lemma Starts.not_nil (h : Starts body n a ks) : ¬ Derives body n a [] := by
  intro hw
  obtain ⟨k, _, v, e⟩ := h [] hw
  cases e

/-- A phrase that does not stand for nothing stands for at least one token. -/
lemma Derives.length_pos (hw : Derives body n a w) (hn : ¬ Derives body n a []) :
    0 < w.length := by
  refine List.length_pos_iff.mpr ?_
  rintro rfl
  exact hn hw

/-- A type constraint starts with its keyword. -/
lemma starts_typeConstraint :
    Starts body n .typeConstraint [.kwSub, .kwOwns, .kwRelates, .kwPlays, .kwValue] :=
  .seq (starts_word (List.Subset.refl _))

/-- A constraint on a thing starts with its keyword. -/
lemma starts_thingConstraint : Starts body n .thingConstraint [.kwIsa, .kwHas, .kwLinks] := by
  refine .either (starts_tokenThen (by decide)) (.either ?_ ?_)
  · exact starts_tokenThen (by decide)
  · exact starts_tokenThen (by decide)

/-- A role player starts with its variable, or with its role. -/
lemma starts_rolePlayer : Starts body n .rolePlayer [.var, .label] := by
  refine .maybeThen (.seq (.seq ?_)) ?_
  · exact starts_word (by simp)
  · exact starts_token (by decide)

/-- An expression starts as its first operand does. -/
lemma starts_expression : Starts Phrase.body n (.nested .expression)
    [.var, .numberLiteral, .stringLiteral, .label, .lparen] := by
  refine .nested fun _ => .seq (.either ?_ (.either ?_ ?_))
  · exact starts_word (by simp)
  · exact starts_tokenThen (by decide)
  · exact starts_tokenThen (by decide)

/-- A block starts with its brace. -/
lemma starts_block {mode : Mode} : Starts Phrase.body n (.nested (.block mode)) [.lbrace] :=
  .nested fun _ => starts_tokenThen (by decide)

/-- A statement about a subject starts with a variable. -/
lemma starts_subject {mode : Mode} : Starts body n (.subject mode) [.var] := by
  cases mode with
  | writing => exact starts_tokenThen (by decide)
  | reading =>
    refine .either (starts_token (by decide)) (.either ?_ ?_)
    · exact starts_tokenThen (by decide)
    · exact starts_tokenThen (by decide)

/-- A pattern starts with a subject, a keyword or a brace. -/
lemma starts_pattern {mode : Mode} : Starts Phrase.body n (.pattern mode)
    [.var, .label, .kwLet, .kwNot, .kwTry, .lbrace] := by
  refine .either (.seq (starts_word (by simp))) (.either (.seq ?_) (.either (.seq ?_) ?_))
  · exact starts_block.subset (by simp)
  · exact starts_token (by decide)
  · refine .either (.seq (.seq (starts_word (by simp)))) ?_
    exact starts_subject.subset (by simp)

/-- A stage starts with its keyword. -/
lemma starts_stage : Starts body n .stage
    [.kwMatch, .kwInsert, .kwDelete, .kwUpdate, .kwPut, .kwSelect, .kwSort, .kwLimit, .kwOffset,
      .kwReduce] := by
  refine .either (starts_tokenThen (by decide)) (.either (.seq (starts_word (by simp))) ?_)
  refine .either (starts_tokenThen (by decide)) (.either (starts_tokenThen (by decide)) ?_)
  exact .either (.seq (starts_word (by simp))) (starts_tokenThen (by decide))

/-- A definition starts with its root kind, or with its label. -/
lemma starts_definable : Starts body n .definable [.rootKind, .label] :=
  .maybeThen (starts_token (by decide)) (starts_tokenThen (by decide))

/-- What is defined starts as a type or as a function. -/
lemma starts_definition : Starts body n .definition [.rootKind, .label, .kwFun] :=
  .either (.seq (starts_definable.subset (by simp))) (starts_tokenThen (by decide))

/-- A schema query starts with its keyword. -/
lemma starts_schema : Starts body n .schema [.kwDefine, .kwRedefine, .kwUndefine] :=
  .seq (starts_word (List.Subset.refl _))

/-! ## Lists -/

/-- A phrase with a comma after it may come in front of what is listed. -/
lemma Derives.listed_more {u c v : List Kind} (hu : Derives body n a u)
    (hc : Derives body n (.token .comma) c) (hv : Derives body n (.listed a) v) :
    Derives body n (.listed a) (u ++ (c ++ v)) := by
  obtain ⟨x, y, rfl, hx, hy⟩ := derives_seq.mp hv
  refine derives_seq.mpr ⟨u ++ c ++ x, y, ?_, .more (.seq hu hc) hx, hy⟩
  simp only [List.append_assoc]

/-- Phrases with commas between, where one more may come at the end, are listed. -/
lemma derives_listed :
    Derives body n (.listed a) w ↔
      Derives body n (.maybe
        (.seq a (.seq (.star (.seq (.token .comma) a)) (.maybe (.token .comma))))) w := by
  constructor
  · intro h
    obtain ⟨x, y, rfl, hx, hy⟩ := derives_seq.mp h
    -- the comma of every turn but the last one comes in front of the next phrase
    refine hx.star_induction (motive := fun x => Derives body n _ (x ++ y)) ?_ ?_
    · rcases derives_maybe.mp hy with hy | rfl
      · refine .left (derives_seq.mpr ⟨y, [], (List.append_nil y).symm, hy, ?_⟩)
        exact derives_seq.mpr ⟨[], [], rfl, .none, .right .empty⟩
      · exact .right .empty
    · intro x z hx _ ih
      obtain ⟨u, c, rfl, hu, hc⟩ := derives_seq.mp hx
      rw [List.append_assoc, List.append_assoc]
      refine .left (.seq hu ?_)
      rcases derives_maybe.mp ih with ih | e
      · obtain ⟨u', r, e, hu', hr⟩ := derives_seq.mp ih
        obtain ⟨v, c', rfl, hv, hc'⟩ := derives_seq.mp hr
        refine derives_seq.mpr ⟨c ++ u' ++ v, c', ?_, .more (.seq hc hu') hv, hc'⟩
        rw [e, List.append_assoc, List.append_assoc]
      · rw [e, List.append_nil]
        exact .seq .none (.left hc)
  · -- the other way, each comma goes to the phrase in front of it
    intro h
    rcases derives_maybe.mp h with h | rfl
    · obtain ⟨u, r, rfl, hu, hr⟩ := derives_seq.mp h
      obtain ⟨v, c, rfl, hv, hc⟩ := derives_seq.mp hr
      refine hv.star_induction
        (motive := fun v => ∀ u, Derives body n a u → Derives body n (.listed a) (u ++ (v ++ c)))
        ?_ ?_ u hu
      · intro u hu
        rcases derives_maybe.mp hc with hc | rfl
        · have h := hu.listed_more hc (.seq .none (.right .empty))
          simpa using h
        · exact derives_seq.mpr ⟨[], u, List.append_nil u, .none, .left hu⟩
      · intro x v hx _ ih u hu
        obtain ⟨k, p, rfl, hk, hp⟩ := derives_seq.mp hx
        have h := hu.listed_more hk (ih p hp)
        simpa only [List.append_assoc] using h
    · exact .seq .none (.right .empty)

end Grammar

end TypeqlAssist
