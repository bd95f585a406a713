import TypeqlAssist.Proofs.Cases.Steps

/-!
# Case files behind each other

Two case files with a separator between them have the cases of both, if the first one leaves nothing
over. But a draft without a description and an input is no case, and the separator does not clear
it: what it says of the expected, the excluded and the mode goes over to the first case behind the
separator, unless that names the field itself (`readCases_append`).
-/

namespace TypeqlAssist

namespace Cases

open Text

/-! ## What a draft hands on -/

/-- A draft with the field is that of a case. -/
def Field.opensCase : Field → Bool
  | description => true
  | input => true
  | _ => false

namespace Draft

variable {left d d' : Draft} {fs : List Field} {f : Field} {value : List Text}

/-- A draft that goes on from another one, after some fields are set. -/
def resume (left d : Draft) (fs : List Field) : Draft where
  description := d.description
  input := d.input
  expected := if .expected ∈ fs then d.expected else left.expected
  excluded := if .excluded ∈ fs then d.excluded else left.excluded
  mode := if .mode ∈ fs then d.mode else left.mode

/-- A case that starts with a draft, and sets some fields itself. -/
def handOn (left : Draft) (fs : List Field) (c : Case) : Case where
  description := c.description
  input := c.input
  expected := if .expected ∈ fs then c.expected else left.expected
  excluded := if .excluded ∈ fs then c.excluded else left.excluded
  mode := if .mode ∈ fs then c.mode else left.mode.getD .contains

/-- Setting a field goes on from the other draft too. -/
lemma set_resume (h : d.set f value = .ok d') :
    (left.resume d fs).set f value = .ok (left.resume d' (f :: fs)) := by
  cases f with
  | description =>
    cases h
    simp [set, resume]
  | input =>
    cases h
    simp [set, resume]
  | expected =>
    obtain ⟨items, read, rfl⟩ := exists_of_map_ok h
    simp [set, resume, read, Except.map]
  | excluded =>
    cases h
    simp [set, resume]
  | mode =>
    obtain ⟨m, read, rfl⟩ := exists_of_map_ok h
    simp [set, resume, read, Except.map]

/-- A draft has fields after one is set that opens a case, or if it had some before. -/
lemma hasFields_set (h : d.set f value = .ok d') :
    d'.hasFields = (f.opensCase || d.hasFields) := by
  cases f with
  | description =>
    cases h
    simp [hasFields, Field.opensCase]
  | input =>
    cases h
    simp [hasFields, Field.opensCase]
  | expected =>
    obtain ⟨items, read, rfl⟩ := exists_of_map_ok h
    simp [hasFields, Field.opensCase]
  | excluded =>
    cases h
    simp [hasFields, Field.opensCase]
  | mode =>
    obtain ⟨m, read, rfl⟩ := exists_of_map_ok h
    simp [hasFields, Field.opensCase]

/-- A draft with a description has fields. -/
lemma hasFields_of_description {description : String} (h : d.description = some description) :
    d.hasFields = true := by
  rw [hasFields, h]
  rfl

/-- A draft that goes on from another makes the case with what the other hands on. -/
lemma caseOf_resume (description : String) (input : Text) :
    (left.resume d fs).caseOf description input = left.handOn fs (d.caseOf description input) := by
  simp only [caseOf, resume, handOn, apply_ite (Option.getD · Mode.contains)]

/-- A draft without a description and an input is all that goes over at first. -/
lemma resume_blank (h : left.hasFields = false) : left.resume .blank [] = left := by
  obtain ⟨description, input, expected, excluded, mode⟩ := left
  cases description with
  | some => cases h
  | none =>
    cases input with
    | some => cases h
    | none => rfl

end Draft

/-- The fields that are named since the end of the last case, with one more line. -/
def nextFields (named : List Field) (line : Text) : List Field :=
  if trim line = separator then
    if named.any Field.opensCase then [] else named
  else
    match Field.ofLine? line with
    | some (f, _) => f :: named
    | none => named

/-- The fields that lines name up to the end of the first case, and those that are named before. -/
def headFields : (named : List Field) → List Text → List Field
  | named, [] => named
  | named, line :: rest =>
    if trim line = separator ∧ named.any Field.opensCase = true then named
    else headFields (nextFields named line) rest

/-- Cases of which the first one starts with a draft. -/
def handOnTo (left : Draft) (fs : List Field) : List Case → List Case
  | [] => []
  | c :: cs => left.handOn fs c :: cs

namespace Progress

variable {left d : Draft} {cs : List Case} {fs : List Field} {field : Option (Field × List Text)}

/-- The fields that are set, and the one that is open. -/
def named (field : Option (Field × List Text)) (fs : List Field) : List Field :=
  field.elim fs fun open_ => open_.1 :: fs

/-- The fields that are set tell whether a draft is that of a case, and whether it is blank. -/
structure Tracks (fs : List Field) (d : Draft) : Prop where
  opens : d.hasFields = fs.any Field.opensCase
  blank : fs = [] → d = .blank

/-- A blank draft keeps track of no field. -/
lemma tracks_blank : Tracks [] .blank :=
  ⟨rfl, fun _ => rfl⟩

/-- An open field is set alike in a draft that goes on from another one. -/
lemma closeField_resume {q : Progress} (left : Draft) (xs : List Case) (t : Tracks fs d)
    (h : closeField ⟨d, field, []⟩ = .ok q) :
    closeField ⟨left.resume d fs, field, xs⟩ =
        .ok ⟨left.resume q.draft (named field fs), none, xs⟩ ∧
      Tracks (named field fs) q.draft := by
  rcases closeField_ok_iff.mp h with ⟨none, rfl⟩ | ⟨f, value, d', open_, set, rfl⟩
  · cases none
    exact ⟨rfl, t⟩
  · cases open_
    refine ⟨closeField_ok_iff.mpr (.inr ⟨f, value, _, rfl, Draft.set_resume set, rfl⟩), ?_, nofun⟩
    rw [Draft.hasFields_set set, t.opens]
    rfl

/--
A line that is read before the first case can be read behind a draft that is left over, and other
cases: either the draft goes on, with the fields that the line names, or the first case ends.
-/
lemma Step.resume {line : Text} {q : Progress} (left : Draft) (xs : List Case) (t : Tracks fs d)
    (h : Step ⟨d, field, []⟩ line q) :
    (∃ gs, Tracks gs q.draft ∧ q.cases = [] ∧
        Step ⟨left.resume d fs, field, xs⟩ line ⟨left.resume q.draft gs, q.field, xs⟩ ∧
        named q.field gs = nextFields (named field fs) line ∧
        ¬(trim line = separator ∧ (named field fs).any Field.opensCase = true)) ∨
      ∃ c, q = ⟨.blank, none, [c]⟩ ∧
        Step ⟨left.resume d fs, field, xs⟩ line
          ⟨.blank, none, xs ++ [left.handOn (named field fs) c]⟩ ∧
        trim line = separator ∧ (named field fs).any Field.opensCase = true := by
  cases h with
  | skip blank closed =>
    have plain : Field.ofLine? line = none := by
      cases found : Field.ofLine? line with
      | none => rfl
      | some f => exact absurd blank (Field.trim_ne_nil_of_ofLine? found)
    refine .inl ⟨fs, t, rfl, .skip blank closed, ?_, fun ends => ?_⟩
    · rw [nextFields, blank, if_neg nofun, plain]
    · rw [blank] at ends
      cases ends.1
  | goOn sep closed none =>
    obtain ⟨closed', t⟩ := closeField_resume left xs t closed
    obtain ⟨noField, noCases⟩ := closeField_closed closed
    -- no field of a case is set yet, so none of those named opens one
    have goesOn : (named field fs).any Field.opensCase = false := t.opens.symm.trans none
    refine .inl ⟨_, t, noCases, ?_, ?_, fun ends => ?_⟩
    · rw [noField]
      exact .goOn sep closed' none
    · rw [nextFields, if_pos sep, goesOn, noField]
      rfl
    · rw [goesOn] at ends
      cases ends.2
  | finish sep closed he hi cursor =>
    obtain ⟨closed', t⟩ := closeField_resume left xs t closed
    have step := Step.finish sep closed' he hi cursor
    rw [Draft.caseOf_resume] at step
    rw [(closeField_closed closed).2]
    exact .inr ⟨_, rfl, step, sep, t.opens.symm.trans (Draft.hasFields_of_description he)⟩
  | field other found closed =>
    obtain ⟨closed', t⟩ := closeField_resume left xs t closed
    refine .inl ⟨_, t, (closeField_closed closed).2, .field other found closed', ?_,
      fun ends => other ends.1⟩
    rw [nextFields, if_neg other, found]
    rfl
  | value other found open_ =>
    cases open_
    refine .inl ⟨fs, t, rfl, .value other found rfl, ?_, fun ends => other ends.1⟩
    rw [nextFields, if_neg other, found]
    rfl

/--
Lines that are read from the start can be read behind a draft that is left over, and other cases.
The cases are the same then, but for what the first one does not set itself.
-/
lemma Reads.resume {ls : List Text} {q : Progress} (left : Draft) (xs : List Case) (t : Tracks fs d)
    (h : Reads ⟨d, field, []⟩ ls q) :
    ∃ r, Reads ⟨left.resume d fs, field, xs⟩ ls r ∧
      r.cases = xs ++ handOnTo left (headFields (named field fs) ls) q.cases := by
  induction ls generalizing d fs field with
  | nil =>
    cases h
    exact ⟨_, .nil, (List.append_nil _).symm⟩
  | cons line rest ih =>
    cases h with
    | @cons _ p _ _ _ step reads =>
    rw [headFields]
    rcases step.resume left xs t with ⟨gs, t, noCases, step, next, goesOn⟩ | ⟨c, rfl, step, ends⟩
    · obtain ⟨d', field', cs⟩ := p
      cases noCases
      obtain ⟨r, behind, added⟩ := ih t reads
      rw [if_neg goesOn, ← next]
      exact ⟨r, .cons step behind, added⟩
    · obtain ⟨new, all, behind⟩ := reads.frame
      refine ⟨_, .cons step (behind _), ?_⟩
      rw [if_pos ends, all]
      exact List.append_assoc _ _ _

/-- The fields named since the last case are followed through all lines. -/
lemma Reads.tracks {p q : Progress} {ls : List Text} (h : Reads p ls q) (t : Tracks fs p.draft) :
    ∃ gs, Tracks gs q.draft ∧ named q.field gs = ls.foldl nextFields (named p.field fs) := by
  induction h generalizing fs with
  | nil => exact ⟨fs, t, rfl⟩
  | cons step _ ih =>
    obtain ⟨_, _, step⟩ := step.frame
    rcases (step []).resume .blank [] t with ⟨gs, t, _, _, next, _⟩ | ⟨c, e, _, sep, ends⟩
    · obtain ⟨hs, t, rest⟩ := ih t
      refine ⟨hs, t, ?_⟩
      rw [List.foldl_cons, ← next]
      exact rest
    · obtain ⟨draft, noField, _⟩ := Progress.mk.inj e
      have t : Tracks [] _ := draft ▸ tracks_blank
      obtain ⟨hs, t, rest⟩ := ih t
      refine ⟨hs, t, ?_⟩
      rw [List.foldl_cons, nextFields, if_pos sep, if_pos ends, rest, noField]
      rfl

/-! ## The end of a file -/

/-- At the end of a file the same is done as at a separator. -/
lemma reads_separator {p q : Progress} {n : Nat} :
    Reads p [separator] q ↔ p.closeCase n = .ok q := by
  have close : p.readLine n separator = p.closeCase n := readLine_separator rfl
  rw [← close, readLine_ok_iff]
  constructor
  · intro h
    cases h with
    | cons step rest =>
      cases rest
      exact step
  · exact fun step => .cons step .nil

/-- A separator leaves no field open, and no draft of a case. -/
lemma closed_of_reads {p q : Progress} (h : Reads p [separator] q) :
    q.field = none ∧ q.draft.hasFields = false := by
  cases h with
  | cons step rest =>
  cases rest
  cases step with
  | skip blank => cases blank
  | goOn _ closed none => exact ⟨(closeField_closed closed).1, none⟩
  | finish => exact ⟨rfl, rfl⟩
  | field other => exact absurd rfl other
  | value other => exact absurd rfl other

/-- An empty line in front of a separator does not count. -/
lemma reads_blank {p q : Progress} (h : Reads p [separator] q) : Reads p [[], separator] q := by
  obtain ⟨d, field, cs⟩ := p
  cases field with
  | none => exact .cons (.skip rfl rfl) h
  | some open_ =>
    obtain ⟨f, value⟩ := open_
    refine .cons (.value nofun rfl rfl) ((reads_separator (n := 0)).mpr ?_)
    have close := (reads_separator (n := 0)).mp h
    rw [closeCase, closeField] at close ⊢
    simp only [Draft.set_concat]
    exact close

/-- Lines lead to one state. -/
lemma Reads.unique {p q r : Progress} {ls : List Text} (h : Reads p ls q) (h' : Reads p ls r) :
    q = r := by
  have same := (readLines_ok_iff (n := 0)).mpr h
  rw [readLines_ok_iff.mpr h'] at same
  exact (Except.ok.inj same).symm

end Progress

/-! ## Files -/

open Progress

/-- The cases of a content, with none in an empty one; nothing if it cannot be read. -/
def casesIn? (content : Text) : Option (List Case) :=
  match readCases content with
  | .ok cs => some cs
  | .error .emptyFile => some []
  | .error _ => none

/-- What a content says of a further case, which it does not go on with. -/
def leftOver (content : Text) : Draft :=
  match start.readLines 1 (lines content ++ [separator]) with
  | .ok q => q.draft
  | .error _ => .blank

/-- The cases of a file are those read before a last separator, and there must be one. -/
lemma readCases_of_reads {content : Text} {q : Progress}
    (h : Reads start (lines content ++ [separator]) q) :
    readCases content = if q.cases.isEmpty then .error .emptyFile else .ok q.cases := by
  obtain ⟨p, front, last⟩ := h.split
  simp only [readCases, readLines_ok_iff.mpr front, reads_separator.mp last]

/-- A file with an error, other than having no case, has no cases. -/
lemma casesIn?_eq_none {content : Text} {e : ReadError} (h : readCases content = .error e)
    (other : e ≠ .emptyFile) : casesIn? content = none := by
  rw [casesIn?, h]
  cases e with
  | emptyFile => exact absurd rfl other
  | _ => rfl

/-- A content that has cases, or none, can be read to its end. -/
lemma reads_of_casesIn? {content : Text} {cs : List Case} (h : casesIn? content = some cs) :
    ∃ q, Reads start (lines content ++ [separator]) q ∧ q.cases = cs := by
  have failed {e : ReadError} (failed : readCases content = .error e) : e = .emptyFile := by
    refine Classical.not_not.mp fun other => ?_
    rw [casesIn?_eq_none failed other] at h
    cases h
  cases front : start.readLines 1 (lines content) with
  | error e => exact absurd (failed (by simp only [readCases, front])) (readLines_error front)
  | ok p =>
    cases last : p.closeCase (lines content).length with
    | error e =>
      exact absurd (failed (by simp only [readCases, front, last])) (closeCase_error last)
    | ok q =>
      have reads := (readLines_ok_iff.mp front).append (reads_separator.mpr last)
      refine ⟨q, reads, ?_⟩
      rw [casesIn?, readCases_of_reads reads] at h
      cases found : q.cases with
      | nil =>
        rw [found] at h
        exact Option.some.inj h
      | cons c cs =>
        rw [found] at h
        exact Option.some.inj h

/-- What a file leaves over is the draft after a last separator. -/
lemma leftOver_of_reads {content : Text} {q : Progress}
    (h : Reads start (lines content ++ [separator]) q) : leftOver content = q.draft := by
  rw [leftOver, readLines_ok_iff.mpr h]

/-- The separator at the end names no field. -/
lemma headFields_separator (fs : List Field) (ls : List Text) :
    headFields fs (ls ++ [separator]) = headFields fs ls := by
  induction ls generalizing fs with
  | nil =>
    have same : trim separator = separator := rfl
    rw [List.nil_append, headFields, headFields, headFields, nextFields, if_pos same]
    cases ends : fs.any Field.opensCase with
    | true => exact if_pos ⟨same, rfl⟩
    | false => exact if_neg fun h => nomatch h.2
  | cons line rest ih => rw [List.cons_append, headFields, headFields, ih]

/-- The fields of a content that belong to none of its cases. -/
def looseFields (content : Text) : List Field :=
  (lines content ++ [separator]).foldl nextFields []

/-- If all fields belong to cases, nothing is left over. -/
lemma leftOver_of_looseFields {content : Text} {q : Progress}
    (h : Reads start (lines content ++ [separator]) q) (none : looseFields content = []) :
    leftOver content = .blank := by
  obtain ⟨_, _, last⟩ := h.split
  obtain ⟨gs, t, named⟩ := h.tracks tracks_blank
  rw [(closed_of_reads last).1] at named
  rw [leftOver_of_reads h]
  exact t.blank (named.trans none)

/-- Behind a first content and a separator, the lines of a second one follow. -/
lemma lines_separated {a : Text} (h : a.getLast? ≠ some '\r') (b : Text) :
    ∃ blank, (blank = [] ∨ blank = [[]]) ∧
      lines (a ++ "\n---\n".toList ++ b) = lines a ++ (blank ++ [separator]) ++ lines b := by
  obtain ⟨blank, kind, e⟩ := lines_append_newline h (separator ++ '\n' :: b)
  refine ⟨blank, kind, ?_⟩
  rw [lines_split separator b, ← List.append_assoc, ← List.append_assoc] at e
  rw [List.append_assoc a, ← List.append_assoc (lines a)]
  exact e

/-- What has been read before a separator stays, and its draft is left over to what follows. -/
lemma reads_separated {a b : Text} {p q : Progress} (h : a.getLast? ≠ some '\r')
    (ha : Reads start (lines a ++ [separator]) p) (hb : Reads start (lines b ++ [separator]) q) :
    ∃ r, Reads start (lines (a ++ "\n---\n".toList ++ b) ++ [separator]) r ∧
      r.cases = p.cases ++ handOnTo p.draft (headFields [] (lines b)) q.cases := by
  obtain ⟨blank, kind, e⟩ := lines_separated h b
  obtain ⟨m, front, last⟩ := ha.split
  obtain ⟨noField, noCase⟩ := closed_of_reads last
  have middle : Reads m (blank ++ [separator]) p := by
    rcases kind with rfl | rfl
    · exact last
    · exact reads_blank last
  have state : p = ⟨p.draft.resume .blank [], none, p.cases⟩ := by
    rw [Draft.resume_blank noCase, ← noField]
  obtain ⟨r, behind, added⟩ := hb.resume p.draft p.cases tracks_blank
  rw [← state] at behind
  refine ⟨r, ?_, ?_⟩
  · rw [e, List.append_assoc]
    exact (front.append middle).append behind
  · rw [added, headFields_separator]
    rfl

/-- If nothing is left over, nothing is handed on. -/
lemma handOnTo_blank {b : Text} {q : Progress} (hb : Reads start (lines b ++ [separator]) q) :
    handOnTo .blank (headFields [] (lines b)) q.cases = q.cases := by
  obtain ⟨r, behind, added⟩ := hb.resume .blank [] tracks_blank
  -- a blank draft is the one that is there at the start
  cases hb.unique behind
  rw [headFields_separator] at added
  exact added.symm

/--
The cases of two contents with a separator between them. What the first one leaves over goes to the
first case of the second one, which keeps the fields that are named up to its end; if all fields of
the first content belong to its cases, the cases are those of the first and those of the second.
-/
theorem readCases_append {a b : Text} {xs ys : List Case} (h : a.getLast? ≠ some '\r')
    (ha : casesIn? a = some xs) (hb : casesIn? b = some ys) (found : xs ++ ys ≠ []) :
    readCases (a ++ "\n---\n".toList ++ b) =
        .ok (xs ++ handOnTo (leftOver a) (headFields [] (lines b)) ys) ∧
      (looseFields a = [] → readCases (a ++ "\n---\n".toList ++ b) = .ok (xs ++ ys)) := by
  obtain ⟨p, first, rfl⟩ := reads_of_casesIn? ha
  obtain ⟨q, second, rfl⟩ := reads_of_casesIn? hb
  obtain ⟨r, whole, added⟩ := reads_separated h first second
  have all : readCases (a ++ "\n---\n".toList ++ b) =
      .ok (p.cases ++ handOnTo (leftOver a) (headFields [] (lines b)) q.cases) := by
    have some : r.cases.isEmpty = false := by
      rw [List.isEmpty_eq_false_iff, added]
      cases cases_ : q.cases <;> simp_all [handOnTo]
    rw [readCases_of_reads whole, some, leftOver_of_reads first, ← added]
    rfl
  refine ⟨all, fun none => ?_⟩
  rw [all, leftOver_of_looseFields first none, handOnTo_blank second]

/-- A mode that stands in front of a separator, without a case, is that of the case behind it. -/
theorem readCases_append_mode :
    "mode: exact".toList.getLast? ≠ some '\r' ∧ casesIn? "mode: exact".toList = some [] ∧
      casesIn? "description: d\ninput: a|".toList =
        some [⟨"d", ['a', '|'], [], [], .contains⟩] ∧
      readCases ("mode: exact".toList ++ "\n---\n".toList ++ "description: d\ninput: a|".toList) =
        .ok [⟨"d", ['a', '|'], [], [], .exact⟩] :=
  ⟨by decide, by rfl, by rfl,
    (@readCases_append "mode: exact".toList "description: d\ninput: a|".toList []
      [⟨"d", ['a', '|'], [], [], .contains⟩] (by decide) (by rfl) (by rfl)
      (List.cons_ne_nil _ _)).1.trans (by rfl)⟩

/-- So the cases of two contents are not always those of the one and those of the other. -/
theorem not_readCases_append :
    ¬∀ (a b : Text) (xs ys : List Case), '\r' ∉ a → '\r' ∉ b → casesIn? a = some xs →
      casesIn? b = some ys → xs ++ ys ≠ [] →
        readCases (a ++ "\n---\n".toList ++ b) = .ok (xs ++ ys) := by
  intro all
  have leak := all "mode: exact".toList "description: d\ninput: a|".toList []
    [⟨"d", ['a', '|'], [], [], .contains⟩] (by decide) (by decide) (by rfl) (by rfl)
    (List.cons_ne_nil _ _)
  have found : readCases ("mode: exact".toList ++ "\n---\n".toList ++
    "description: d\ninput: a|".toList) = .ok [⟨"d", ['a', '|'], [], [], .exact⟩] := by rfl
  rw [found] at leak
  cases leak

end Cases

end TypeqlAssist
