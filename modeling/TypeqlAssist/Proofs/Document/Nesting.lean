import TypeqlAssist.Proofs.Grammar.Height
import TypeqlAssist.Proofs.Grammar.Machine

/-!
# The nesting of documents

The levels of nesting are counted while a document is read. `Rule.count` drives the machine with
an explicit counter, which goes up in front of a nested block or expression and down behind it,
and decides alone whether one may be entered. It makes the tree of the document, never passes the
limit, and is back where it was after every rule.
-/

namespace TypeqlAssist

namespace Grammar

open TypeqlAssist.Tree

/-- A machine with the depth that it is at, and every depth that it has been at. -/
structure Counter where
  machine : Machine
  depth : Nat
  trail : List Nat

namespace Counter

/-- Lets the machine take a step, at the same depth. -/
def step (f : Machine → Machine) (c : Counter) : Counter :=
  { c with machine := f c.machine }

/-- Goes one level down. -/
def enter (c : Counter) : Counter :=
  { c with depth := c.depth + 1, trail := c.trail ++ [c.depth + 1] }

/-- Goes one level up. -/
def leave (c : Counter) : Counter :=
  { c with depth := c.depth - 1, trail := c.trail ++ [c.depth - 1] }

/-- Takes turns while the next tokens pass a test, at most `fuel` of them. -/
def repeatWhile (test : Test) (turn : Counter → Counter) : (fuel : Nat) → Counter → Counter
  | 0, c => c
  | fuel + 1, c =>
    if test (.of c.machine.rest) then repeatWhile test turn fuel (turn c) else c

end Counter

/-- What a rule does to the counter, where `inner` does it for the symbols nested in the rule. -/
def Rule.count (eof : Nat) (inner : Symbol → Counter → Counter) : Rule → Counter → Counter
  | skip, c => c
  | take, c => c.step Machine.bump
  | missing wanted, c => c.step (·.absent eof wanted)
  | stray, c => if c.machine.rest.isEmpty then c else c.step (·.wrap eof .unexpected 1)
  | recover, c =>
    if c.machine.rest.isEmpty then c
    else c.step fun m => m.wrap eof .unexpected (recoveryLength m.rest)
  | nested symbol, c => inner symbol c
  | seq p q, c => q.count eof inner (p.count eof inner c)
  | node kind p, c => (p.count eof inner (c.step (·.start eof kind))).step (·.finish eof)
  | branch test p q, c =>
    if test (.of c.machine.rest) then p.count eof inner c else q.count eof inner c
  | many test p, c => c.repeatWhile test (fun c => p.count eof inner c) c.machine.rest.length
  | joined p test kind q, c =>
    let a := p.count eof inner c
    if test (.of a.machine.rest) then
      let b := a.step fun m =>
        { m with builder := m.builder.startAt c.machine.builder.checkpoint kind }
      (q.count eof inner b).step (·.finish eof)
    else a

/--
What a symbol does to the counter. It is entered if the counter is below the limit, and left again;
at the limit everything up to the next stop is an error.
-/
def countSymbol (definition : Symbol → Rule) (eof : Nat) :
    (fuel : Nat) → Symbol → Counter → Counter
  | 0, _, c => c
  | fuel + 1, symbol, c =>
    if c.depth < maxNesting then
      ((definition symbol).count eof (countSymbol definition eof fuel) c.enter).leave
    else c.step fun m => m.wrap eof .tooDeep (lengthBeforeStop m.rest)

/-- The counter at the end of a document, where symbols may be nested `fuel` times. -/
def countDocument (fuel : Nat) (text : Text) : Counter :=
  let eof := text.byteSize
  queries.count eof (countSymbol definitionOf eof fuel)
    ⟨⟨Builder.empty.start .source 0, [], tokenize text⟩, 0, [0]⟩

/-! ## The counter is back where it was -/

variable {eof : Nat} {inner : Symbol → Counter → Counter}

/-- Turns that return at their depth do so in a loop. -/
lemma Counter.repeatWhile_depth {test : Test} {turn : Counter → Counter}
    (ht : ∀ c, (turn c).depth = c.depth) (fuel : Nat) (c : Counter) :
    (c.repeatWhile test turn fuel).depth = c.depth := by
  induction fuel generalizing c with
  | zero => rfl
  | succ fuel ih =>
    rw [repeatWhile]
    split
    · rw [ih, ht]
    · rfl

/-- A rule leaves the depth as it is, if the symbols nested in it do. -/
lemma Rule.count_depth (eof : Nat) (hi : ∀ s c, (inner s c).depth = c.depth) (r : Rule)
    (c : Counter) : (r.count eof inner c).depth = c.depth := by
  induction r generalizing c with
  | skip => rfl
  | take => rfl
  | missing wanted => rfl
  | stray => rw [count]; split <;> rfl
  | recover => rw [count]; split <;> rfl
  | nested s => exact hi s c
  | seq p q ihp ihq => rw [count, ihq, ihp]
  | node k p ih => exact ih _
  | branch test p q ihp ihq =>
    rw [count]
    split
    · exact ihp c
    · exact ihq c
  | many test p ih => exact Counter.repeatWhile_depth ih _ c
  | joined p test k q ihp ihq =>
    simp only [count]
    split
    · exact (ihq _).trans (ihp c)
    · exact ihp c

/-- A symbol returns at its depth. -/
lemma countSymbol_depth (definition : Symbol → Rule) (fuel : Nat) (s : Symbol) (c : Counter) :
    (countSymbol definition eof fuel s c).depth = c.depth := by
  induction fuel generalizing s c with
  | zero => rfl
  | succ fuel ih =>
    rw [countSymbol]
    split
    · exact congrArg (· - 1) (Rule.count_depth eof ih _ c.enter)
    · rfl

/-! ## The counter drives the machine -/

/-- The machine is now another one, and the counter did not pass the limit on the way. -/
structure Counter.Drives (c : Counter) (m : Machine) (c' : Counter) : Prop where
  machine : c'.machine = m
  trail : ∀ d ∈ c'.trail, d ∈ c.trail ∨ d ≤ maxNesting

variable {c c' c'' : Counter} {m m' : Machine} {d : Nat}

/-- A step of the machine is a step of the counter. -/
lemma Counter.drives_step (f : Machine → Machine) (c : Counter) :
    c.Drives (f c.machine) (c.step f) :=
  ⟨rfl, fun _ => .inl⟩

/-- Two runs in a row are one run. -/
lemma Counter.Drives.trans (h : c.Drives m c') (h' : c'.Drives m' c'') : c.Drives m' c'' where
  machine := h'.machine
  trail := by
    intro d hd
    rcases h'.trail d hd with hd | le
    · exact h.trail d hd
    · exact .inr le

/-- A run goes on by a step. -/
lemma Counter.Drives.step (f : Machine → Machine) (h : c.Drives m c') :
    c.Drives (f m) (c'.step f) := by
  have last := drives_step f c'
  rw [h.machine] at last
  exact h.trans last

/-- The counter may go down below the limit. -/
lemma Counter.drives_enter (h : c.depth < maxNesting) : c.Drives c.machine c.enter where
  machine := rfl
  trail := by
    intro d hd
    rcases List.mem_append.mp hd with hd | hd
    · exact .inl hd
    · cases List.mem_singleton.mp hd
      exact .inr h

/-- The counter may go up again. -/
lemma Counter.Drives.leave (h : c.Drives m c') (le : c'.depth ≤ maxNesting) :
    c.Drives m c'.leave where
  machine := h.machine
  trail := by
    intro d hd
    rcases List.mem_append.mp hd with hd | hd
    · exact h.trail d hd
    · cases List.mem_singleton.mp hd
      exact .inr (Nat.le_trans (Nat.sub_le _ _) le)

variable {drive : Symbol → Machine → Machine}

/-- A loop of the counter takes the turns of the machine. -/
lemma Counter.repeatWhile_drives {test : Test} {turn : Counter → Counter}
    {turn' : Machine → Machine} (hd : ∀ c, (turn c).depth = c.depth)
    (ht : ∀ c : Counter, c.depth = d → c.Drives (turn' c.machine) (turn c)) (fuel : Nat)
    (hc : c.depth = d) :
    c.Drives (c.machine.repeatWhile test turn' fuel) (c.repeatWhile test turn fuel) := by
  induction fuel generalizing c with
  | zero => exact ⟨rfl, fun _ => .inl⟩
  | succ fuel ih =>
    rw [repeatWhile, Machine.repeatWhile]
    split
    · have first := ht c hc
      have rest := ih ((hd c).trans hc)
      rw [first.machine] at rest
      exact first.trans rest
    · exact ⟨rfl, fun _ => .inl⟩

/-- A rule drives the machine from a depth on, if the symbols nested in it do. -/
theorem Rule.count_drives (eof : Nat) (hi : ∀ s c, (inner s c).depth = c.depth)
    (hd : ∀ s (c : Counter), c.depth = d → c.Drives (drive s c.machine) (inner s c)) (r : Rule)
    (hc : c.depth = d) : c.Drives (r.drive eof drive c.machine) (r.count eof inner c) := by
  induction r generalizing c with
  | skip => exact ⟨rfl, fun _ => .inl⟩
  | take => exact c.drives_step Machine.bump
  | missing wanted => exact c.drives_step (·.absent eof wanted)
  | stray =>
    rw [Rule.drive, count]
    split
    · exact ⟨rfl, fun _ => .inl⟩
    · exact c.drives_step (·.wrap eof .unexpected 1)
  | recover =>
    rw [Rule.drive, count]
    split
    · exact ⟨rfl, fun _ => .inl⟩
    · exact c.drives_step fun m => m.wrap eof .unexpected (recoveryLength m.rest)
  | nested s => exact hd s c hc
  | seq p q ihp ihq =>
    have first := ihp hc
    have second := ihq ((count_depth eof hi p c).trans hc)
    rw [first.machine] at second
    exact first.trans second
  | node k p ih =>
    have body := ih (c := c.step (·.start eof k)) hc
    exact ((c.drives_step (·.start eof k)).trans body).step (·.finish eof)
  | branch test p q ihp ihq =>
    rw [Rule.drive, count]
    split
    · exact ihp hc
    · exact ihq hc
  | many test p ih =>
    exact Counter.repeatWhile_drives (count_depth eof hi p) (fun _ => ih) _ hc
  | joined p test k q ihp ihq =>
    have first := ihp hc
    simp only [Rule.drive, count, first.machine]
    split
    · have opened := first.step fun m =>
        { m with builder := m.builder.startAt c.machine.builder.checkpoint k }
      have second := ihq (c := (p.count eof inner c).step fun m =>
        { m with builder := m.builder.startAt c.machine.builder.checkpoint k })
        ((count_depth eof hi p c).trans hc)
      rw [opened.machine] at second
      exact (opened.trans second).step (·.finish eof)
    · exact first

/-- With fuel for one level more than are left, a symbol is driven as it is with these levels. -/
lemma countSymbol_drives (definition : Symbol → Rule) {levels fuel : Nat} (enough : levels < fuel)
    (s : Symbol) (hc : c.depth + levels = maxNesting) :
    c.Drives (driveSymbol definition eof levels s c.machine)
      (countSymbol definition eof fuel s c) := by
  induction levels generalizing fuel s c with
  | zero =>
    obtain ⟨fuel, rfl⟩ := Nat.exists_eq_succ_of_ne_zero (Nat.ne_of_gt enough)
    rw [countSymbol, if_neg (by omega)]
    exact c.drives_step fun m => m.wrap eof .tooDeep (lengthBeforeStop m.rest)
  | succ levels ih =>
    obtain ⟨fuel, rfl⟩ := Nat.exists_eq_succ_of_ne_zero (by omega : fuel ≠ 0)
    rw [countSymbol, if_pos (by omega)]
    have deeper (s : Symbol) (c' : Counter) (hc' : c'.depth = c.depth + 1) :
        c'.Drives (driveSymbol definition eof levels s c'.machine)
          (countSymbol definition eof fuel s c') :=
      ih (by omega) s (by omega)
    have body : c.enter.Drives _ _ :=
      Rule.count_drives eof (countSymbol_depth definition fuel) deeper (definition s) rfl
    have depth : ((definition s).count eof (countSymbol definition eof fuel) c.enter).depth =
        c.depth + 1 :=
      Rule.count_depth eof (countSymbol_depth definition fuel) (definition s) c.enter
    exact ((c.drives_enter (by omega)).trans body).leave (by omega)

/-- The counter makes the tree of a document, whatever fuel is left, and keeps to the limit. -/
theorem countDocument_drives (spare : Nat) (text : Text) :
    (countDocument (maxNesting + 1 + spare) text).machine = driveDocument text ∧
      ∀ d ∈ (countDocument (maxNesting + 1 + spare) text).trail, d ≤ maxNesting := by
  have symbols (s : Symbol) (c : Counter) (hc : c.depth = 0) :
      c.Drives (driveSymbol definitionOf text.byteSize maxNesting s c.machine)
        (countSymbol definitionOf text.byteSize (maxNesting + 1 + spare) s c) :=
    countSymbol_drives definitionOf (by omega) s (by omega)
  have drives : Counter.Drives ⟨_, 0, [0]⟩ (driveDocument text) _ :=
    Rule.count_drives _ (countSymbol_depth definitionOf _) symbols queries rfl
  refine ⟨drives.machine, ?_⟩
  intro d hd
  rcases drives.trail d hd with hd | le
  · rw [List.mem_singleton.mp hd]
    exact Nat.zero_le _
  · exact le

end Grammar

open TypeqlAssist.Tree Location Grammar

/--
No node of a document is further down than three times the limit of nesting. The document is read
with a counter that never passes the limit, whatever fuel is spare, and every rule returns with the
depth that it was entered with.
-/
theorem nesting_bounded (text : Text) :
    (∀ l : Location, Reaches (ofRoot (parseTree text)) l →
      l.ancestors.length < 3 * maxNesting) ∧
    (∀ spare, (countDocument (maxNesting + 1 + spare) text).machine.builder.build text.byteSize =
        (parse text).tree ∧
      ∀ d ∈ (countDocument (maxNesting + 1 + spare) text).trail, d ≤ maxNesting) ∧
    ∀ (eof fuel : Nat) (r : Rule) (c : Counter),
      (r.count eof (countSymbol definitionOf eof fuel) c).depth = c.depth := by
  refine ⟨?_, ?_, ?_⟩
  · intro l hl
    have le := hl.length_add_height_le
    have height := readDocument_height_le text.byteSize (tokenize text)
    have pos : 0 < l.focus.height := by
      cases l.focus
      exact Nat.succ_pos _
    have root : (ofRoot (parseTree text)).focus.height =
        heightAll (readDocument text.byteSize (tokenize text)).nodes + 1 := rfl
    have limit : maxNesting = 256 := rfl
    simp only [ofRoot, ancestors, List.map_nil, List.length_nil] at le root ⊢
    omega
  · intro spare
    obtain ⟨machine, trail⟩ := countDocument_drives spare text
    exact ⟨machine ▸ build_driveDocument text, trail⟩
  · intro eof fuel r c
    exact Rule.count_depth eof (countSymbol_depth definitionOf fuel) r c

end TypeqlAssist
