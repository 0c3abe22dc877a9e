import Mathlib.Data.List.Basic
import BracketLint.Proofs.Group.Arena
import BracketLint.Proofs.Lines.Buffer

/-!
The matching of brackets as a machine with an explicit stack. The machine reads the text of a file
once, from left to right, and keeps the numbers of the groups that are open; what it holds at the
end of the file is the tree of the file and what is reported about it.
-/

namespace BracketLint

/-- A group as far as brackets determine it. -/
structure Span where
  shape : Shape
  opened : Place
  closed : Place
  parent : Option Nat
  deriving DecidableEq, Repr

/-- The brackets of a group and the group around it. -/
def Group.span (group : Group) : Span := ⟨group.shape, group.opened, group.closed, group.parent⟩

/-- A group that is still open. -/
structure OpenGroup where
  number : Nat
  shape : Shape
  opened : Place
  deriving DecidableEq, Repr

/-- The groups found so far, closed or not, the open ones among them, innermost first, whether the
file has been given up, and what was reported. -/
structure StackMachine where
  spans : List Span
  stack : List OpenGroup := []
  stopped : Bool := false
  reported : List Diagnostic := []
  deriving DecidableEq, Repr

namespace StackMachine

/-- At the start there is the group of the whole file only. -/
def start (lines : Lines) : StackMachine where
  spans := [⟨.brace, .on 0 0, lines.stop, none⟩]

def report (m : StackMachine) (place : Place) (issue : Issue) : StackMachine :=
  { m with reported := m.reported ++ [⟨place, issue⟩] }

/-- The number of the innermost group; that of the file if no bracket is open. -/
def innermost : List OpenGroup → Nat
  | [] => 0
  | top :: _ => top.number

/-- Opens a group inside the innermost one. -/
def push (m : StackMachine) (shape : Shape) (place : Place) : StackMachine :=
  { m with
    spans := m.spans ++ [⟨shape, place, place, some (innermost m.stack)⟩]
    stack := ⟨m.spans.length, shape, place⟩ :: m.stack }

/-- Enters the closing position of a group. -/
def closeAt (place : Place) (number : Nat) (spans : List Span) : List Span :=
  spans.modify number fun span => { span with closed := place }

/-- Pops the open parentheses down to the nearest open brace, each with everything that was opened
since, and closes that brace. -/
def cross (place : Place) : List OpenGroup → List Span → List OpenGroup × List Span
  | [], spans => ([], spans)
  | ⟨number, .paren, _⟩ :: below, spans => cross place below (spans.take number)
  | ⟨number, .brace, _⟩ :: below, spans => (below, closeAt place number spans)

/-- Gives up the file: the outermost open group goes, with everything that was opened since. -/
def halt (m : StackMachine) : StackMachine :=
  { m with
    spans := match m.stack.getLast? with
      | none => m.spans
      | some outermost => m.spans.take outermost.number
    stack := []
    stopped := true }

def readOpener (m : StackMachine) (shape : Shape) (place : Place) : StackMachine :=
  if m.stack.length < 256 then m.push shape place
  else (m.report place (.tooDeep 256)).halt

def readCloser (m : StackMachine) (shape : Shape) (place : Place) : StackMachine :=
  match m.stack with
  | [] => m.report place (.unmatchedCloser shape)
  | top :: below =>
    if top.shape = shape then { m with spans := closeAt place top.number m.spans, stack := below }
    else match shape with
      | .paren => m.report place (.parenInBrace top.opened)
      | .brace =>
        let popped := cross place m.stack m.spans
        { m.report place (.braceClosesParen top.opened) with
          stack := popped.1
          spans := popped.2 }

/-- Reads a byte, unless the file was given up; only parentheses and braces count. -/
def step (m : StackMachine) (entry : Place × UInt8) : StackMachine :=
  if m.stopped then m
  else if entry.2 = Shape.paren.byte false then m.readOpener .paren entry.1
  else if entry.2 = Shape.brace.byte false then m.readOpener .brace entry.1
  else if entry.2 = Shape.paren.byte true then m.readCloser .paren entry.1
  else if entry.2 = Shape.brace.byte true then m.readCloser .brace entry.1
  else m

/-- At the end of the file the innermost open group is reported. -/
def finish (m : StackMachine) : StackMachine :=
  match m.stack with
  | [] => m
  | top :: _ => (m.report top.opened (.unclosed top.shape)).halt

/-- Reads a whole file. -/
def run (lines : Lines) : StackMachine := (lines.buffer.foldl step (start lines)).finish

/-- The groups that name a group as their parent. -/
def children (m : StackMachine) (id : Nat) : List Nat :=
  (List.range m.spans.length).filter fun child => (m.spans[child]?).bind (·.parent) = some id

/-- Reads a bracket, unless the file was given up. -/
def read (m : StackMachine) (b : Bracket) : StackMachine :=
  if m.stopped then m
  else if b.closes then m.readCloser b.shape b.place
  else m.readOpener b.shape b.place

/-- A byte is read as the bracket that it spells. -/
theorem step_bracket (m : StackMachine) (b : Bracket) :
    m.step (b.place, b.shape.byte b.closes) = m.read b := by
  obtain ⟨place, shape, closes⟩ := b
  rw [step, read]
  congr 1
  cases shape <;> cases closes <;> rfl

/-- Bytes that are no brackets leave the machine alone. -/
theorem step_of_not_mem (m : StackMachine) {entry : Place × UInt8} (h : entry.2 ∉ Shape.bytes) :
    m.step entry = m := by
  simp only [Shape.bytes, List.mem_cons, List.not_mem_nil, or_false, not_or] at h
  obtain ⟨hopenParen, hcloseParen, hopenBrace, hcloseBrace⟩ := h
  rw [step, if_neg hopenParen, if_neg hopenBrace, if_neg hcloseParen, if_neg hcloseBrace, ite_self]

theorem foldl_step (entries : Stretch) (m : StackMachine) :
    entries.foldl step m = (entries.filterMap Bracket.ofPlaced?).foldl read m := by
  induction entries generalizing m with
  | nil => rfl
  | cons entry rest ih =>
    rw [List.foldl_cons, ih, List.filterMap_cons]
    cases hbracket : Bracket.ofPlaced? entry with
    | none => rw [m.step_of_not_mem (Bracket.ofPlaced?_eq_none.mp hbracket)]
    | some b =>
      rw [Bracket.ofPlaced?_eq_some.mp hbracket, step_bracket]
      rfl

theorem foldl_read_of_stopped {m : StackMachine} (h : m.stopped = true) (brackets : List Bracket) :
    brackets.foldl read m = m := by
  induction brackets with
  | nil => rfl
  | cons b rest ih => rw [List.foldl_cons, read, if_pos h, ih]

end StackMachine

/-- The spans of some groups, numbered from `first` on, with `parent` around them. -/
def Forest.spans (parent first : Nat) : Forest → List Span
  | empty => []
  | group shape opened closed inside behind =>
    ⟨shape, opened, closed, some parent⟩ ::
      (inside.spans first (first + 1) ++ behind.spans parent (first + 1 + inside.size))

theorem Forest.length_spans (forest : Forest) :
    ∀ parent first, (forest.spans parent first).length = forest.size := by
  induction forest with
  | empty => intro _ _; rfl
  | group shape opened closed inside behind ih ih₁ =>
    intro parent first
    rw [spans, List.length_cons, List.length_append, ih, ih₁, size]
    omega

theorem Forest.map_span_toGroups (lines : Lines) (forest : Forest) :
    ∀ parent first, (forest.toGroups lines parent first).map Group.span =
      forest.spans parent first := by
  induction forest with
  | empty => intro _ _; rfl
  | group shape opened closed inside behind ih ih₁ =>
    intro parent first
    rw [toGroups, List.map_cons, List.map_append, ih, ih₁]
    rfl

namespace StackMachine

open Forest (Ending Finds finds_of_search)

/-- Closing a group leaves those behind it alone. -/
theorem closeAt_append_of_lt (place : Place) (row : List Span) :
    ∀ (spans : List Span) (number : Nat), number < spans.length →
      closeAt place number (spans ++ row) = closeAt place number spans ++ row := by
  intro spans
  induction spans with
  | nil => intro number h; simp at h
  | cons span spans ih =>
    intro number h
    cases number with
    | zero => rfl
    | succ number =>
      have hlt : number < spans.length := by simpa using h
      exact congrArg (span :: ·) (ih number hlt)

theorem closeAt_length_append (place : Place) (spans : List Span) (span : Span) :
    closeAt place spans.length (spans ++ [span]) = spans ++ [{ span with closed := place }] := by
  induction spans with
  | nil => rfl
  | cons head spans ih => exact congrArg (head :: ·) ih

section

variable (spans : List Span) (stack : List OpenGroup) (reported : List Diagnostic)

theorem read_opener (hd : stack.length < Forest.nestingLimit) (shape : Shape) (place : Place) :
    read ⟨spans, stack, false, reported⟩ ⟨place, shape, false⟩ =
      push ⟨spans, stack, false, reported⟩ shape place :=
  if_pos hd

theorem read_opener_of_le (hd : Forest.nestingLimit ≤ stack.length) (shape : Shape)
    (place : Place) :
    read ⟨spans, stack, false, reported⟩ ⟨place, shape, false⟩ =
      halt ⟨spans, stack, false, reported ++ [⟨place, .tooDeep Forest.nestingLimit⟩]⟩ :=
  if_neg (Nat.not_lt.mpr hd)

theorem read_closer_of_shape (shape : Shape) (number : Nat) (opened place : Place) :
    read ⟨spans, ⟨number, shape, opened⟩ :: stack, false, reported⟩ ⟨place, shape, true⟩ =
      ⟨closeAt place number spans, stack, false, reported⟩ :=
  if_pos rfl

/-- Giving up drops what was opened behind the groups that are open. -/
theorem halt_append (row : List Span) (hn : ∀ g ∈ stack, g.number ≤ spans.length)
    (hne : stack ≠ []) :
    halt ⟨spans ++ row, stack, false, reported⟩ = halt ⟨spans, stack, false, reported⟩ := by
  have hlast := List.getLast?_eq_some_getLast hne
  have hle := hn _ (List.getLast_mem hne)
  simp only [halt, hlast, List.take_append_of_le_length hle]

end

theorem halt_push (spans : List Span) (reported : List Diagnostic) (pushed top : OpenGroup)
    (below : List OpenGroup) :
    halt ⟨spans, pushed :: top :: below, false, reported⟩ =
      halt ⟨spans, top :: below, false, reported⟩ := by
  rw [halt, halt, List.getLast?_cons_cons]

/-- Reads the brackets up to the end of the file. -/
def readAll (m : StackMachine) (brackets : List Bracket) : StackMachine :=
  (brackets.foldl read m).finish

theorem readAll_cons (m : StackMachine) (b : Bracket) (rest : List Bracket) :
    m.readAll (b :: rest) = (m.read b).readAll rest := rfl

theorem readAll_halt (m : StackMachine) (brackets : List Bracket) :
    m.halt.readAll brackets = m.halt := by
  rw [readAll, foldl_read_of_stopped rfl]
  rfl

theorem readAll_opener (spans : List Span) (stack : List OpenGroup) (reported : List Diagnostic)
    (hd : stack.length < Forest.nestingLimit) (shape : Shape) (place : Place)
    (rest : List Bracket) :
    readAll ⟨spans, stack, false, reported⟩ (⟨place, shape, false⟩ :: rest) =
      readAll ⟨spans ++ [⟨shape, place, place, some (innermost stack)⟩],
        ⟨spans.length, shape, place⟩ :: stack, false, reported⟩ rest := by
  rw [readAll_cons, read_opener spans stack reported hd]
  rfl

/-- The brackets that are left when the search for the end of a group has ended. -/
def restOf : Ending → List Bracket
  | .closed _ _ rest => rest
  | .crossed _ rest => rest
  | .unfinished => []

/-- The machine when the search for the end of its innermost group has ended. -/
def after (spans : List Span) (top : OpenGroup) (below : List OpenGroup)
    (reported : List Diagnostic) : Ending → StackMachine
  | .closed place inside _ =>
    ⟨closeAt place top.number spans ++ inside.spans top.number spans.length, below, false, reported⟩
  | .crossed place _ =>
    ⟨(cross place below (spans.take top.number)).2, (cross place below (spans.take top.number)).1,
      false, reported⟩
  | .unfinished => halt ⟨spans, top :: below, false, reported⟩

theorem restOf_addGroup (shape : Shape) (opened closedAt : Place) (inner : Forest)
    (ending : Ending) : restOf (ending.addGroup shape opened closedAt inner) = restOf ending := by
  cases ending <;> rfl

theorem after_addGroup (spans : List Span) (top : OpenGroup) (below : List OpenGroup)
    (reported : List Diagnostic) (inner : Shape) (place closedAt : Place) (inside : Forest)
    (ending : Ending) (hn : ∀ g ∈ top :: below, g.number < spans.length) :
    after (spans ++ ⟨inner, place, closedAt, some top.number⟩ ::
        inside.spans spans.length (spans.length + 1)) top below reported ending =
      after spans top below reported (ending.addGroup inner place closedAt inside) := by
  have htop : top.number < spans.length := hn top List.mem_cons_self
  cases ending with
  | closed p behind rest =>
    have hlength : spans.length + (inside.size + 1) = spans.length + 1 + inside.size := by omega
    rw [after, closeAt_append_of_lt _ _ _ _ htop, List.append_assoc, List.length_append,
      List.length_cons, Forest.length_spans, hlength]
    rfl
  | crossed p rest => rw [after, List.take_append_of_le_length (Nat.le_of_lt htop)]; rfl
  | unfinished =>
    rw [after, halt_append _ _ _ _ (fun g hg => Nat.le_of_lt (hn g hg)) (List.cons_ne_nil _ _)]
    rfl

/-- What was opened last has the greatest number. -/
theorem number_lt_of_push {spans : List Span} {stack : List OpenGroup}
    (hn : ∀ g ∈ stack, g.number < spans.length) (span : Span) (shape : Shape) (place : Place) :
    ∀ g ∈ (⟨spans.length, shape, place⟩ : OpenGroup) :: stack,
      g.number < (spans ++ [span]).length := by
  intro g hg
  rw [List.length_append, List.length_singleton]
  rcases List.mem_cons.mp hg with rfl | hg
  · exact Nat.lt_succ_self _
  · exact Nat.lt_succ_of_lt (hn g hg)

/-- With a group as its innermost one the machine comes to where a search for the end of that group
ends. -/
def Follows (depth : Nat) (shape : Shape) (opened : Place) (brackets : List Bracket)
    (ending : Ending) (found : List Diagnostic) : Prop :=
  ∀ (spans : List Span) (number : Nat) (below : List OpenGroup) (reported : List Diagnostic),
    below.length + 1 = depth →
    (∀ g ∈ (⟨number, shape, opened⟩ : OpenGroup) :: below, g.number < spans.length) →
      readAll ⟨spans, ⟨number, shape, opened⟩ :: below, false, reported⟩ brackets =
        readAll (after spans ⟨number, shape, opened⟩ below (reported ++ found) ending)
          (restOf ending)

/-- Behind an opening bracket the machine comes to where the search for the end of its group ends.
-/
theorem readAll_opener_of_follows (spans : List Span) (stack : List OpenGroup)
    (reported : List Diagnostic) (hd : stack.length < Forest.nestingLimit)
    (hn : ∀ g ∈ stack, g.number < spans.length) {shape : Shape} {place : Place}
    {rest : List Bracket} {ending : Ending} {found : List Diagnostic}
    (h : Follows (stack.length + 1) shape place rest ending found) :
    readAll ⟨spans, stack, false, reported⟩ (⟨place, shape, false⟩ :: rest) =
      readAll (after (spans ++ [⟨shape, place, place, some (innermost stack)⟩])
        ⟨spans.length, shape, place⟩ stack (reported ++ found) ending) (restOf ending) := by
  rw [readAll_opener spans stack reported hd]
  exact h _ _ _ _ rfl (number_lt_of_push hn _ _ _)

theorem follows_of_finds {depth : Nat} {shape : Shape} {opened : Place} {brackets : List Bracket}
    {ending : Ending} {found : List Diagnostic}
    (h : Finds depth shape opened brackets ending found) :
    Follows depth shape opened brackets ending found := by
  induction h with
  | runsOut =>
    intro spans number below reported _ _
    rfl
  | closes =>
    intro spans number below reported _ _
    rw [readAll_cons, read_closer_of_shape, after, Forest.spans, List.append_nil, List.append_nil]
    rfl
  | crosses =>
    intro spans number below reported _ _
    rfl
  | @passes depth opened place rest ending found _ ih =>
    intro spans number below reported hd hn
    have hreported : reported ++ ⟨place, .parenInBrace opened⟩ :: found =
        (reported ++ [⟨place, .parenInBrace opened⟩]) ++ found := by
      rw [List.append_assoc, List.singleton_append]
    rw [readAll_cons, hreported, ← ih _ _ _ _ hd hn]
    rfl
  | @tooDeep depth shape opened place inner rest hlimit =>
    intro spans number below reported hd _
    rw [readAll_cons, read_opener_of_le _ _ _ (by rw [List.length_cons, hd]; exact hlimit),
      readAll_halt]
    rfl
  | @nests depth shape opened place inner rest closedAt inside rest₁ ending found found₁ hlimit _ _
      ih ih₁ =>
    rintro spans number below reported rfl hn
    -- The inner group stands behind those of before, with the groups inside it behind it.
    have hinner : ∀ g ∈ (⟨number, shape, opened⟩ : OpenGroup) :: below,
        g.number < (spans ++ ⟨inner, place, closedAt, some number⟩ ::
          inside.spans spans.length (spans.length + 1)).length := by
      intro g hg
      rw [List.length_append]
      exact Nat.lt_add_right _ (hn g hg)
    rw [readAll_opener_of_follows spans (⟨number, _, _⟩ :: below) reported hlimit hn ih, after,
      closeAt_length_append, List.append_assoc, List.length_append, List.length_singleton, restOf]
    refine (ih₁ _ _ _ _ rfl hinner).trans ?_
    rw [after_addGroup _ _ _ _ _ _ _ _ _ hn, restOf_addGroup, List.append_assoc]
  | @breaks depth opened place inner rest closedAt rest₁ found hlimit _ ih =>
    rintro spans number below reported rfl hn
    rw [readAll_opener_of_follows spans (⟨number, _, _⟩ :: below) reported hlimit hn ih, after,
      List.take_left]
    rfl
  | @absorbs depth opened place inner rest closedAt rest₁ found hlimit _ ih =>
    rintro spans number below reported rfl hn
    rw [readAll_opener_of_follows spans (⟨number, _, _⟩ :: below) reported hlimit hn ih]
    simp only [after, List.take_left, Forest.spans, List.append_nil]
    rfl
  | @stops depth shape opened place inner rest found hlimit _ ih =>
    rintro spans number below reported rfl hn
    have hle (g : OpenGroup) (hg : g ∈ (⟨number, shape, opened⟩ : OpenGroup) :: below) :
        g.number ≤ spans.length := Nat.le_of_lt (hn g hg)
    -- The outermost group goes either way, and with it the one opened last.
    rw [readAll_opener_of_follows spans (⟨number, _, _⟩ :: below) reported hlimit hn ih, after,
      halt_push, halt_append _ _ _ _ hle (List.cons_ne_nil _ _)]
    rfl

/-- With no group open the machine reads the groups of a file behind those it holds. -/
theorem readAll_ofBrackets (brackets : List Bracket) :
    ∀ (spans : List Span) (reported : List Diagnostic),
      readAll ⟨spans, [], false, reported⟩ brackets =
        ⟨spans ++ (Forest.ofBrackets brackets).groups.spans 0 spans.length, [],
          (Forest.ofBrackets brackets).earlyEnd,
          reported ++ (Forest.ofBrackets brackets).diagnostics⟩ := by
  fun_induction Forest.ofBrackets brackets with
  | case1 =>
    intro spans reported
    simp only [Forest.spans, List.append_nil]
    rfl
  | case2 b rest hc behind ih =>
    intro spans reported
    obtain ⟨place, shape, rfl⟩ := Forest.exists_closer hc
    have hreported : reported ++ ⟨place, .unmatchedCloser shape⟩ :: behind.diagnostics =
        (reported ++ [⟨place, .unmatchedCloser shape⟩]) ++ behind.diagnostics := by
      rw [List.append_assoc, List.singleton_append]
    rw [readAll_cons, hreported, ← ih]
    rfl
  | case3 b rest hc closedAt inside rest₁ _ found hs behind ih =>
    intro spans reported
    obtain ⟨place, shape, rfl⟩ := Forest.exists_opener hc
    have hfollows := follows_of_finds (finds_of_search hs)
    rw [readAll_opener_of_follows spans [] reported (by decide) (by simp) hfollows,
      Forest.Outcome.ending, after, closeAt_length_append, restOf, ih]
    simp only [List.length_append, List.length_singleton, Forest.length_spans, List.append_assoc]
    rw [← Nat.add_assoc]
    rfl
  | case4 b rest hc closedAt rest₁ _ found hs behind ih =>
    intro spans reported
    obtain ⟨place, shape, rfl⟩ := Forest.exists_opener hc
    have hfollows := follows_of_finds (finds_of_search hs)
    rw [readAll_opener_of_follows spans [] reported (by decide) (by simp) hfollows,
      Forest.Outcome.ending, after, List.take_left, restOf, cross, ih, List.append_assoc]
  | case5 b rest hc found hs =>
    intro spans reported
    obtain ⟨place, shape, rfl⟩ := Forest.exists_opener hc
    have hfollows := follows_of_finds (finds_of_search hs)
    rw [readAll_opener_of_follows spans [] reported (by decide) (by simp) hfollows,
      Forest.Outcome.ending, after, Forest.spans, List.append_nil]
    exact congrArg (StackMachine.mk · [] true (reported ++ found)) List.take_left

end StackMachine

namespace GroupTree

/-- The tree of a file and what is reported about its brackets are what the machine comes to. -/
theorem build_eq_run (lines : Lines) :
    (build lines).1.groups.toList.map Group.span = (StackMachine.run lines).spans ∧
      (∀ id, (build lines).1.children id = (StackMachine.run lines).children id) ∧
      (build lines).1.earlyEnd = (StackMachine.run lines).stopped ∧
      (build lines).2 = (StackMachine.run lines).reported := by
  have hrun : StackMachine.run lines =
      ⟨⟨.brace, .on 0 0, lines.stop, none⟩ ::
          (Forest.ofBrackets lines.brackets).groups.spans 0 1,
        [], (Forest.ofBrackets lines.brackets).earlyEnd,
        (Forest.ofBrackets lines.brackets).diagnostics⟩ := by
    rw [StackMachine.run, StackMachine.foldl_step, lines.filterMap_buffer]
    exact StackMachine.readAll_ofBrackets lines.brackets _ []
  have hspans : (build lines).1.groups.toList.map Group.span = (StackMachine.run lines).spans := by
    rw [hrun, ← Forest.map_span_toGroups lines]
    rfl
  refine ⟨hspans, ?_, ?_, ?_⟩
  · intro id
    have hlength : (StackMachine.run lines).spans.length = (build lines).1.size := by
      rw [← hspans, List.length_map, Array.length_toList]
      rfl
    rw [StackMachine.children, hlength]
    refine (children_ofForest lines _ _ id).trans (List.filter_congr fun child _ => ?_)
    rw [← hspans, List.getElem?_map, Array.getElem?_toList, Option.bind_map]
    rfl
  · rw [hrun]
    rfl
  · rw [hrun]
    rfl

end GroupTree
end BracketLint
