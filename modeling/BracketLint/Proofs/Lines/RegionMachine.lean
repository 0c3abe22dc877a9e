import Mathlib.Data.List.Basic
import BracketLint.Line.Directive

/-!
The blanking of dead regions as a machine that reads the lines once. The machine reads each line as
the name and the argument of a directive and goes by the name. It knows whether the line lies in a
dead region, and then how many conditionals are open inside the region. The pass searches ahead for
the end of each region and goes on behind it; the machine comes to the same lines and to the same
report. What the pass leaves has no directives once the pass over directives has gone over it.
-/

namespace BracketLint

/-- The name and the argument of the directive on a line. The first character of the line, blanks
aside, is a hash sign, and the name is the word behind it. -/
def directiveText? (line : Bytes) : Option (String × Bytes) :=
  match Bytes.trimStart line with
  | [] => none
  | b :: rest =>
    if b = Ascii.hash then
      let text := Bytes.trimStart rest
      some (Bytes.toWord (text.takeWhile Ascii.isWordByte),
        Bytes.trim (text.dropWhile Ascii.isWordByte))
    else none

/-- Where a line stands: in code that is compiled, or in a dead region. Of a region the machine keeps
the directive that started it, its place, and how many conditionals are open inside. -/
inductive RegionState
  | live
  | dead (opener : RegionOpener) (opened : Place) (depth : Nat)
  deriving DecidableEq, Repr

namespace RegionState

/-- The state in a region that starts at a line. -/
def enter (opener : RegionOpener) (index : Nat) (line : Bytes) : RegionState :=
  dead opener (.on index (line.length - (Bytes.trimStart line).length)) 0

/-- The state behind a line. In code, `if` and `elif` with a condition that never holds start a
region, and so does `else`; in a region, `if`, `ifdef` and `ifndef` open a conditional and `endif`
closes the innermost one, or the region itself. -/
def read (index : Nat) (line : Bytes) : RegionState → RegionState
  | live =>
    match directiveText? line with
    | none => live
    | some (name, argument) =>
      if name = "if" ∧ isAlwaysFalse argument.decode then enter .ifCondition index line
      else if name = "elif" ∧ isAlwaysFalse argument.decode then enter .elifCondition index line
      else if name = "else" then enter .elseBranch index line
      else live
  | dead opener opened depth =>
    match directiveText? line with
    | none => dead opener opened depth
    | some (name, _) =>
      if name ∈ ["if", "ifdef", "ifndef"] then dead opener opened (depth + 1)
      else if name = "endif" then
        match depth with
        | 0 => live
        | outer + 1 => dead opener opened outer
      else dead opener opened depth

/-- A line stays as it is if no region lies in front of it and it starts none. -/
def write (line : Bytes) : (before after : RegionState) → Bytes
  | live, live => line
  | _, _ => []

/-- The lines that the machine writes, from line number `index` on, and the state behind them. -/
def run (index : Nat) (state : RegionState) : List Bytes → List Bytes × RegionState
  | [] => ([], state)
  | line :: rest =>
    let after := state.read index line
    let behind := run (index + 1) after rest
    (write line state after :: behind.1, behind.2)

/-- A region that is still open is reported at the directive that started it. -/
def report : RegionState → List Diagnostic
  | live => []
  | dead opener opened _ => [⟨opened, .missingEndif opener⟩]

end RegionState

namespace Directive

/-- Which names the pass reads as which directives. -/
theorem ofName_cases (name : String) (argument : Bytes) :
    name = "if" ∧ ofName name argument = ifCondition argument ∨
      name = "elif" ∧ ofName name argument = elifCondition argument ∨
      name ∈ ["ifdef", "ifndef"] ∧ ofName name argument = ifDefined ∨
      name = "else" ∧ ofName name argument = elseBranch ∨
      name = "endif" ∧ ofName name argument = endif ∨
      name ∉ ["if", "elif", "ifdef", "ifndef", "else", "endif"] ∧ ofName name argument = other := by
  unfold ofName
  split <;> simp_all

theorem ofLine?_eq (line : Bytes) :
    ofLine? line = (directiveText? line).map fun text => ofName text.1 text.2 := by
  rw [ofLine?, directiveText?]
  cases Bytes.trimStart line with
  | nil => rfl
  | cons b rest => by_cases hb : b = Ascii.hash <;> simp [hb]

end Directive

namespace RegionState

theorem read_live (index : Nat) (line : Bytes) :
    live.read index line =
      match regionOpener? line with
      | none => live
      | some opener => enter opener index line := by
  rw [read, regionOpener?, Directive.ofLine?_eq]
  cases directiveText? line with
  | none => rfl
  | some text =>
    obtain ⟨name, argument⟩ := text
    dsimp only [Option.map_some]
    rcases Directive.ofName_cases name argument with ⟨rfl, h⟩ | ⟨rfl, h⟩ | ⟨hname, h⟩ | ⟨rfl, h⟩ |
      ⟨rfl, h⟩ | ⟨hname, h⟩
    · cases hfalse : isAlwaysFalse argument.decode <;> simp [h, hfalse]
    · cases hfalse : isAlwaysFalse argument.decode <;> simp [h, hfalse]
    · simp only [List.mem_cons, List.not_mem_nil, or_false] at hname
      rcases hname with rfl | rfl <;> simp [h]
    · simp [h]
    · simp [h]
    · simp only [List.mem_cons, List.not_mem_nil, or_false, not_or] at hname
      obtain ⟨hif, helif, -, -, helse, -⟩ := hname
      simp [h, hif, helif, helse]

section Dead

variable (opener : RegionOpener) (opened : Place)

/-- A line of a region ends the region where the search for the end does, and otherwise both go on
behind it at the same depth. -/
theorem read_dead (index depth : Nat) (line : Bytes) :
    ((dead opener opened depth).read index line = live ∧
        ∀ rest, endifLength? depth (line :: rest) = some 1) ∨
      ∃ depth', (dead opener opened depth).read index line = dead opener opened depth' ∧
        ∀ rest, endifLength? depth (line :: rest) = (endifLength? depth' rest).map (· + 1) := by
  have hopen (rest : List Bytes) := endifLength?.eq_def depth (line :: rest)
  dsimp only at hopen
  rw [read.eq_def]
  dsimp only
  rw [Directive.ofLine?_eq] at hopen
  cases htext : directiveText? line with
  | none => exact .inr ⟨depth, rfl, fun rest => by rw [hopen, htext]; rfl⟩
  | some text =>
    obtain ⟨name, argument⟩ := text
    dsimp only
    simp only [htext, Option.map_some] at hopen
    rcases Directive.ofName_cases name argument with ⟨rfl, h⟩ | ⟨rfl, h⟩ | ⟨hname, h⟩ | ⟨rfl, h⟩ |
      ⟨rfl, h⟩ | ⟨hname, h⟩
    · exact .inr ⟨depth + 1, rfl, fun rest => by rw [hopen, h]⟩
    · exact .inr ⟨depth, rfl, fun rest => by rw [hopen, h]⟩
    · exact .inr ⟨depth + 1, if_pos (List.mem_cons_of_mem _ hname),
        fun rest => by rw [hopen, h]⟩
    · exact .inr ⟨depth, rfl, fun rest => by rw [hopen, h]⟩
    · cases depth with
      | zero => exact .inl ⟨rfl, fun rest => by rw [hopen, h]⟩
      | succ outer => exact .inr ⟨outer, rfl, fun rest => by rw [hopen, h]⟩
    · simp only [List.mem_cons, List.not_mem_nil, or_false, not_or] at hname
      obtain ⟨hif, -, hifdef, hifndef, -, hendif⟩ := hname
      have hopens : name ∉ ["if", "ifdef", "ifndef"] := by simp [hif, hifdef, hifndef]
      exact .inr ⟨depth, by rw [if_neg hopens, if_neg hendif], fun rest => by rw [hopen, h]⟩

/-- In a region that ends, the machine empties the lines up to its end and is in code again. -/
theorem run_dead_of_some {depth length : Nat} {lines : List Bytes}
    (h : endifLength? depth lines = some length) (index : Nat) :
    run index (dead opener opened depth) lines =
      let behind := run (index + length) live (lines.drop length)
      (List.replicate length [] ++ behind.1, behind.2) := by
  induction lines generalizing index depth length with
  | nil => cases h
  | cons line rest ih =>
    rw [run]
    rcases read_dead opener opened index depth line with
      ⟨hread, hlength⟩ | ⟨depth', hread, hlength⟩
    · obtain rfl := Option.some.inj ((hlength rest).symm.trans h)
      rw [hread]
      rfl
    · obtain ⟨inner, hinner, rfl⟩ := Option.map_eq_some_iff.mp ((hlength rest).symm.trans h)
      rw [hread, ih hinner, Nat.add_right_comm, Nat.add_assoc]
      rfl

/-- In a region without an end, the machine empties all lines and stays in the region. -/
theorem run_dead_of_none {depth : Nat} {lines : List Bytes}
    (h : endifLength? depth lines = none) (index : Nat) :
    ∃ depth', run index (dead opener opened depth) lines =
      (lines.map fun _ => [], dead opener opened depth') := by
  induction lines generalizing index depth with
  | nil => exact ⟨depth, rfl⟩
  | cons line rest ih =>
    rw [run]
    rcases read_dead opener opened index depth line with
      ⟨-, hlength⟩ | ⟨depth', hread, hlength⟩
    · cases (hlength rest).symm.trans h
    · have hinner := Option.map_eq_none_iff.mp ((hlength rest).symm.trans h)
      obtain ⟨depth'', hrun⟩ := ih hinner (index + 1)
      exact ⟨depth'', by rw [hread, hrun]; rfl⟩

end Dead
end RegionState

open RegionState

/-- The pass that searches ahead leaves the lines that the machine writes, and it reports what the
machine does. -/
theorem blankDeadRegions_eq_run (index : Nat) (lines : List Bytes) :
    blankDeadRegions index lines =
      ((run index live lines).1, (run index live lines).2.report) := by
  fun_induction blankDeadRegions index lines with
  | case1 => rfl
  | case2 index line rest hopener lines diagnostics hrest ih =>
    rw [hrest] at ih
    have hread : live.read index line = live := by rw [read_live, hopener]
    rw [run, hread, ← (Prod.mk.inj ih).1, ← (Prod.mk.inj ih).2]
    rfl
  | case3 index line rest opener hopener length hlength lines diagnostics hrest ih =>
    rw [hrest] at ih
    have hread : live.read index line = enter opener index line := by rw [read_live, hopener]
    rw [run, hread, enter, run_dead_of_some _ _ hlength]
    dsimp only
    rw [← (Prod.mk.inj ih).1, ← (Prod.mk.inj ih).2]
    rfl
  | case4 index line rest opener hopener hlength =>
    have hread : live.read index line = enter opener index line := by rw [read_live, hopener]
    obtain ⟨depth, hrun⟩ := run_dead_of_none opener
      (.on index (line.length - (Bytes.trimStart line).length)) hlength (index + 1)
    rw [run, hread, enter, hrun]
    rfl

theorem ofLine?_eq_none_iff {line : Bytes} :
    Directive.ofLine? line = none ↔ (Bytes.trimStart line).head? ≠ some Ascii.hash := by
  rw [Directive.ofLine?]
  cases Bytes.trimStart line with
  | nil => simp
  | cons b rest => simp

/-- No directive is left behind the pass over directives. -/
theorem head?_of_mem_blankDirectives {continued : Bool} {lines : List Bytes} {line : Bytes}
    (h : line ∈ blankDirectives continued lines) :
    (Bytes.trimStart line).head? ≠ some Ascii.hash := by
  induction lines generalizing continued with
  | nil => cases h
  | cons first rest ih =>
    rw [blankDirectives] at h
    split_ifs at h with hfirst
    · rcases List.mem_cons.mp h with rfl | h
      · decide
      · exact ih h
    · rcases List.mem_cons.mp h with rfl | h
      · rw [Bool.or_eq_true, not_or, Option.isSome_iff_ne_none, not_not] at hfirst
        exact ofLine?_eq_none_iff.mp hfirst.2
      · exact ih h

/-- The pass over dead regions leaves and reports what the machine does that reads the lines once, and
behind the pass over directives no line starts with a hash sign, blanks aside. -/
theorem blankDeadRegions_onePass (index : Nat) (lines : List Bytes) :
    blankDeadRegions index lines =
        ((run index live lines).1, (run index live lines).2.report) ∧
      ∀ line ∈ blankDirectives false (blankDeadRegions index lines).1,
        (Bytes.trimStart line).head? ≠ some Ascii.hash :=
  ⟨blankDeadRegions_eq_run index lines, fun _ => head?_of_mem_blankDirectives⟩

/-- The second branch of a conditional goes with the conditionals inside it; nothing ends the last
region. -/
example :
    run 1 live (["a", "#else", "#if 1", "#endif", "b", "#endif", "c", "#elif 0", "d"].map
        Bytes.ofString) =
      (["a", "", "", "", "", "", "c", "", ""].map Bytes.ofString,
        dead .elifCondition (.on 8 0) 0) := by
  decide +kernel

end BracketLint
