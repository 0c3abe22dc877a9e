import Mathlib.Data.List.Basic
import BracketLint.Proofs.Lines.Columns

/-!
What the pass over literals and comments carries from line to line, and what scrubbing reports. Only
what is open at the end of a line reaches the next one, so the pass over some lines is the pass over
the first of them followed by the pass over the others.
-/

namespace BracketLint

/-- A position that stands so many lines further down. -/
def Place.moveDown (count : Nat) : Place → Place
  | front => front
  | on line column => on (line + count) column

/-- A finding so many lines further down. What scrubbing reports names no other position. -/
def Diagnostic.moveDown (count : Nat) (d : Diagnostic) : Diagnostic :=
  { d with place := d.place.moveDown count }

/-- A line with its findings so many lines further down. -/
def BlankedLine.moveDown (count : Nat) (line : BlankedLine) : BlankedLine :=
  { line with diagnostics := line.diagnostics.map (·.moveDown count) }

section Move

variable (index count : Nat)

theorem closeLine_add (raw : Bytes) (scan : ScannedLine) :
    closeLine (index + count) raw scan = (closeLine index raw scan).moveDown count := by
  have hstrays : (scan.strays.map fun column => Diagnostic.mk (.on (index + count) column)
      .strayCommentEnd) = (scan.strays.map fun column => Diagnostic.mk (.on index column)
      .strayCommentEnd).map (·.moveDown count) := by
    rw [List.map_map]
    rfl
  unfold closeLine
  dsimp only
  rw [hstrays]
  split
  · split_ifs
    · rfl
    · simp [BlankedLine.moveDown, Diagnostic.moveDown, Place.moveDown]
  · rfl

/-- The number of a line shows only in what is reported. -/
theorem blankLine_add (carry : Carry) (raw : Bytes) :
    blankLine (index + count) carry raw = (blankLine index carry raw).moveDown count := by
  unfold blankLine
  split
  · rfl
  · exact closeLine_add index count raw _

theorem blankLines_add (carry : Carry) (raws : List Bytes) :
    blankLines (index + count) carry raws =
      (blankLines index carry raws).map (·.moveDown count) := by
  induction raws generalizing index carry with
  | nil => rfl
  | cons raw raws ih =>
    have hcarry : (blankLine (index + count) carry raw).carry = (blankLine index carry raw).carry :=
      congrArg (·.carry) (blankLine_add index count carry raw)
    rw [blankLines, blankLines, hcarry, List.map_cons, ← blankLine_add, ← ih, Nat.add_right_comm]

end Move

/-- What is open behind some lines if `carry` is open in front of them. The number of a line does
not matter for it. -/
def carryBehind (carry : Carry) : List Bytes → Carry
  | [] => carry
  | raw :: rest => carryBehind (blankLine 1 carry raw).carry rest

theorem carry_blankLine (index index' : Nat) (carry : Carry) (raw : Bytes) :
    (blankLine index carry raw).carry = (blankLine index' carry raw).carry := by
  rw [← Nat.zero_add index, ← Nat.zero_add index', blankLine_add, blankLine_add]
  rfl

theorem carryBehind_append (carry : Carry) (front behind : List Bytes) :
    carryBehind carry (front ++ behind) = carryBehind (carryBehind carry front) behind := by
  induction front generalizing carry with
  | nil => rfl
  | cons raw front ih => exact ih _

theorem carryBehind_take_succ (index : Nat) (carry : Carry) {raws : List Bytes} {i : Nat} {raw : Bytes}
    (h : raws[i]? = some raw) :
    carryBehind carry (raws.take (i + 1)) =
      (blankLine index (carryBehind carry (raws.take i)) raw).carry := by
  rw [List.take_add_one, h, carryBehind_append, carry_blankLine index 1]
  rfl

theorem blankLines_append (index : Nat) (carry : Carry) (front behind : List Bytes) :
    blankLines index carry (front ++ behind) =
      blankLines index carry front ++
        blankLines (index + front.length) (carryBehind carry front) behind := by
  induction front generalizing index carry with
  | nil => rfl
  | cons raw front ih =>
    rw [List.cons_append, blankLines, ih, blankLines, carryBehind, carry_blankLine index 1,
      List.length_cons, List.cons_append, Nat.add_right_comm, Nat.add_assoc]

/-- Each line is blanked from what the lines in front of it leave open. -/
theorem getElem?_blankLines (index : Nat) (carry : Carry) {raws : List Bytes} {i : Nat} {raw : Bytes}
    (h : raws[i]? = some raw) :
    (blankLines index carry raws)[i]? =
      some (blankLine (index + i) (carryBehind carry (raws.take i)) raw) := by
  induction raws generalizing index carry i with
  | nil => cases h
  | cons first raws ih =>
    rw [blankLines]
    cases i with
    | zero =>
      obtain rfl := Option.some.inj h
      rfl
    | succ i =>
      rw [List.getElem?_cons_succ, ih (index + 1) _ h, List.take_succ_cons, carryBehind,
        carry_blankLine index 1, Nat.add_right_comm, Nat.add_assoc]

namespace Lines

/-- Behind lines that leave nothing open the pass starts afresh. -/
theorem trimmedTexts_append {front behind : List Bytes} (h : carryBehind .code front = .code) :
    trimmedTexts (front ++ behind) = trimmedTexts front ++ trimmedTexts behind := by
  rw [trimmedTexts, blankLines_append, h, blankLines_add, List.map_append, List.map_map]
  rfl

section Stage

variable {index : Nat} {d : Diagnostic}

theorem issue_of_mem_hygieneFrom {limit : Nat} {raws : List Bytes}
    (h : d ∈ Line.hygieneFrom limit index raws) :
    d.issue = .tab ∨ ∃ width, d.issue = .longLine width limit := by
  induction raws generalizing index with
  | nil => cases h
  | cons raw raws ih =>
    rcases List.mem_append.mp h with h | h
    · rcases List.mem_append.mp h with h | h
      · split at h
        · obtain rfl := List.mem_singleton.mp h
          exact .inl rfl
        · cases h
      · split at h
        · obtain rfl := List.mem_singleton.mp h
          exact .inr ⟨_, rfl⟩
        · cases h
    · exact ih h

theorem stage_of_mem_closeLine {raw : Bytes} {scan : ScannedLine}
    (h : d ∈ (closeLine index raw scan).diagnostics) : d.stage = .scrub := by
  have hstrays (h : d ∈ scan.strays.map fun column => ⟨.on index column, .strayCommentEnd⟩) :
      d.stage = .scrub := by
    obtain ⟨column, -, rfl⟩ := List.mem_map.mp h
    rfl
  unfold closeLine at h
  dsimp only at h
  split at h
  · split at h
    · exact hstrays h
    · rcases List.mem_append.mp h with h | h
      · exact hstrays h
      · obtain rfl := List.mem_singleton.mp h
        rfl
  · exact hstrays h

theorem stage_of_mem_blankLines {carry : Carry} {raws : List Bytes}
    (h : d ∈ (blankLines index carry raws).flatMap (·.diagnostics)) : d.stage = .scrub := by
  induction raws generalizing index carry with
  | nil => cases h
  | cons raw raws ih =>
    rw [blankLines, List.flatMap_cons, List.mem_append] at h
    rcases h with h | h
    · rw [blankLine] at h
      split at h
      · cases h
      · exact stage_of_mem_closeLine h
    · exact ih h

theorem issue_of_mem_openCommentDiagnostic {lines : List BlankedLine}
    (h : d ∈ openCommentDiagnostic lines) : d.issue = .openComment := by
  rw [openCommentDiagnostic] at h
  split at h
  · split at h
    · obtain rfl := List.mem_singleton.mp h
      rfl
    · cases h
  · cases h

theorem issue_of_mem_blankDeadRegions {lines : List Bytes}
    (h : d ∈ (blankDeadRegions index lines).2) : ∃ opener, d.issue = .missingEndif opener := by
  fun_induction blankDeadRegions index lines with
  | case1 => cases h
  | case2 index line rest _ lines diagnostics hrest ih =>
    rw [hrest] at ih
    exact ih h
  | case3 index line rest opener _ length _ lines diagnostics hrest ih =>
    rw [hrest] at ih
    exact ih h
  | case4 index line rest opener =>
    obtain rfl := List.mem_singleton.mp h
    exact ⟨opener, rfl⟩

/-- Everything that scrubbing reports is of its own stage. -/
theorem stage_of_mem_scrub {source : Bytes} {kind : FileKind} {options : ScrubOptions}
    (h : d ∈ (scrub source kind options).2) : d.stage = .scrub := by
  rcases List.mem_append.mp h with h | h
  · rcases List.mem_append.mp h with h | h
    · rcases List.mem_append.mp h with h | h
      · rcases issue_of_mem_hygieneFrom h with hissue | ⟨width, hissue⟩
        · rw [Diagnostic.stage, hissue]
          rfl
        · rw [Diagnostic.stage, hissue]
          rfl
      · exact stage_of_mem_blankLines h
    · rw [Diagnostic.stage, issue_of_mem_openCommentDiagnostic h]
      rfl
  · obtain ⟨opener, hissue⟩ := issue_of_mem_blankDeadRegions h
    rw [Diagnostic.stage, hissue]
    rfl

end Stage
end Lines
end BracketLint
