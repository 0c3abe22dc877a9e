import Mathlib.Data.List.Basic
import BracketLint.Proofs.Line.Backslash
import BracketLint.Proofs.Lines.Append
import BracketLint.Proofs.Lines.RegionMachine
import BracketLint.Proofs.Lines.ReportedPlaces

/-!
Directives that go on in the next line. The pass over directives sees only what the passes before it
have left of a line, so it goes on behind a line if the backslash at the end of the line is still
there. A line that it clears although it is in a dead region is the first one of the region, and the
line behind it is empty.
-/

namespace BracketLint

section Directives

/-- Whether the pass over directives clears a line, as a directive or as one that continues it. -/
def isInDirective (texts : List Bytes) (i : Nat) : Bool :=
  isContinuedBehind false (texts.take i) || (texts[i]?.bind Directive.ofLine?).isSome

variable {texts : List Bytes} {i : Nat} {text : Bytes}

theorem isContinuedBehind_take_succ (h : texts[i]? = some text) :
    isContinuedBehind false (texts.take (i + 1)) =
      (isInDirective texts i && text.endsIn Ascii.backslash) := by
  rw [List.take_add_one, h, isContinuedBehind_append, isInDirective, h]
  rfl

theorem getElem?_blankDirectives (texts : List Bytes) (i : Nat) :
    (blankDirectives false texts)[i]? =
      texts[i]?.map fun text => if isInDirective texts i then [] else text := by
  cases h : texts[i]? with
  | none =>
    have hle : (blankDirectives false texts).length ≤ i := by
      rw [← (emptied_blankDirectives false texts).length_eq]
      exact List.getElem?_eq_none_iff.mp h
    rw [List.getElem?_eq_none hle, Option.map_none]
  | some text =>
    obtain ⟨hlt, rfl⟩ := List.getElem?_eq_some_iff.mp h
    have hfront : (blankDirectives false (texts.take i)).length = i := by
      rw [← (emptied_blankDirectives false _).length_eq, List.length_take_of_le (Nat.le_of_lt hlt)]
    have hsplit : blankDirectives false texts = blankDirectives false (texts.take i) ++
        blankDirectives (isContinuedBehind false (texts.take i)) (texts.drop i) := by
      rw [← blankDirectives_append, List.take_append_drop]
    rw [hsplit, List.getElem?_append_right (Nat.le_of_eq hfront), hfront, Nat.sub_self,
      List.drop_eq_getElem_cons hlt, blankDirectives, isInDirective, h, Option.bind_some]
    split_ifs
    · rfl
    · rfl

end Directives

section Regions

open RegionState

/-- A line that a dead region empties has an empty line in front of it or behind it. The line in front
of the first one, `before`, counts as empty if that one is in a region already. -/
theorem getElem?_run (index : Nat) {state : RegionState} (before : Bytes)
    (hbefore : state ≠ live → before = []) (lines : List Bytes) (i : Nat) :
    let texts := (run index state lines).1
    texts[i]? = lines[i]? ∨ texts[i]? = some [] ∧
      ((before :: texts)[i]? = some [] ∨ texts[i + 1]?.getD [] = []) := by
  induction lines generalizing index state before i with
  | nil => exact .inl rfl
  | cons line lines ih =>
    rw [run]
    dsimp only
    generalize hafter : state.read index line = after
    have hwritten (h : after ≠ live) : write line state after = [] := by
      cases after with
      | live => exact absurd rfl h
      | dead => cases state <;> rfl
    cases i with
    | succ i => exact ih (index + 1) _ hwritten i
    | zero =>
      cases state with
      | dead =>
        obtain rfl := hbefore fun h => by cases h
        exact .inr ⟨rfl, .inl rfl⟩
      | live =>
        cases after with
        | live => exact .inl rfl
        | dead opener opened depth =>
          refine .inr ⟨rfl, .inr ?_⟩
          -- The region goes on over the line behind the one that starts it.
          cases lines <;> rfl

end Regions

namespace Lines

/-- The texts that the pass over directives is given: what dead regions leave. -/
def compiledTexts (raws : List Bytes) : List Bytes :=
  (blankDeadRegions 1 (trimmedTexts raws)).1

theorem finalTexts_eq (raws : List Bytes) :
    finalTexts raws = blankDirectives false (compiledTexts raws) := rfl

variable {raws : List Bytes} {i : Nat} {raw : Bytes}

/-- If dead regions empty a line that is in a directive, they empty the next line too. -/
theorem getElem?_compiledTexts (h : isInDirective (compiledTexts raws) i = true) :
    (compiledTexts raws)[i]? = (trimmedTexts raws)[i]? ∨
      (compiledTexts raws)[i + 1]?.getD [] = [] := by
  have hrun : compiledTexts raws = (RegionState.run 1 .live (trimmedTexts raws)).1 :=
    congrArg Prod.fst (blankDeadRegions_eq_run 1 _)
  -- Any line may be thought of in front of the first one, so here it is not an empty one.
  have hnear := getElem?_run 1 [filler] (fun h => absurd rfl h) (trimmedTexts raws) i
  rw [← hrun] at hnear
  rcases hnear with hsame | ⟨hempty, hfront | hbehind⟩
  · exact .inl hsame
  · refine absurd h ?_
    have hcontinued : isContinuedBehind false ((compiledTexts raws).take i) = false := by
      cases i with
      | zero => rfl
      | succ i =>
        have hnil : (compiledTexts raws)[i]? = some [] := hfront
        rw [isContinuedBehind_take_succ hnil]
        exact Bool.and_false _
    rw [isInDirective, hcontinued, hempty]
    decide
  · exact .inr hbehind

theorem getElem?_trimmedTexts (h : raws[i]? = some raw) :
    (trimmedTexts raws)[i]? =
      some (Bytes.trimEnd (blankLine (1 + i) (carryBehind .code (raws.take i)) raw).text) := by
  rw [trimmedTexts, List.getElem?_map, getElem?_blankLines 1 .code h, Option.map_some]

/-- Behind a line of a directive whose backslash is left the next line is cleared. -/
theorem getElem?_finalTexts_succ {text : Bytes} (htext : (trimmedTexts raws)[i]? = some text)
    (hmarked : text.endsIn Ascii.backslash = true)
    (h : isInDirective (compiledTexts raws) i = true) : (finalTexts raws)[i + 1]?.getD [] = [] := by
  rw [finalTexts_eq, getElem?_blankDirectives]
  rcases getElem?_compiledTexts h with hsame | hempty
  · have hcontinued : isInDirective (compiledTexts raws) (i + 1) = true := by
      rw [isInDirective, isContinuedBehind_take_succ (hsame.trans htext), h, hmarked]
      rfl
    rw [hcontinued]
    cases (compiledTexts raws)[i + 1]? <;> rfl
  · cases hnext : (compiledTexts raws)[i + 1]? with
    | none => rfl
    | some next =>
      rw [hnext] at hempty
      obtain rfl : next = [] := hempty
      rw [Option.map_some, Option.getD_some, ite_self]

section Scrubbed

variable {source : Bytes} {kind : FileKind} {options : ScrubOptions} {i : Nat} {raw : Bytes}
  {d : Diagnostic}

/-- What the pass over literals reports on a line stands there, and scrubbing reports it. -/
theorem mem_scrub_of_mem_blankLine (kind : FileKind) (options : ScrubOptions)
    (hraw : (Bytes.lines source.dropByteOrderMark)[i]? = some raw)
    (h : d ∈ (blankLine (1 + i)
      (carryBehind .code ((Bytes.lines source.dropByteOrderMark).take i)) raw).diagnostics) :
    d ∈ (scrub source kind options).2 ∧ ∃ column, d.place = .on (i + 1) column := by
  refine ⟨?_, ?_⟩
  · refine List.mem_append_left _ (List.mem_append_left _ (List.mem_append_right _ ?_))
    exact List.mem_flatMap.mpr ⟨_, List.mem_of_getElem? (getElem?_blankLines 1 .code hraw), h⟩
  · have hstands : d.place.OnLine (d.issue.IsAt 0) [raw] (1 + i) := onLine_of_mem_blankLine h
    obtain ⟨offset, column, _, hplace, hoffset, -⟩ := hstands
    have hlt := (List.getElem?_eq_some_iff.mp hoffset).1
    rw [List.length_singleton] at hlt
    exact ⟨column, by rw [hplace, Nat.lt_one_iff.mp hlt, Nat.add_zero, Nat.add_comm]⟩

/-- A directive is cleared together with its continuation. Behind a line that the pass over directives
clears, as a directive or as the continuation of one, and that ends in a backslash, blanks aside, the
next line is empty, unless a block comment goes on there or a literal on the line is reported. -/
theorem text_behind_directive
    (hdirective :
      isInDirective (compiledTexts (Bytes.lines source.dropByteOrderMark)) i = true)
    (hraw : (Bytes.trimEnd ((scrub source kind options).1.raw (i + 1))).endsIn Ascii.backslash =
      true)
    (hcomment : carryBehind .code ((Bytes.lines source.dropByteOrderMark).take (i + 1)) ≠ .comment)
    (hliteral : ∀ column quote,
      ⟨.on (i + 1) column, .unterminatedLiteral quote⟩ ∉ (scrub source kind options).2) :
    (scrub source kind options).1.text (i + 2) = [] := by
  rw [scrub, raw_ofRawLines] at hraw
  rw [scrub, text_ofRawLines]
  cases hi : (Bytes.lines source.dropByteOrderMark)[i]? with
  | none =>
    rw [hi] at hraw
    cases hraw
  | some raw =>
    rw [hi, Option.getD_some] at hraw
    rw [carryBehind_take_succ (1 + i) .code hi] at hcomment
    refine getElem?_finalTexts_succ (getElem?_trimmedTexts hi) ?_ hdirective
    refine endsIn_trimEnd_blankLine hraw hcomment fun d hd quote hissue => ?_
    obtain ⟨hmem, column, hplace⟩ := mem_scrub_of_mem_blankLine kind options hi hd
    obtain ⟨place, issue⟩ := d
    obtain rfl : place = .on (i + 1) column := hplace
    obtain rfl : issue = .unterminatedLiteral quote := hissue
    exact hliteral column quote hmem

/-- The backslash is part of a line comment. -/
theorem text_behind_directive_lineComment :
    let source := Bytes.ofString "#define A 1 // one \\ \n  more"
    isInDirective (compiledTexts (Bytes.lines source.dropByteOrderMark)) 0 = true ∧
      (Bytes.trimEnd ((scrub source .header {}).1.raw 1)).endsIn Ascii.backslash = true ∧
      carryBehind .code ((Bytes.lines source.dropByteOrderMark).take 1) ≠ .comment ∧
      (∀ column quote,
        ⟨.on 1 column, .unterminatedLiteral quote⟩ ∉ (scrub source .header {}).2) ∧
      (scrub source .header {}).1.text 2 = [] := by
  intro source
  have hdirective : isInDirective (compiledTexts (Bytes.lines source.dropByteOrderMark)) 0 = true := by
    decide +kernel
  have hraw : (Bytes.trimEnd ((scrub source .header {}).1.raw 1)).endsIn Ascii.backslash = true := by
    decide +kernel
  have hcomment : carryBehind .code ((Bytes.lines source.dropByteOrderMark).take 1) ≠ .comment := by
    decide +kernel
  have hnone : (scrub source .header {}).2 = [] := by decide +kernel
  have hliteral (column quote) :
      ⟨.on 1 column, .unterminatedLiteral quote⟩ ∉ (scrub source .header {}).2 := by
    rw [hnone]
    exact List.not_mem_nil
  exact ⟨hdirective, hraw, hcomment, hliteral,
    text_behind_directive hdirective hraw hcomment hliteral⟩

/-- A block comment over the end of the line takes the backslash with it, and so does a literal if a
blank stands behind the backslash. Then what the directive says next is taken for code. -/
theorem text_behind_directive_ne :
    let comment := Bytes.ofString "#define A /* c \\\n*/ int x;"
    let literal := Bytes.ofString "#define A \"b \\ \nint x;"
    let endsInBackslash (source : Bytes) : Bool :=
      (Bytes.trimEnd ((scrub source .implementation {}).1.raw 1)).endsIn Ascii.backslash
    (isInDirective (compiledTexts (Bytes.lines comment.dropByteOrderMark)) 0 = true ∧
        endsInBackslash comment = true ∧
        (scrub comment .implementation {}).1.text 2 = Bytes.ofString "   int x;") ∧
      isInDirective (compiledTexts (Bytes.lines literal.dropByteOrderMark)) 0 = true ∧
        endsInBackslash literal = true ∧
        (scrub literal .implementation {}).1.text 2 = Bytes.ofString "int x;" := by
  decide +kernel

end Scrubbed
end Lines
end BracketLint
