import Mathlib.Data.List.Basic
import BracketLint.Proofs.Lines.Carry

/-!
Regions that are never compiled. A block from `#if 0` to `#endif` opens and ends one conditional, so
the search for the end of a conditional around it or in front of it passes it as a whole, and the
block itself is emptied if no region around it is. What stands in its body cannot be seen in the
scrubbed lines.
-/

namespace BracketLint

/-- Whether a line opens or ends a conditional. -/
def isConditional (line : Bytes) : Bool :=
  match Directive.ofLine? line with
  | some (.ifCondition _) | some .ifDefined | some .endif => true
  | _ => false

/-- The directive that starts a region that is never compiled. -/
def ifZero : Bytes := Bytes.ofString "#if 0"

/-- The directive that ends a conditional. -/
def endif : Bytes := Bytes.ofString "#endif"

/-- A body between the two directives, with lines behind it. -/
def deadBlock (body behind : List Bytes) : List Bytes := ifZero :: (body ++ endif :: behind)

/-- The lines of a body that may stand in a dead region: they leave nothing open, and as the
preprocessor passes find them none opens or ends a conditional. -/
structure IsDeadBody (body : List Bytes) : Prop where
  closed : carryBehind .code body = .code
  plain : ∀ text ∈ Lines.trimmedTexts body, isConditional text = false

section Search

variable {texts texts' behind : List Bytes}

theorem endifLength?_cons_of_plain {line : Bytes} (h : isConditional line = false) (depth : Nat)
    (rest : List Bytes) :
    endifLength? depth (line :: rest) = (endifLength? depth rest).map (· + 1) := by
  rw [endifLength?.eq_def]
  dsimp only
  cases hdirective : Directive.ofLine? line with
  | none => rfl
  | some directive =>
    rw [isConditional, hdirective] at h
    cases directive <;> first | rfl | cases h

/-- The search passes a body that neither opens nor ends a conditional. -/
theorem endifLength?_append (h : ∀ text ∈ texts, isConditional text = false) (depth : Nat) :
    endifLength? depth (texts ++ behind) = (endifLength? depth behind).map (· + texts.length) := by
  induction texts with
  | nil => simp
  | cons text texts ih =>
    rw [List.cons_append, endifLength?_cons_of_plain (h text List.mem_cons_self),
      ih fun text' h' => h text' (List.mem_cons_of_mem _ h'), Option.map_map]
    rfl

theorem endifLength?_endif (depth : Nat) (rest : List Bytes) :
    endifLength? (depth + 1) (endif :: rest) = (endifLength? depth rest).map (· + 1) := rfl

/-- The search passes a whole block. -/
theorem endifLength?_deadBlock (h : ∀ text ∈ texts, isConditional text = false) (depth : Nat) :
    endifLength? depth (deadBlock texts behind) =
      (endifLength? depth behind).map (· + (texts.length + 2)) := by
  have hopen : endifLength? depth (deadBlock texts behind) =
    (endifLength? (depth + 1) (texts ++ endif :: behind)).map (· + 1) := rfl
  rw [hopen, endifLength?_append h, endifLength?_endif, Option.map_map, Option.map_map]
  congr 1
  funext length
  simp only [Function.comp_apply]
  omega

/-- The search ends in front of a block or behind it, never inside. -/
theorem le_or_le_of_endifLength? (h : ∀ text ∈ texts, isConditional text = false)
    {front : List Bytes} {depth length : Nat}
    (hlength : endifLength? depth (front ++ deadBlock texts behind) = some length) :
    length ≤ front.length ∨ front.length + (texts.length + 2) ≤ length := by
  induction front generalizing depth length with
  | nil =>
    -- From the block on, the search takes its two directives together.
    rw [List.nil_append, endifLength?_deadBlock h] at hlength
    obtain ⟨inner, -, rfl⟩ := Option.map_eq_some_iff.mp hlength
    exact Or.inr (by simp only [List.length_nil]; omega)
  | cons line front ih =>
    -- A line that does not end the search leaves the rest of it to `front`, at some depth.
    have hstep (depth : Nat) (hmap : (endifLength? depth (front ++ deadBlock texts behind)).map
        (· + 1) = some length) :
        length ≤ (line :: front).length ∨ (line :: front).length + (texts.length + 2) ≤ length := by
      obtain ⟨inner, hinner, rfl⟩ := Option.map_eq_some_iff.mp hmap
      have hor := ih hinner
      simp only [List.length_cons]
      omega
    rw [List.cons_append, endifLength?.eq_def] at hlength
    dsimp only at hlength
    split at hlength
    · exact hstep _ hlength
    · exact hstep _ hlength
    · split at hlength
      · obtain rfl := Option.some.inj hlength
        exact Or.inl (Nat.succ_le_succ (Nat.zero_le _))
      · exact hstep _ hlength
    · exact hstep _ hlength

theorem drop_deadBlock (front : List Bytes) (more : Nat) :
    (front ++ deadBlock texts behind).drop (front.length + (texts.length + 2) + more) =
      behind.drop more := by
  have hsplit : front ++ deadBlock texts behind =
      (front ++ ifZero :: (texts ++ [endif])) ++ behind := by
    simp [deadBlock]
  have hlength : (front ++ ifZero :: (texts ++ [endif])).length =
      front.length + (texts.length + 2) := by
    simp
  rw [hsplit, ← hlength, ← List.drop_drop, List.drop_left]

/-- A block that no region covers is emptied as a whole. -/
theorem blankDeadRegions_deadBlock (h : ∀ text ∈ texts, isConditional text = false) (index : Nat) :
    blankDeadRegions index (deadBlock texts behind) =
      let lines := blankDeadRegions (index + 1 + (texts.length + 1)) behind
      ([] :: List.replicate (texts.length + 1) [] ++ lines.1, lines.2) := by
  have hopener : regionOpener? ifZero = some .ifCondition := by decide +kernel
  have hend : endifLength? 0 (texts ++ endif :: behind) = some (texts.length + 1) := by
    rw [endifLength?_append h, Nat.add_comm]
    rfl
  have hdrop : (texts ++ endif :: behind).drop (texts.length + 1) = behind := by
    rw [← List.drop_drop, List.drop_left]
    rfl
  rw [deadBlock, blankDeadRegions.eq_def]
  dsimp only
  rw [hopener]
  dsimp only
  rw [hend]
  dsimp only
  rw [hdrop]

variable (h : ∀ text ∈ texts, isConditional text = false)
  (h' : ∀ text ∈ texts', isConditional text = false) (hlength : texts.length = texts'.length)
include h h' hlength

theorem endifLength?_congr (front : List Bytes) (depth : Nat) :
    endifLength? depth (front ++ deadBlock texts behind) =
      endifLength? depth (front ++ deadBlock texts' behind) := by
  induction front generalizing depth with
  | nil =>
    rw [List.nil_append, List.nil_append, endifLength?_deadBlock h, endifLength?_deadBlock h',
      hlength]
  | cons line front ih =>
    rw [List.cons_append, List.cons_append, endifLength?.eq_def,
      endifLength?.eq_def _ (line :: (front ++ deadBlock texts' behind))]
    simp only [ih]

/-- What stands in the body of a block is invisible to the pass over dead regions, whatever stands
in front of the block and behind it. -/
theorem blankDeadRegions_congr (index : Nat) (front : List Bytes) :
    blankDeadRegions index (front ++ deadBlock texts behind) =
      blankDeadRegions index (front ++ deadBlock texts' behind) := by
  -- A region in front takes many lines at once, so the induction is on the number of lines left.
  induction hn : front.length using Nat.strongRecOn generalizing index front with
  | ind n ih =>
    subst hn
    cases front with
    | nil =>
      rw [List.nil_append, List.nil_append, blankDeadRegions_deadBlock h,
        blankDeadRegions_deadBlock h', hlength]
    | cons line front =>
      rw [List.cons_append, List.cons_append, blankDeadRegions.eq_def,
        blankDeadRegions.eq_def _ (line :: (front ++ deadBlock texts' behind))]
      dsimp only
      rw [endifLength?_congr h h' hlength, ih _ (Nat.lt_succ_self _) _ front rfl]
      cases regionOpener? line with
      | none => rfl
      | some opener =>
        dsimp only
        cases hend : endifLength? 0 (front ++ deadBlock texts' behind) with
        | none =>
          -- Nothing behind the opener is left, and the files are equally long.
          simp [List.map_const', deadBlock, hlength]
        | some length =>
          dsimp only
          have hdrop : blankDeadRegions (index + 1 + length)
              ((front ++ deadBlock texts behind).drop length) =
              blankDeadRegions (index + 1 + length)
                ((front ++ deadBlock texts' behind).drop length) := by
            rcases le_or_le_of_endifLength? h' hend with hle | hle
            -- The region ends in front of the block, which is met later.
            · rw [List.drop_append_of_le_length hle, List.drop_append_of_le_length hle]
              refine ih _ ?_ _ _ rfl
              simp only [List.length_drop, List.length_cons]
              omega
            -- The block lies in the region, and behind it the files are the same.
            · obtain ⟨more, rfl⟩ := Nat.exists_eq_add_of_le hle
              rw [drop_deadBlock, ← hlength, drop_deadBlock]
          rw [hdrop]

end Search

namespace Lines

variable {front body body' behind : List Bytes}

theorem trimmedTexts_deadBlock (hfront : carryBehind .code front = .code)
    (hbody : carryBehind .code body = .code) :
    trimmedTexts (front ++ deadBlock body behind) =
      trimmedTexts front ++ deadBlock (trimmedTexts body) (trimmedTexts behind) := by
  have hif : carryBehind .code [ifZero] = .code := by decide +kernel
  have hend : carryBehind .code [endif] = .code := by decide +kernel
  have hifText : trimmedTexts [ifZero] = [ifZero] := by decide +kernel
  have hendText : trimmedTexts [endif] = [endif] := by decide +kernel
  have hblock : deadBlock body behind = [ifZero] ++ (body ++ ([endif] ++ behind)) := rfl
  rw [hblock, trimmedTexts_append hfront, trimmedTexts_append hif, trimmedTexts_append hbody,
    trimmedTexts_append hend, hifText, hendText]
  rfl

/-- A dead body has no influence on what scrubbing leaves of a file. -/
theorem finalTexts_congr (hfront : carryBehind .code front = .code) (hbody : IsDeadBody body)
    (hbody' : IsDeadBody body') (hlength : body.length = body'.length) :
    finalTexts (front ++ deadBlock body behind) = finalTexts (front ++ deadBlock body' behind) := by
  rw [finalTexts, finalTexts, trimmedTexts_deadBlock hfront hbody.closed,
    trimmedTexts_deadBlock hfront hbody'.closed]
  rw [blankDeadRegions_congr hbody.plain hbody'.plain
    (by rw [length_trimmedTexts, length_trimmedTexts, hlength])]

theorem trimmedTexts_replicate (n : Nat) :
    trimmedTexts (List.replicate n []) = List.replicate n [] := by
  induction n with
  | zero => rfl
  | succ n ih =>
    have hfirst : carryBehind .code [([] : Bytes)] = .code := rfl
    rw [List.replicate_succ, ← List.singleton_append, trimmedTexts_append hfirst, ih]
    rfl

/-- Empty lines are a dead body. -/
theorem isDeadBody_replicate (n : Nat) : IsDeadBody (List.replicate n []) where
  closed := by
    induction n with
    | zero => rfl
    | succ n ih => exact ih
  plain text htext := by
    rw [trimmedTexts_replicate] at htext
    rw [List.eq_of_mem_replicate htext]
    rfl

/-- Nothing of a dead body is left. -/
theorem finalTexts_body (hfront : carryBehind .code front = .code) (hbody : IsDeadBody body)
    {index : Nat} (hindex : index < body.length) :
    (finalTexts (front ++ deadBlock body behind))[front.length + (index + 1)]? = some [] := by
  have hempty := isDeadBody_replicate body.length
  -- The body has as little influence as empty lines, and these have nothing to leave.
  rw [finalTexts_congr hfront hbody hempty List.length_replicate.symm]
  generalize hraws : front ++ deadBlock (List.replicate body.length []) behind = raws
  have htrimmed : (trimmedTexts raws)[front.length + (index + 1)]? = some [] := by
    rw [← hraws, trimmedTexts_deadBlock hfront hempty.closed, trimmedTexts_replicate,
      ← length_trimmedTexts front, List.getElem?_append_right (Nat.le_add_right _ _),
      Nat.add_sub_cancel_left, deadBlock, List.getElem?_cons_succ,
      List.getElem?_append_left (by rwa [List.length_replicate]), List.getElem?_replicate,
      if_pos hindex]
  obtain ⟨hlength, hstart⟩ := List.forall₂_iff_get.mp (shortened_finalTexts raws)
  obtain ⟨hlt, hnil⟩ := List.getElem?_eq_some_iff.mp htrimmed
  have hle := hstart _ hlt (hlength ▸ hlt)
  rw [List.get_eq_getElem, List.get_eq_getElem, hnil, List.prefix_nil] at hle
  rw [List.getElem?_eq_getElem (hlength ▸ hlt), hle]

/-- Files that differ in a dead body have the same lines wherever there is code. -/
theorem raw_eq_of_text_ne_nil (kind : FileKind) (options : ScrubOptions)
    (hfront : carryBehind .code front = .code) (hbody : IsDeadBody body)
    (hlength : body.length = body'.length) (index : Nat)
    (htext : (ofRawLines (front ++ deadBlock body behind) kind options).1.text index ≠ []) :
    (ofRawLines (front ++ deadBlock body behind) kind options).1.raw index =
      (ofRawLines (front ++ deadBlock body' behind) kind options).1.raw index := by
  cases index with
  | zero => rfl
  | succ index =>
    rw [raw_ofRawLines, raw_ofRawLines]
    rw [text_ofRawLines] at htext
    congr 1
    rcases Nat.lt_or_ge index front.length with hlt | hge
    · rw [List.getElem?_append_left hlt, List.getElem?_append_left hlt]
    obtain ⟨offset, rfl⟩ := Nat.exists_eq_add_of_le hge
    rw [List.getElem?_append_right hge, List.getElem?_append_right hge, Nat.add_sub_cancel_left]
    cases offset with
    | zero => rfl
    | succ offset =>
      rcases Nat.lt_or_ge offset body.length with hlt | hge
      · rw [finalTexts_body hfront hbody hlt] at htext
        exact absurd rfl htext
      · rw [deadBlock, deadBlock, List.getElem?_cons_succ, List.getElem?_cons_succ,
          List.getElem?_append_right hge, List.getElem?_append_right (hlength ▸ hge), hlength]

end Lines
end BracketLint
