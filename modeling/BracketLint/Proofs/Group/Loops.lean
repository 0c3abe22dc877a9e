import BracketLint.Proofs.Group.Outline
import BracketLint.Proofs.Lines.Loops
import BracketLint.Proofs.Lines.Stretches

/-!
The loops of the classification, with the checks of the loops of the cursor. The classification reads
a stretch of the file byte by byte; a loop goes from place to place instead, past a byte, a name or
something in brackets, and may come to stand behind the place where it is to end. It ends all the same,
if that place is in front of the stop, and finds what the classification finds.
-/

namespace BracketLint
open scoped Place

namespace Loop

variable (lines : Lines) {last opened : Place}

section Between

/-- Passes a byte or a name on the way to `last`, and collects the names. -/
def namesRound (last : Place) : List Word × Place → Part (List Word ⊕ List Word × Place)
  | (names, p) => do
    if p < last then
      if Ascii.isWordByte (lines.byteAt p) then
        let name ← nameAfter lines p
        again (names ++ [name], name.behind)
      else again (names, lines.next p)
    else done names

theorem run_namesRound (hlast : last ≤ lines.stop) (names : List Word) (p : Place) :
    run (namesRound lines last) (names, p) =
      Part.some (names ++ lines.namesIn (lines.stretch p last)) := by
  induction p using lines.beyond_induction generalizing names with
  | step p ih =>
    rw [run_eq, namesRound]
    by_cases hlt : p < last
    · have hstop := (lines.isAtStop_eq_false p).mpr (hlt.trans_le hlast)
      rw [if_pos hlt, lines.stretch_of_lt (hlt.trans_le hlast) hlt, Lines.namesIn]
      dsimp only
      split_ifs with hword
      · rw [nameAfter_eq, Part.bind_eq_bind, Part.bind_some, again_bind,
          ih _ hstop (Lines.next_le_behind hword), Lines.drop_stretch_name hword, List.append_assoc,
          List.singleton_append]
      · rw [again_bind, ih _ hstop (le_refl _)]
    · rw [if_neg hlt, done_bind, lines.stretch_of_not_lt fun h => hlt h.2, Lines.namesIn,
        List.append_nil]

/-- The names between two places. -/
def namesBetween (first last : Place) : Part (List Word) := run (namesRound lines last) ([], first)

theorem namesBetween_eq (hlast : last ≤ lines.stop) (first : Place) :
    namesBetween lines first last = Part.some (lines.namesIn (lines.stretch first last)) :=
  run_namesRound lines hlast [] first

/-- Passes a byte on the way to `last` and looks for an assignment outside of brackets, with the
number of open brackets and the byte in front. -/
def assignmentRound (last : Place) : Nat × UInt8 × Place → Part (Bool ⊕ Nat × UInt8 × Place)
  | (depth, before, p) =>
    if p < last then
      let b := lines.byteAt p
      if b == Ascii.openParen || b == Ascii.openBracket then again (depth + 1, b, lines.next p)
      else if b == Ascii.closeParen || b == Ascii.closeBracket then
        again (depth - 1, b, lines.next p)
      else if b == Ascii.equal && depth == 0 &&
          !(before == Ascii.equal || before == Ascii.bang || before == Ascii.less ||
            before == Ascii.greater) &&
          lines.byteAt (lines.next p) != Ascii.equal then done true
      else again (depth, b, lines.next p)
    else done false

theorem run_assignmentRound (hlast : last ≤ lines.stop) (depth : Nat) (before : UInt8)
    (p : Place) : run (assignmentRound lines last) (depth, before, p) =
      Part.some ((lines.stretch p last).holdsAssignment lines depth before) := by
  induction p using lines.ahead_induction generalizing depth before with
  | step p ih =>
    rw [run_eq, assignmentRound]
    by_cases hlt : p < last
    · have hnext := ih ((lines.isAtStop_eq_false p).mpr (hlt.trans_le hlast))
      rw [if_pos hlt, lines.stretch_of_lt (hlt.trans_le hlast) hlt, Stretch.holdsAssignment]
      dsimp only
      split_ifs
      · rw [again_bind, hnext]
      · rw [again_bind, hnext]
      · rw [done_bind]
      · rw [again_bind, hnext]
    · rw [if_neg hlt, done_bind, lines.stretch_of_not_lt fun h => hlt h.2]
      rfl

/-- Whether there is an assignment outside of brackets between two places. -/
def holdsAssignment (first last : Place) : Part Bool :=
  run (assignmentRound lines last) (0, 0, first)

theorem holdsAssignment_eq (hlast : last ≤ lines.stop) (first : Place) :
    holdsAssignment lines first last =
      Part.some ((lines.stretch first last).holdsAssignment lines 0 0) :=
  run_assignmentRound lines hlast 0 0 first

/-- Passes a byte of a qualifier on the way to `last`. -/
def qualifierRound (last p : Place) : Part (Bool ⊕ Place) :=
  if p < last then
    if Stretch.isQualifierByte (lines.byteAt p) then again (lines.next p) else done false
  else done true

theorem run_qualifierRound (hlast : last ≤ lines.stop) (p : Place) :
    run (qualifierRound lines last) p =
      Part.some ((lines.stretch p last).all fun entry => Stretch.isQualifierByte entry.2) := by
  induction p using lines.ahead_induction with
  | step p ih =>
    rw [run_eq, qualifierRound]
    by_cases hlt : p < last
    · have hnext := ih ((lines.isAtStop_eq_false p).mpr (hlt.trans_le hlast))
      rw [if_pos hlt, lines.stretch_of_lt (hlt.trans_le hlast) hlt, List.all_cons]
      split_ifs with hbyte
      · rw [again_bind, hnext, hbyte, Bool.true_and]
      · rw [done_bind, Bool.eq_false_iff.mpr hbyte, Bool.false_and]
    · rw [if_neg hlt, done_bind, lines.stretch_of_not_lt fun h => hlt h.2, List.all_nil]

end Between

section Balanced

/-- Passes a byte on the way to the bracket that closes those open; a semicolon, a brace or the stop
ends the search. The count of brackets is decremented at each one that closes. -/
def bracketRound (opener closer : UInt8) : Nat × Place → Part (Option Place ⊕ Nat × Place)
  | (depth, p) => do
    if lines.isAtStop p = false then
      let b := lines.byteAt p
      if b == opener then again (depth + 1, lines.next p)
      else if b == closer then
        let depth ← decrement? depth
        if depth == 0 then done (some (lines.next p)) else again (depth, lines.next p)
      else if b == Ascii.semicolon || b == Ascii.openBrace || b == Ascii.closeBrace then done none
      else again (depth, lines.next p)
    else done none

/-- The place behind something in brackets that may stand behind the blanks at a position. -/
def skipBalanced (opener closer : UInt8) (p : Place) : Part (Option Place) := do
  let first ← skipSpaceForward lines p
  if lines.byteAt first == opener then run (bracketRound lines opener closer) (0, first)
  else return some first

variable {lines} {opener closer : UInt8} {depth : Nat} {p : Place}

/-- With a bracket open the search ends, in front of any place of the walk where it has to end. It
finds what is found in the stretch up to there. -/
theorem exists_run_bracketRound (hlast : lines.IsCanonical last)
    (hend : ∀ depth, run (bracketRound lines opener closer) (depth, last) = Part.some none)
    (hdepth : 0 < depth) (hle : p ≤ last) :
    ∃ found, run (bracketRound lines opener closer) (depth, p) = Part.some found ∧
      (lines.stretch p last).closeBrackets opener closer depth =
        found.map (lines.stretch · last) ∧ ∀ q ∈ found, p ≤ q := by
  induction p using lines.ahead_induction generalizing depth with
  | step p ih =>
    rcases hle.eq_or_lt with rfl | hlt
    · refine ⟨none, hend depth, ?_, fun q hq => by cases hq⟩
      rw [lines.stretch_of_not_lt fun h => lt_irrefl _ h.2]
      rfl
    have hstop : p < lines.stop := hlt.trans_le hlast.le_stop
    have hnext : lines.next p ≤ last := Lines.next_le_of_lt hstop hlast hlt
    have hlater {depth : Nat} (hdepth : 0 < depth) :
        ∃ found, run (bracketRound lines opener closer) (depth, lines.next p) = Part.some found ∧
          (lines.stretch (lines.next p) last).closeBrackets opener closer depth =
            found.map (lines.stretch · last) ∧ ∀ q ∈ found, p ≤ q := by
      obtain ⟨found, hfound, hstretch, hq⟩ :=
        ih ((lines.isAtStop_eq_false p).mpr hstop) hdepth hnext
      exact ⟨found, hfound, hstretch, fun q hmem =>
        (lines.lt_next hstop).le.trans (hq q hmem)⟩
    rw [run_eq, bracketRound, if_pos ((lines.isAtStop_eq_false p).mpr hstop),
      lines.stretch_of_lt hstop hlt, Stretch.closeBrackets]
    dsimp only
    split_ifs with hopener hcloser hone hbreak
    · rw [again_bind]
      exact hlater (Nat.succ_pos depth)
    · rw [decrement?_of_pos hdepth, Part.bind_eq_bind, Part.bind_some, if_pos hone, done_bind]
      refine ⟨_, rfl, rfl, ?_⟩
      rintro q ⟨⟩
      exact (lines.lt_next hstop).le
    · rw [decrement?_of_pos hdepth, Part.bind_eq_bind, Part.bind_some, if_neg hone, again_bind]
      exact hlater (Nat.pos_of_ne_zero fun hzero => hone (beq_iff_eq.mpr hzero))
    · rw [done_bind]
      exact ⟨none, rfl, rfl, fun q hq => by cases hq⟩
    · rw [again_bind]
      exact hlater hdepth

theorem run_bracketRound_of_stop_le (h : lines.stop ≤ p) :
    run (bracketRound lines opener closer) (depth, p) = Part.some none := by
  have hstop : ¬lines.isAtStop p = false := by
    rw [Lines.isAtStop_eq_false]
    exact not_lt.mpr h
  rw [run_eq, bracketRound, if_neg hstop, done_bind]

theorem run_bracketRound_of_openBrace (hopened : lines.byteAt opened = Ascii.openBrace)
    (hopener : opener ≠ Ascii.openBrace) (hcloser : closer ≠ Ascii.openBrace) :
    run (bracketRound lines opener closer) (depth, opened) = Part.some none := by
  have hstop : opened < lines.stop := Lines.lt_stop_of_not_space (by rw [hopened]; rfl)
  rw [run_eq, bracketRound, if_pos ((lines.isAtStop_eq_false opened).mpr hstop), hopened]
  dsimp only
  rw [if_neg fun h => hopener (beq_iff_eq.mp h).symm,
    if_neg fun h => hcloser (beq_iff_eq.mp h).symm, if_pos (by decide), done_bind]

/-- With a bracket open the search ends wherever it starts. -/
theorem exists_run_bracketRound_of_pos (hdepth : 0 < depth) (p : Place) :
    ∃ found, run (bracketRound lines opener closer) (depth, p) = Part.some found ∧
      ∀ q ∈ found, p ≤ q := by
  by_cases hle : p ≤ lines.stop
  · obtain ⟨found, hfound, -, hq⟩ := exists_run_bracketRound lines.isCanonical_stop
      (fun _ => run_bracketRound_of_stop_le (le_refl lines.stop)) hdepth hle
    exact ⟨found, hfound, hq⟩
  · exact ⟨none, run_bracketRound_of_stop_le (not_le.mp hle).le, fun q hq => by cases hq⟩

/-- The search starts with no bracket open, but at one that opens. -/
theorem run_bracketRound_zero (hstop : p < lines.stop) (hopener : lines.byteAt p = opener) :
    run (bracketRound lines opener closer) (0, p) =
      run (bracketRound lines opener closer) (1, lines.next p) := by
  rw [run_eq, bracketRound, if_pos ((lines.isAtStop_eq_false p).mpr hstop)]
  dsimp only
  rw [if_pos (beq_iff_eq.mpr hopener), again_bind]

variable (lines opener closer) in
theorem exists_skipBalanced (p : Place) :
    ∃ found, skipBalanced lines opener closer p = Part.some found ∧ ∀ q ∈ found, p ≤ q := by
  rw [skipBalanced, skipSpaceForward_eq, Part.bind_eq_bind, Part.bind_some]
  have hfirst : p ≤ lines.skipSpaceForward p := lines.le_skipSpaceForward p
  generalize lines.skipSpaceForward p = first at hfirst ⊢
  split_ifs with hopener
  · by_cases hstop : first < lines.stop
    · rw [run_bracketRound_zero hstop (beq_iff_eq.mp hopener)]
      obtain ⟨found, hfound, hq⟩ := exists_run_bracketRound_of_pos Nat.one_pos (lines.next first)
      exact ⟨found, hfound, fun q hmem =>
        hfirst.trans ((lines.lt_next hstop).le.trans (hq q hmem))⟩
    · exact ⟨none, run_bracketRound_of_stop_le (not_lt.mp hstop), fun q hq => by cases hq⟩
  · refine ⟨_, rfl, ?_⟩
    rintro q ⟨⟩
    exact hfirst

/-- Where a bracket opens, the search goes on behind it. -/
theorem skipBalanced_of_byteAt (hcode : Lines.isCursorSpace opener = false)
    (hopener : lines.byteAt p = opener) : skipBalanced lines opener closer p =
      run (bracketRound lines opener closer) (1, lines.next p) := by
  have hspace : Lines.isCursorSpace (lines.byteAt p) = false := by rw [hopener, hcode]
  rw [skipBalanced, skipSpaceForward_eq, Lines.skipSpaceForward_of_not_space hspace,
    Part.bind_eq_bind, Part.bind_some, if_pos (beq_iff_eq.mpr hopener),
    run_bracketRound_zero (Lines.lt_stop_of_not_space hspace) hopener]

/-- In front of a brace, an argument in parentheses is passed as it is in the stretch up to the
brace. -/
theorem exists_skipArgument (hopened : lines.byteAt opened = Ascii.openBrace) (hle : p ≤ opened) :
    ∃ found, skipBalanced lines Ascii.openParen Ascii.closeParen p = Part.some found ∧
      (lines.stretch p opened).skipArgument = found.map (lines.stretch · opened) ∧
        ∀ q ∈ found, p ≤ q := by
  have hcode : Lines.isCursorSpace (lines.byteAt opened) = false := by rw [hopened]; rfl
  have hcanonical := Lines.isCanonical_of_not_space hcode
  rw [skipBalanced, skipSpaceForward_eq, Part.bind_eq_bind, Part.bind_some, Stretch.skipArgument,
    Lines.skipSpace_stretch hcode hle]
  have hfirst : p ≤ lines.skipSpaceForward p := lines.le_skipSpaceForward p
  have hlast : lines.skipSpaceForward p ≤ opened := Lines.skipSpaceForward_le hcode hle
  generalize lines.skipSpaceForward p = first at hfirst hlast ⊢
  rcases hlast.eq_or_lt with rfl | hlt
  · have hempty : lines.stretch first first = [] := lines.stretch_of_not_lt fun h => lt_irrefl _ h.2
    rw [if_neg (by rw [hopened]; decide), hempty]
    refine ⟨_, rfl, (congrArg some hempty).symm, ?_⟩
    rintro q ⟨⟩
    exact hfirst
  have hstop : first < lines.stop := hlt.trans_le hcanonical.le_stop
  have hstretch := lines.stretch_of_lt hstop hlt
  rw [hstretch]
  dsimp only
  split_ifs with hparen
  · rw [run_bracketRound_zero hstop (beq_iff_eq.mp hparen)]
    have hend (depth : Nat) :
        run (bracketRound lines Ascii.openParen Ascii.closeParen) (depth, opened) =
          Part.some none :=
      run_bracketRound_of_openBrace hopened (by decide) (by decide)
    obtain ⟨found, hfound, heq, hq⟩ := exists_run_bracketRound hcanonical hend Nat.one_pos
      (Lines.next_le_of_lt hstop hcanonical hlt)
    exact ⟨found, hfound, heq, fun q hmem =>
      hfirst.trans ((lines.lt_next hstop).le.trans (hq q hmem))⟩
  · refine ⟨_, rfl, (congrArg some hstretch).symm, ?_⟩
    rintro q ⟨⟩
    exact hfirst

end Balanced

section ClassHead

/-- Passes a leading word of a head, or `template` with its list of parameters. -/
def keyRound (opened : Place) (word : Word) : Part (Option Word ⊕ Word) := do
  if ClassHead.leadingWords.contains word.text then
    let following ← nameAfter lines word.behind
    if opened ≤ following.place then done none else again following
  else if word.text == "template" then
    let following ← templateNameAfter lines word.behind
    if opened ≤ following.place then done none else again following
  else done (some word)

/-- Passes a byte, a word or something in brackets behind the class key, and keeps the last name. -/
def headRound (opened : Place) :
    Option String × Place → Part (Option (Option String) ⊕ Option String × Place)
  | (name, p) => do
    if p < opened then
      let b := lines.byteAt p
      if Ascii.isWordByte b then
        let word ← nameAfter lines p
        if ClassHead.attributeWords.contains word.text then
          match ← skipBalanced lines Ascii.openParen Ascii.closeParen word.behind with
          | none => done none
          | some behind => again (name, behind)
        else if ClassHead.closingWords.contains word.text then again (name, word.behind)
        else again (some word.text, word.behind)
      else if b == Ascii.colon then
        if lines.byteAt (lines.next p) == Ascii.colon then
          again (name, lines.next (lines.next p))
        else done (some name)
      else if b == Ascii.less then
        match ← skipBalanced lines Ascii.less Ascii.greater p with
        | none => done none
        | some behind => again (name, behind)
      else if b == Ascii.openParen || b == Ascii.closeParen || b == Ascii.equal ||
          b == Ascii.semicolon || b == Ascii.star || b == Ascii.ampersand then done none
      else again (name, lines.next p)
    else done (some name)

/-- The name in the class head between the start of a statement and an opening bracket. -/
def classHead (start opened : Place) : Part (Option (Option String)) := do
  match ← run (keyRound lines opened) (← nameAfter lines start) with
  | none => return none
  | some word =>
    if ClassHead.classKeys.contains word.text then run (headRound lines opened) (none, word.behind)
    else return none

variable {lines} {p q : Place} {word following : Word}

section Key

variable (hopened : opened ≤ lines.stop)
include hopened

/-- A word that is read behind another one, in front of a bracket, leaves less up to the bracket. -/
theorem length_stretch_following (hword : word.text ≠ "")
    (hfollowing : (∃ q, word.behind ≤ q ∧ following = lines.nameAfter q) ∨
      following = ⟨"", lines.stop⟩) (hlt : following.place < opened) :
    (lines.stretch following.place opened).length <
      (lines.stretch word.place opened).length := by
  rcases hfollowing with ⟨q, hbehind, rfl⟩ | rfl
  · rw [lines.place_nameAfter] at hlt ⊢
    refine Lines.length_stretch_lt hopened ?_ hlt
      (Lines.byteAt_skipSpaceForward (hlt.trans_le hopened))
    exact (word.place_lt_behind hword).trans_le (hbehind.trans (lines.le_skipSpaceForward q))
  · exact absurd hlt (not_lt.mpr hopened)

/-- In front of a bracket the loop finds the same word as the search with a limit on its steps. -/
theorem run_keyRound {steps : Nat} (hword : word.text ≠ "" → word.place < opened)
    (hsteps : (lines.stretch word.place opened).length ≤ steps) :
    run (keyRound lines opened) word =
      Part.some (ClassHead.keyFrom lines opened steps word) := by
  induction steps generalizing word with
  | zero =>
    have htext : word.text = "" := by
      by_contra hne
      have hlt := hword hne
      rw [lines.stretch_of_lt (hlt.trans_le hopened) hlt] at hsteps
      exact absurd hsteps (Nat.not_succ_le_zero _)
    rw [run_eq, keyRound, htext, if_neg (by decide), if_neg (by decide), done_bind]
    rfl
  | succ steps ih =>
    have hlater {following : Word} (hne : word.text ≠ "")
        (hfollowing : (∃ q, word.behind ≤ q ∧ following = lines.nameAfter q) ∨
          following = ⟨"", lines.stop⟩) (hlt : ¬opened ≤ following.place) :
        run (keyRound lines opened) following =
          Part.some (ClassHead.keyFrom lines opened steps following) := by
      have hshorter := length_stretch_following hopened hne hfollowing (not_le.mp hlt)
      exact ih (fun _ => not_le.mp hlt) (by omega)
    rw [run_eq, keyRound, ClassHead.keyFrom]
    simp only [nameAfter_eq, templateNameAfter_eq, Part.bind_eq_bind, Part.bind_some]
    split_ifs with hleading hbehind htemplate hbehind
    · rw [done_bind]
    · have hne : word.text ≠ "" := by
        intro hempty
        rw [hempty] at hleading
        exact absurd hleading (by decide)
      rw [again_bind, hlater hne (.inl ⟨_, le_refl _, rfl⟩) hbehind]
    · rw [done_bind]
    · have hne : word.text ≠ "" := by
        rw [beq_iff_eq.mp htemplate]
        decide
      rw [again_bind, hlater hne (Lines.templateNameAfter_cases _) hbehind]
    · rw [done_bind]

/-- The loop finds a word, or that there is none, also behind the bracket. -/
theorem exists_run_keyRound (word : Word) :
    ∃ key, run (keyRound lines opened) word = Part.some key := by
  by_cases hword : word.text ≠ "" → word.place < opened
  · exact ⟨_, run_keyRound hopened hword (le_refl _)⟩
  obtain ⟨hne, hplace⟩ := Classical.not_imp.mp hword
  have hbehind : opened ≤ word.behind := (not_lt.mp hplace).trans word.place_le_behind
  have hlater {following : Word} (hfollowing :
      (∃ q, word.behind ≤ q ∧ following = lines.nameAfter q) ∨
        following = ⟨"", lines.stop⟩) : opened ≤ following.place := by
    rcases hfollowing with ⟨q, hle, rfl⟩ | rfl
    · rw [lines.place_nameAfter]
      exact hbehind.trans (hle.trans (lines.le_skipSpaceForward q))
    · exact hopened
  rw [run_eq, keyRound]
  simp only [nameAfter_eq, templateNameAfter_eq, Part.bind_eq_bind, Part.bind_some]
  rw [if_pos (hlater (.inl ⟨_, le_refl _, rfl⟩)),
    if_pos (hlater (Lines.templateNameAfter_cases _))]
  split_ifs
  all_goals
    rw [done_bind]
    exact ⟨_, rfl⟩

end Key

section Name

theorem exists_run_headRound (hopened : opened ≤ lines.stop) (name : Option String) (p : Place) :
    ∃ found, run (headRound lines opened) (name, p) = Part.some found := by
  induction p using lines.beyond_induction generalizing name with
  | step p ih =>
    rw [run_eq, headRound]
    by_cases hlt : p < opened
    · have hstop := (lines.isAtStop_eq_false p).mpr (hlt.trans_le hopened)
      rw [if_pos hlt]
      dsimp only
      split_ifs with hword hcolon hcolons hless hbreak
      · rw [nameAfter_eq, Part.bind_eq_bind, Part.bind_some]
        have hbehind := Lines.next_le_behind hword
        split_ifs
        · obtain ⟨found, hfound, hq⟩ := exists_skipBalanced lines Ascii.openParen Ascii.closeParen
            (lines.nameAfter p).behind
          rw [hfound, Part.bind_eq_bind, Part.bind_some]
          cases found with
          | none => exact ⟨_, done_bind _ _⟩
          | some q =>
            rw [again_bind]
            exact ih q hstop (hbehind.trans (hq q rfl)) name
        · rw [again_bind]
          exact ih _ hstop hbehind _
        · rw [again_bind]
          exact ih _ hstop hbehind _
      · have hnext : lines.next p < lines.stop :=
          Lines.lt_stop_of_not_space (by rw [beq_iff_eq.mp hcolons]; rfl)
        rw [again_bind]
        exact ih _ hstop (lines.lt_next hnext).le _
      · exact ⟨_, done_bind _ _⟩
      · rw [skipBalanced_of_byteAt rfl (beq_iff_eq.mp hless)]
        obtain ⟨found, hfound, hq⟩ := exists_run_bracketRound_of_pos Nat.one_pos (lines.next p)
        rw [hfound, Part.bind_eq_bind, Part.bind_some]
        cases found with
        | none => exact ⟨_, done_bind _ _⟩
        | some q =>
          rw [again_bind]
          exact ih q hstop (hq q rfl) name
      · exact ⟨_, done_bind _ _⟩
      · rw [again_bind]
        exact ih _ hstop (le_refl _) _
    · rw [if_neg hlt]
      exact ⟨_, done_bind _ _⟩

/-- In front of a brace the loop finds the name that is found in the stretch up to the brace. -/
theorem run_headRound (hopened : lines.byteAt opened = Ascii.openBrace) (name : Option String)
    (p : Place) : run (headRound lines opened) (name, p) =
      Part.some (ClassHead.nameFrom lines name (lines.stretch p opened)) := by
  have hcode : Lines.isCursorSpace (lines.byteAt opened) = false := by rw [hopened]; rfl
  have hcanonical := Lines.isCanonical_of_not_space hcode
  induction p using lines.beyond_induction generalizing name with
  | step p ih =>
    rw [run_eq, headRound]
    by_cases hlt : p < opened
    swap
    · rw [if_neg hlt, done_bind, lines.stretch_of_not_lt fun h => hlt h.2, ClassHead.nameFrom]
    have hstop : p < lines.stop := hlt.trans_le hcanonical.le_stop
    have hnext : lines.next p ≤ opened := Lines.next_le_of_lt hstop hcanonical hlt
    replace ih {q : Place} (name : Option String) (hq : lines.next p ≤ q) :=
      ih q ((lines.isAtStop_eq_false p).mpr hstop) hq name
    have hbehind (hword : Ascii.isWordByte (lines.byteAt p) = true) :
        (lines.nameAfter p).behind ≤ opened := by
      rw [Word.behind, lines.length_text_nameAfter]
      exact Lines.behind_nameAfter_le (Lines.stops_of_openBrace hopened) hlt.le
    rw [if_pos hlt, lines.stretch_of_lt hstop hlt, ClassHead.nameFrom.eq_def]
    dsimp only
    split_ifs with hword hattribute hclosing hcolon hcolons hless hbreak
    · obtain ⟨found, hfound, hstretch, hq⟩ := exists_skipArgument hopened (hbehind hword)
      rw [nameAfter_eq, Part.bind_eq_bind, Part.bind_some, if_pos hattribute, hfound,
        Part.bind_eq_bind, Part.bind_some, Lines.drop_stretch_name hword, hstretch]
      cases found with
      | none =>
        rw [done_bind]
        rfl
      | some q =>
        rw [again_bind, ih name ((Lines.next_le_behind hword).trans (hq q rfl))]
        rfl
    · rw [nameAfter_eq, Part.bind_eq_bind, Part.bind_some, if_neg hattribute, if_pos hclosing,
        again_bind, Lines.drop_stretch_name hword]
      exact ih name (Lines.next_le_behind hword)
    · rw [nameAfter_eq, Part.bind_eq_bind, Part.bind_some, if_neg hattribute, if_neg hclosing,
        again_bind, Lines.drop_stretch_name hword]
      exact ih _ (Lines.next_le_behind hword)
    · -- The brace is no colon, so both colons stand in front of it.
      have hlt' : lines.next p < opened := by
        refine lt_of_le_of_ne hnext fun heq => ?_
        rw [heq, hopened] at hcolons
        exact absurd hcolons (by decide)
      have hstop' : lines.next p < lines.stop := hlt'.trans_le hcanonical.le_stop
      rw [again_bind, lines.stretch_of_lt hstop' hlt']
      dsimp only
      rw [if_pos hcolons]
      exact ih name (lines.lt_next hstop').le
    · rw [done_bind]
      rcases hnext.eq_or_lt with heq | hlt'
      · rw [heq, lines.stretch_of_not_lt fun h => lt_irrefl _ h.2]
      · rw [lines.stretch_of_lt (hlt'.trans_le hcanonical.le_stop) hlt']
        dsimp only
        rw [if_neg hcolons]
    · have hend (depth : Nat) :
          run (bracketRound lines Ascii.less Ascii.greater) (depth, opened) = Part.some none :=
        run_bracketRound_of_openBrace hopened (by decide) (by decide)
      obtain ⟨found, hfound, hstretch, hq⟩ :=
        exists_run_bracketRound hcanonical hend Nat.one_pos hnext
      rw [skipBalanced_of_byteAt rfl (beq_iff_eq.mp hless), hfound, Part.bind_eq_bind,
        Part.bind_some, hstretch]
      cases found with
      | none =>
        rw [done_bind]
        rfl
      | some q =>
        rw [again_bind, ih name (hq q rfl)]
        rfl
    · rw [done_bind]
    · rw [again_bind, ih name (le_refl _)]

end Name

section Head

theorem exists_classHead (hopened : opened ≤ lines.stop) (start : Place) :
    ∃ name, classHead lines start opened = Part.some name := by
  obtain ⟨key, hkey⟩ := exists_run_keyRound hopened (lines.nameAfter start)
  rw [classHead, nameAfter_eq, Part.bind_eq_bind, Part.bind_some, hkey, Part.bind_eq_bind,
    Part.bind_some]
  cases key with
  | none => exact ⟨_, rfl⟩
  | some word =>
    dsimp only
    split_ifs
    · exact exists_run_headRound hopened none word.behind
    · exact ⟨_, rfl⟩

/-- The loops in the head of a class find its name. -/
theorem classHead_eq (hopened : lines.byteAt opened = Ascii.openBrace) {start : Place}
    (hle : start ≤ opened) :
    classHead lines start opened = Part.some (ClassHead.name? lines start opened) := by
  have hstops := Lines.stops_of_openBrace hopened
  have hstop : opened ≤ lines.stop := (Lines.lt_stop_of_not_space hstops.not_space).le
  have hword (htext : (lines.nameAfter start).text ≠ "") :
      (lines.nameAfter start).place < opened := by
    refine (Word.place_lt_behind _ htext).trans_le ?_
    rw [Word.behind, lines.length_text_nameAfter]
    exact Lines.behind_nameAfter_le hstops hle
  have hsteps : (lines.stretch (lines.nameAfter start).place opened).length ≤
      (lines.stretch start opened).length := by
    rw [lines.place_nameAfter, ← Lines.skipSpace_stretch hstops.not_space hle]
    exact (List.dropWhile_suffix _).length_le
  rw [classHead, nameAfter_eq, Part.bind_eq_bind, Part.bind_some, run_keyRound hstop hword hsteps,
    Part.bind_eq_bind, Part.bind_some, ClassHead.name?]
  cases ClassHead.keyFrom lines opened (lines.stretch start opened).length (lines.nameAfter start) with
  | none => rfl
  | some word =>
    dsimp only
    split_ifs
    · exact run_headRound hopened none word.behind
    · rfl

end Head
end ClassHead

section Definition

/-- The group with a number, which has to be in the tree. -/
def entry (tree : GroupTree) (id : Nat) : Part Group := Part.ofOption (tree.group? id)

theorem entry_eq {tree : GroupTree} {id : Nat} {group : Group}
    (h : tree.group? id = some group) : entry tree id = Part.some group := by
  rw [entry, h]
  rfl

/-- The group right behind another one among those side by side with it. -/
def nextSibling (tree : GroupTree) (id : Nat) : Part (Option Nat) := do
  match (← entry tree id).parent with
  | none => return none
  | some parent => return ((← entry tree parent).children.dropWhile (· != id)).tail.head?

/-- Whether a group in braces follows some parentheses with only qualifiers in between. -/
def opensDefinition (tree : GroupTree) (id : Nat) : Part Bool := do
  match ← nextSibling tree id with
  | none => return false
  | some next =>
    let body ← entry tree next
    if body.shape == .paren then return false
    else run (qualifierRound lines body.opened) (lines.next (← entry tree id).closed)

variable {lines} {tree : GroupTree} {id : Nat} (hnested : tree.WellNested lines)
include hnested

theorem exists_group_of_nextSibling? {next : Nat} (hnext : tree.nextSibling? id = some next) :
    ∃ body, tree.group? next = some body := by
  obtain ⟨parent, hparent, hhead⟩ := Option.bind_eq_some_iff.mp hnext
  have hmem : next ∈ tree.children parent :=
    (List.dropWhile_sublist _).subset (List.mem_of_mem_tail (List.mem_of_head? hhead))
  obtain ⟨-, -, body, -, hbody, -⟩ :=
    hnested.exists_of_parent? ((hnested.mem_children next parent).mp hmem)
  exact ⟨body, hbody⟩

variable {group : Group} (hgroup : tree.group? id = some group)
include hgroup

theorem nextSibling_eq : nextSibling tree id = Part.some (tree.nextSibling? id) := by
  have hparent := GroupTree.parent?_eq hgroup
  rw [nextSibling, GroupTree.nextSibling?, entry_eq hgroup, hparent, Part.bind_eq_bind,
    Part.bind_some]
  cases hfield : group.parent with
  | none => rfl
  | some parent =>
    rw [hfield] at hparent
    obtain ⟨-, -, -, around, -, haround, -⟩ := hnested.exists_of_parent? hparent
    dsimp only
    rw [entry_eq haround, Part.bind_eq_bind, Part.bind_some, Option.bind_some,
      GroupTree.children_eq haround]
    rfl

theorem opensDefinition_eq
    (hstop : ∀ id group, tree.group? id = some group → group.opened ≤ lines.stop) :
    opensDefinition lines tree id = Part.some (Verdict.opensDefinition lines tree id group) := by
  rw [opensDefinition, Verdict.opensDefinition, nextSibling_eq hnested hgroup, Part.bind_eq_bind,
    Part.bind_some]
  cases hnext : tree.nextSibling? id with
  | none => rfl
  | some next =>
    obtain ⟨body, hbody⟩ := exists_group_of_nextSibling? hnested hnext
    rw [Option.bind_some, hbody]
    dsimp only
    rw [entry_eq hbody, Part.bind_eq_bind, Part.bind_some]
    cases body.shape with
    | paren => rfl
    | brace =>
      rw [if_neg (by decide), entry_eq hgroup, Part.bind_eq_bind, Part.bind_some,
        run_qualifierRound lines (hstop next body hbody)]
      rfl

end Definition
end Loop
end BracketLint
