import BracketLint.Proofs.Group.Anchors
import BracketLint.Proofs.Group.Roles
import BracketLint.Proofs.Lines.Quotes
import BracketLint.Proofs.Lines.Stretches

/-!
The names of classes, namespaces and enumerations. A name is read in the statement in front of its
brace, or it is the literal of a linkage block and is cut out of the line as it was written. The literal
is cut out at whatever quote stands in front of the brace: if that quote starts a literal that is
nowhere closed, what lies between two literals is taken for the name.
-/

namespace BracketLint
open scoped Place

namespace Lines

/-- Whether the scrubbed text of a line reads something between two positions. -/
def ReadsBetween (lines : Lines) (text : Bytes) (first last : Place) : Prop :=
  ∃ line column, first ≤ .on line column ∧ .on line (column + text.length) ≤ last ∧
    text <+: (lines.text line).drop column

variable {lines : Lines} {start opened p : Place}

/-- Names are read behind the place where they are looked for, and in front of a bracket. -/
theorem readsBetween_nameAfter (hopened : lines.Stops opened) (hstart : start ≤ p)
    (hp : p ≤ opened) :
    lines.ReadsBetween (Bytes.ofString (lines.nameAfter p).text) start opened := by
  have hplace : (lines.nameAfter p).place = lines.skipSpaceForward p := lines.place_nameAfter p
  have hfirst : lines.skipSpaceForward p ≤ opened := skipSpaceForward_le hopened.not_space hp
  obtain ⟨line, column, heq, -, -⟩ := exists_of_not_space
    (byteAt_skipSpaceForward (hfirst.trans_lt (lt_stop_of_not_space hopened.not_space)))
  have hbehind := behind_nameAfter_le hopened hp
  have hspells := lines.spells_nameAfter p
  rw [hplace, heq] at hbehind
  rw [Spells, hplace, heq] at hspells
  refine ⟨line, column, ?_, hbehind, hspells⟩
  rw [← heq]
  exact hstart.trans (lines.le_skipSpaceForward p)

/-- Whether a word is a name that starts at a byte of a stretch. -/
def HoldsName (lines : Lines) (stretch : Stretch) (word : Word) : Prop :=
  ∃ entry ∈ stretch, Ascii.isWordByte entry.2 = true ∧ word = lines.nameAfter entry.1

variable {stretch rest : Stretch} {word : Word}

theorem HoldsName.mono (h : lines.HoldsName rest word) (hsuffix : rest <:+ stretch) :
    lines.HoldsName stretch word := by
  obtain ⟨entry, hentry, hname⟩ := h
  exact ⟨entry, hsuffix.subset hentry, hname⟩

theorem holdsName_of_mem_namesIn (h : word ∈ lines.namesIn stretch) :
    lines.HoldsName stretch word := by
  fun_induction namesIn lines stretch with
  | case1 => cases h
  | case2 p b rest hword name ih =>
    -- The search goes on behind this name, in a suffix of the stretch.
    rcases List.mem_cons.mp h with rfl | h
    · exact ⟨_, List.mem_cons_self, hword, rfl⟩
    · exact (ih h).mono ((List.drop_suffix _ _).trans (List.suffix_cons _ _))
  | case3 p b rest hword ih => exact (ih h).mono (List.suffix_cons _ _)

/-- Names of a stretch in front of a bracket are read there, and each stands where it starts. -/
theorem HoldsName.reads (hopened : lines.Stops opened) (hstart : start ≤ p)
    (h : lines.HoldsName (lines.stretch p opened) word) :
    word.text ≠ "" ∧ start ≤ word.place ∧ word.behind ≤ opened ∧
      lines.ReadsBetween (Bytes.ofString word.text) start opened := by
  obtain ⟨entry, hentry, hword, rfl⟩ := h
  obtain ⟨hge, -, hlt, hbyte⟩ := lines.mem_stretch p opened entry hentry
  rw [hbyte] at hword
  obtain ⟨htext, hplace⟩ := nameAfter_of_isWordByte hword
  refine ⟨htext, ?_, ?_, readsBetween_nameAfter hopened (hstart.trans hge) hlt.le⟩
  · rw [hplace]
    exact hstart.trans hge
  · rw [Word.behind, lines.length_text_nameAfter]
    exact behind_nameAfter_le hopened hlt.le

end Lines

namespace Stretch

theorem suffix_closeBrackets {opener closer : UInt8} {depth : Nat} {stretch rest : Stretch}
    (h : closeBrackets opener closer depth stretch = some rest) : rest <:+ stretch := by
  induction stretch generalizing depth with
  | nil => cases h
  | cons entry stretch ih =>
    have hbehind := List.suffix_cons entry stretch
    rw [closeBrackets] at h
    split_ifs at h
    · exact (ih h).trans hbehind
    · cases h
      exact hbehind
    · exact (ih h).trans hbehind
    · exact (ih h).trans hbehind

theorem suffix_skipArgument {stretch rest : Stretch} (h : skipArgument stretch = some rest) :
    rest <:+ stretch := by
  have hskip : skipSpace stretch <:+ stretch := List.dropWhile_suffix _
  rw [skipArgument] at h
  split at h
  · cases h
    exact List.nil_suffix
  · next p b rest' heq =>
    rw [heq] at hskip
    split_ifs at h
    · exact (suffix_closeBrackets h).trans ((List.suffix_cons _ _).trans hskip)
    · cases h
      exact hskip

end Stretch

namespace ClassHead

variable {lines : Lines} {start opened : Place}

/-- The name of a class is one of the names behind its key. -/
theorem holdsName_of_nameFrom {name : Option String} {stretch : Stretch} {found : String}
    (h : nameFrom lines name stretch = some (some found)) :
    name = some found ∨ ∃ word, lines.HoldsName stretch word ∧ word.text = found := by
  have hlater {name : Option String} {stretch rest : Stretch} (hsuffix : rest <:+ stretch)
      (hfound : name = some found ∨ ∃ word, lines.HoldsName rest word ∧ word.text = found) :
      name = some found ∨ ∃ word, lines.HoldsName stretch word ∧ word.text = found := by
    rcases hfound with hhere | ⟨word, hword, heq⟩
    · exact .inl hhere
    · exact .inr ⟨word, hword.mono hsuffix, heq⟩
  have hdrop (entry : Place × UInt8) (rest : Stretch) (n : Nat) : rest.drop n <:+ entry :: rest :=
    (List.drop_suffix n rest).trans (List.suffix_cons _ _)
  fun_induction nameFrom lines name stretch
  case case1 | case6 | case8 => exact .inl (Option.some.inj h)
  case case2 | case9 | case11 => cases h
  case case3 p b rest _ word _ _ hskip ih =>
    exact hlater ((Stretch.suffix_skipArgument hskip).trans (hdrop _ _ _)) (ih h)
  case case4 ih => exact hlater (hdrop _ _ _) (ih h)
  case case5 p b rest hword _ _ _ ih =>
    -- The name here counts unless there is one behind it.
    refine .inr ?_
    rcases hlater (hdrop (p, b) rest _) (ih h) with hhere | hlast
    · exact ⟨lines.nameAfter p, ⟨_, List.mem_cons_self, hword, rfl⟩, Option.some.inj hhere⟩
    · exact hlast
  case case7 ih =>
    exact hlater ((List.suffix_cons _ _).trans (List.suffix_cons _ _)) (ih h)
  case case10 hclose ih =>
    exact hlater ((Stretch.suffix_closeBrackets hclose).trans (List.suffix_cons _ _)) (ih h)
  case case12 ih => exact hlater (List.suffix_cons _ _) (ih h)

/-- The key of a class stands behind the start of its statement. -/
theorem le_place_keyFrom {steps : Nat} {word key : Word} (hopened : opened < lines.stop)
    (h : keyFrom lines opened steps word = some key) : word.place ≤ key.place := by
  -- Each step goes to a word behind the one before.
  induction steps generalizing word with
  | zero =>
    cases h
    exact le_refl _
  | succ steps ih =>
    rw [keyFrom] at h
    dsimp only at h
    split_ifs at h with hleading hbehind htemplate hbehind
    · refine word.place_le_behind.trans (le_trans ?_ (ih h))
      rw [lines.place_nameAfter]
      exact lines.le_skipSpaceForward _
    · refine word.place_le_behind.trans (le_trans ?_ (ih h))
      exact lines.le_place_templateNameAfter ((not_le.mp hbehind).trans hopened)
    · cases h
      exact le_refl _

/-- The name in a class head is read between the start of the statement and the brace. -/
theorem readsBetween_of_name? (hopened : lines.Stops opened) {found : String}
    (h : name? lines start opened = some (some found)) :
    found ≠ "" ∧ lines.ReadsBetween (Bytes.ofString found) start opened := by
  rw [name?] at h
  split at h
  · cases h
  next key hkey =>
  split_ifs at h
  -- The search starts behind the key and with no name.
  rcases holdsName_of_nameFrom h with hnone | ⟨word, hword, rfl⟩
  · cases hnone
  have hstart : start ≤ (lines.nameAfter start).place := by
    rw [lines.place_nameAfter]
    exact lines.le_skipSpaceForward start
  have hbehind : start ≤ key.behind :=
    (hstart.trans (le_place_keyFrom (Lines.lt_stop_of_not_space hopened.not_space) hkey)).trans
      key.place_le_behind
  obtain ⟨htext, -, -, hreads⟩ := hword.reads hopened hbehind
  exact ⟨htext, hreads⟩

end ClassHead

namespace GroupKind

/-- The roles that only braces have. -/
def braceKinds : List GroupKind :=
  [.initializer, .classBody, .codeBody, .namespaceBody, .enumBody, .routineBody]

/-- The roles of the groups that can have a name. -/
def namedKinds : List GroupKind := [.classBody, .namespaceBody, .enumBody]

end GroupKind

namespace Verdict

variable {lines : Lines} {tree : GroupTree} {id parent : Nat} {group : Group} {verdict : Verdict}
  {found : String}

variable (lines tree id parent group) in
theorem kind_ofParens_notMem (kindOf : Nat → GroupKind) :
    ((ofParens lines tree id parent group).value kindOf).kind ∉ .file :: GroupKind.braceKinds := by
  have hroles := ofParens_roles lines tree id parent group kindOf
  have hkeywords : ∀ kind ∈ keywordKinds, kind ∉ .file :: GroupKind.braceKinds := by decide
  dsimp only at hroles
  rcases hroles with hkeyword | hkind | hkind | hkind | ⟨hkind, -⟩
  · exact hkeywords _ hkeyword
  all_goals
    rw [hkind]
    decide

theorem IsOfHead.kind_mem (h : IsOfHead lines group verdict) :
    verdict.kind ∈ GroupKind.braceKinds := by
  cases h <;> simp [GroupKind.braceKinds]

variable (lines tree id parent group) in
theorem kind_ofBraces_mem (kindOf : Nat → GroupKind) :
    ((ofBraces lines tree id parent group).value kindOf).kind ∈
      .unknown :: GroupKind.braceKinds := by
  rcases ofBraces_cases lines tree id parent group kindOf with
    hhead | ⟨sibling, body, -, -, -, hbody, hverdict⟩ | hbare
  · exact List.mem_cons_of_mem _ hhead.kind_mem
  · rw [hverdict]
    rcases bodyBehind?_roles hbody with rfl | ⟨rfl, -⟩ <;> decide
  · rw [hbare]
    rcases (ofBareBrace_roles lines group (kindOf parent)).2 with
      hkind | hkind | hkind | ⟨hkind, -⟩
    all_goals
      rw [hkind]
      decide

/-- Only a head gives a brace a name. -/
theorem isOfHead_of_name (kindOf : Nat → GroupKind)
    (h : ((ofBraces lines tree id parent group).value kindOf).name = some found) :
    IsOfHead lines group ((ofBraces lines tree id parent group).value kindOf) := by
  rcases ofBraces_cases lines tree id parent group kindOf with
    hhead | ⟨sibling, body, -, -, -, -, hverdict⟩ | hbare
  · exact hhead
  · rw [hverdict] at h
    cases h
  · rw [hbare, (ofBareBrace_roles lines group (kindOf parent)).1] at h
    cases h

theorem mem_of_enumName? {words : List String} (h : enumName? words = some found) :
    found ∈ words :=
  (List.dropWhile_sublist _).subset (List.mem_of_mem_tail (List.mem_of_find?_eq_some h))

/-- A name is read in the head of its brace, or it is the literal in front of the brace. -/
theorem IsOfHead.name_cases (h : IsOfHead lines group verdict) (hname : verdict.name = some found)
    (hopened : lines.Stops group.opened) :
    verdict.kind ∈ GroupKind.namedKinds ∧
      (found ≠ "" ∧
        lines.ReadsBetween (Bytes.ofString found) group.statementStart group.opened ∨
      verdict.kind = .namespaceBody ∧ group.word.text = "" ∧
        (byteBeforeWord lines group).1 = Ascii.doubleQuote ∧
          literalBefore? lines (byteBeforeWord lines group).2 = some found) := by
  have hclass : GroupKind.classBody ∈ GroupKind.namedKinds := by decide
  have hspace : GroupKind.namespaceBody ∈ GroupKind.namedKinds := by decide
  have henum : GroupKind.enumBody ∈ GroupKind.namedKinds := by decide
  cases h with
  | initializer | block | classKey | qualifier => cases hname
  | classHead hhead =>
    cases hname
    exact ⟨hclass, .inl (ClassHead.readsBetween_of_name? hopened hhead)⟩
  | literal hword hquote => exact ⟨hspace, .inr ⟨rfl, hword, hquote, hname⟩⟩
  | @spaceName key hkey =>
    refine ⟨hspace, .inl ?_⟩
    dsimp only at hname
    split_ifs at hname with hnone
    cases hname
    obtain ⟨-, hstart, hbehind, -⟩ :=
      (Lines.holdsName_of_mem_namesIn hkey).reads hopened (le_refl _)
    refine ⟨fun htext => hnone (beq_iff_eq.mpr htext), ?_⟩
    exact Lines.readsBetween_nameAfter hopened (hstart.trans key.place_le_behind) hbehind
  | enumeration =>
    refine ⟨henum, .inl ?_⟩
    obtain ⟨word, hword, rfl⟩ := List.mem_map.mp (mem_of_enumName? hname)
    obtain ⟨htext, -, -, hreads⟩ :=
      (Lines.holdsName_of_mem_namesIn hword).reads hopened (le_refl _)
    exact ⟨htext, hreads⟩

end Verdict

namespace Lines

/-- Whether a name is what a line holds from a double quote to the next one, both included. -/
structure IsQuoted (raw : Bytes) (first last : Nat) (name : String) : Prop where
  first_lt : first < last
  first_eq : raw[first]? = some Ascii.doubleQuote
  last_eq : raw[last]? = some Ascii.doubleQuote
  between_ne : ∀ k, first < k → k < last → raw[k]? ≠ some Ascii.doubleQuote
  name_eq : name = Bytes.toText (slice raw first (last + 1))

variable {raw : Bytes} {first last : Nat} {name : String}

theorem IsQuoted.name_ne (h : IsQuoted raw first last name) : name ≠ "" := by
  have hlt : first < raw.length := (List.getElem?_eq_some_iff.mp h.first_eq).1
  have hquote : raw[first] = Ascii.doubleQuote := (List.getElem?_eq_some_iff.mp h.first_eq).2
  have hslice : ∃ rest, slice raw first (last + 1) = Ascii.doubleQuote :: rest := by
    rw [slice, List.drop_eq_getElem_cons hlt, hquote,
      show last + 1 - first = last - first + 1 by have := h.first_lt; omega, List.take_succ_cons]
    exact ⟨_, rfl⟩
  obtain ⟨rest, hrest⟩ := hslice
  rw [h.name_eq, hrest, Bytes.toText, Bytes.decode_one rest (by decide)]
  intro hempty
  have hchars := congrArg String.toList hempty
  rw [String.toList_ofList] at hchars
  cases hchars

/-- What a search for a byte from the end of a text finds. -/
theorem exists_of_takeWhile_reverse {text : Bytes} {b : UInt8}
    (h : (text.reverse.takeWhile (· != b)).length < text.length) :
    ∃ front behind, text = front ++ b :: behind ∧ b ∉ behind ∧
      behind.length = (text.reverse.takeWhile (· != b)).length := by
  have hsplit := List.takeWhile_append_dropWhile (p := (· != b)) (l := text.reverse)
  have hhead := List.head?_dropWhile_not (· != b) text.reverse
  have hnone : ∀ c ∈ text.reverse.takeWhile (· != b), (c != b) = true :=
    List.all_eq_true.mp List.all_takeWhile
  generalize text.reverse.takeWhile (· != b) = behind at *
  cases hrest : text.reverse.dropWhile (· != b) with
  | nil =>
    rw [hrest, List.append_nil] at hsplit
    rw [hsplit, List.length_reverse] at h
    exact absurd h (Nat.lt_irrefl _)
  | cons c front =>
    rw [hrest] at hsplit hhead
    obtain rfl : c = b := by simpa using hhead
    refine ⟨front.reverse, behind.reverse, ?_, ?_, List.length_reverse⟩
    · rw [← text.reverse_reverse, ← hsplit, List.reverse_append, List.reverse_cons,
        List.append_assoc, List.singleton_append]
    · intro hmem
      exact bne_iff_ne.mp (hnone c (List.mem_reverse.mp hmem)) rfl

end Lines

namespace Verdict

/-- The literal in front of a quote starts at the quote right before that one. -/
theorem isQuoted_of_literalBefore? {lines : Lines} {line column : Nat} {found : String}
    (hquote : (lines.raw line)[column]? = some Ascii.doubleQuote)
    (h : literalBefore? lines (.on line column) = some found) :
    ∃ first, Lines.IsQuoted (lines.raw line) first column found := by
  rw [literalBefore?] at h
  split_ifs at h with hfound
  cases h
  dsimp only [Place.line, Place.column] at hfound ⊢
  have hlt : column < (lines.raw line).length := (List.getElem?_eq_some_iff.mp hquote).1
  have hlength := List.length_take_of_le hlt.le
  -- In front of the closing quote the line reads `front`, the opening quote and `behind`.
  obtain ⟨front, behind, hsplit, hnone, hbehind⟩ := Lines.exists_of_takeWhile_reverse hfound
  rw [← hbehind]
  have hcolumn : column = front.length + (behind.length + 1) := by
    rw [← hlength, hsplit, List.length_append, List.length_cons]
  have hbyte {k : Nat} (hk : k < column) :
      (lines.raw line)[k]? = (front ++ Ascii.doubleQuote :: behind)[k]? := by
    rw [← hsplit, List.getElem?_take_of_lt hk]
  refine ⟨front.length, by omega, ?_, hquote, ?_, ?_⟩
  · rw [hbyte (by omega), List.getElem?_append_right (le_refl _), Nat.sub_self,
      List.getElem?_cons_zero]
  · intro k hfirst hlast hinner
    rw [hbyte hlast, List.getElem?_append_right hfirst.le,
      show k - front.length = k - front.length - 1 + 1 by omega, List.getElem?_cons_succ] at hinner
    exact hnone (List.mem_of_getElem? hinner)
  · rw [show column - behind.length - 1 = front.length by omega]

end Verdict

namespace Lines

/-- Behind the last byte in front of a brace, a line goes on with a blank or with the brace. -/
theorem byte_behind_skipSpaceBack {lines : Lines} {opened : Place} {line column : Nat} {b : UInt8}
    (hbrace : lines.byteAt opened = Ascii.openBrace)
    (hskip : lines.skipSpaceBack (lines.prev opened) = .on line column)
    (hline : line < lines.lastIndex) (hnext : (lines.text line)[column + 1]? = some b) :
    isCursorSpace b = true ∨ b = Ascii.openBrace := by
  have hopened := stops_of_openBrace hbrace
  have hbehind : column + 1 < (lines.text line).length := (List.getElem?_eq_some_iff.mp hnext).1
  have hread : lines.byteAt (.on line (column + 1)) = b :=
    Option.some.inj ((byteAt_of_lt hline hbehind).symm.trans hnext)
  have hlt : Place.on line column < opened := by
    rw [← hskip]
    exact (lines.skipSpaceBack_le _).trans_lt (prev_lt (ne_front_of_not_space hopened.not_space))
  rcases (Place.behind_le hlt).eq_or_lt with heq | hinner
  · rw [← hread, heq]
    exact .inr hbrace
  refine .inl ?_
  by_contra hcode
  rw [Bool.not_eq_true, ← hread] at hcode
  -- The search back would have stopped at this byte.
  have hstop := le_skipSpaceBack_prev hcode hinner
  rw [hskip, Place.on_le_on] at hstop
  omega

/-- A double quote that only blanks part from a brace ends a literal, or it stands in text that is not
scanned, or it starts a literal with nothing behind it on its line. -/
theorem quote_in_front {raws : List Bytes} {kind : FileKind} {options : ScrubOptions}
    {opened place : Place} :
    let lines := (ofRawLines raws kind options).1
    lines.byteAt opened = Ascii.openBrace → lines.skipSpaceBack (lines.prev opened) = place →
      lines.byteAt place = Ascii.doubleQuote →
        ∃ index column, place = .on (index + 1) column ∧
          (lines.raw (index + 1))[column]? = some Ascii.doubleQuote ∧
            (modeAt? raws index column = some (.literal .double) ∨
              modeAt? raws index column = none ∨
                modeAt? raws index column = some .code ∧
                  (lines.raw (index + 1)).length = column + 1) := by
  intro lines hbrace hskip hquote
  have hcode : isCursorSpace (lines.byteAt place) = false := by
    rw [hquote]
    rfl
  obtain ⟨line, column, rfl, hline, hcolumn⟩ := exists_of_not_space hcode
  have hbyte := byteAt_of_lt hline hcolumn
  rw [hquote] at hbyte
  -- There is nothing on the line in front of the file.
  cases line with
  | zero => exact absurd hcolumn (Nat.not_lt_zero column)
  | succ index =>
    obtain ⟨raw, hraw, hlast, hmode⟩ := quote_text kind options hbyte
    have hsame : lines.raw (index + 1) = raw := by
      rw [raw_ofRawLines, hraw, Option.getD_some]
    subst hsame
    refine ⟨index, column, rfl, hlast, hmode.imp_right fun hmode => hmode.imp_right ?_⟩
    rintro ⟨hstart, hend | ⟨b, hb, hnext⟩⟩
    · exact ⟨hstart, hend⟩
    -- What goes on behind a quote that starts a literal is neither a blank nor the brace.
    have hclear : isCursorSpace b = false ∧ b ≠ Ascii.openBrace := by
      simp only [List.mem_cons, List.not_mem_nil, or_false] at hb
      rcases hb with rfl | rfl | rfl <;> decide
    rcases byte_behind_skipSpaceBack hbrace hskip hline hnext with hspace | hopens
    · rw [hclear.1] at hspace
      cases hspace
    · exact absurd hopens hclear.2

end Lines

/-- What holds of the role of a group inside the file and of its name. -/
structure Group.Classified (raws : List Bytes) (lines : Lines) (group : Group) (kind : GroupKind)
    (name? : Option String) : Prop where
  ne_file : kind ≠ .file
  of_paren : group.shape = .paren → kind ∉ GroupKind.braceKinds
  of_brace : group.shape = .brace → kind ∈ .unknown :: GroupKind.braceKinds
  of_name : ∀ name, name? = some name → kind ∈ GroupKind.namedKinds ∧ name ≠ "" ∧
    (lines.ReadsBetween (Bytes.ofString name) group.statementStart group.opened ∨
      kind = .namespaceBody ∧ ∃ index first last,
        lines.skipSpaceBack (lines.prev group.opened) = .on (index + 1) last ∧
          Lines.IsQuoted (lines.raw (index + 1)) first last name ∧
            -- The quote ends a literal, or is not scanned, or starts one at the end of its line.
            (Lines.modeAt? raws index last = some (.literal .double) ∨
              Lines.modeAt? raws index last = none ∨
                Lines.modeAt? raws index last = some .code ∧
                  (lines.raw (index + 1)).length = last + 1))

theorem Record.name_build_zero (lines : Lines) :
    (Verdict.ofGroup lines (GroupTree.build lines).1 0).name = none := by
  have hgroup : (GroupTree.build lines).1.group? 0 = some _ := GroupTree.group?_ofForest ..
  rw [ofGroup_build, Verdict.value_inquiry_of_root _ hgroup rfl]

theorem GroupTree.classified_build (raws : List Bytes) (kind : FileKind) (options : ScrubOptions)
    {id : Nat} {group : Group} (hpos : 0 < id) :
    let lines := (Lines.ofRawLines raws kind options).1
    let tree := (build lines).1
    tree.group? id = some group →
      group.Classified raws lines (Verdict.ofGroup lines tree id).kind
        (Verdict.ofGroup lines tree id).name := by
  intro lines tree hgroup
  obtain ⟨parent, -, hparent⟩ := parent_lt_of_group? lines _ _ hpos hgroup
  obtain ⟨hopened, -⟩ := byteAt_of_group? lines hgroup hparent
  rw [Record.ofGroup_build lines id]
  cases hshape : group.shape with
  | paren =>
    rw [Verdict.inquiry_of_paren hgroup hparent hshape]
    have hkind := Verdict.kind_ofParens_notMem lines tree id parent group
      (Verdict.kindOfGroup lines tree)
    rw [List.mem_cons, not_or] at hkind
    refine ⟨hkind.1, fun _ => hkind.2, fun h => ?_, fun name hname => ?_⟩
    · rw [hshape] at h
      cases h
    · rw [Verdict.name_ofParens] at hname
      cases hname
  | brace =>
    rw [Verdict.inquiry_of_brace hgroup hparent hshape]
    have hkind := Verdict.kind_ofBraces_mem lines tree id parent group
      (Verdict.kindOfGroup lines tree)
    have hbrace : lines.byteAt group.opened = Ascii.openBrace := by
      rw [hopened, hshape]
      rfl
    refine ⟨fun hfile => ?_, fun h => ?_, fun _ => hkind, fun name hname => ?_⟩
    · rw [hfile] at hkind
      exact absurd hkind (by decide)
    · rw [hshape] at h
      cases h
    obtain ⟨hnamed, hcases⟩ := (Verdict.isOfHead_of_name _ hname).name_cases hname
      (Lines.stops_of_openBrace hbrace)
    refine ⟨hnamed, ?_⟩
    rcases hcases with ⟨htext, hreads⟩ | ⟨hspace, hword, hquote, hliteral⟩
    · exact ⟨htext, .inl hreads⟩
    -- There is no word, so the quote is the last byte in front of the brace that is no blank.
    have hfront : group.word = ⟨"", lines.skipSpaceBack (lines.prev group.opened)⟩ := by
      obtain ⟨hfront, -⟩ := anchors_of_group? lines hgroup hparent
      rw [hfront] at hword ⊢
      exact Lines.wordInFrontOf_of_text_eq hword
    rw [Verdict.byteBeforeWord, hfront] at hquote hliteral
    obtain ⟨index, last, hplace, hlast, hmode⟩ := Lines.quote_in_front hbrace rfl hquote
    dsimp only at hliteral
    rw [if_pos (beq_self_eq_true _), hplace] at hliteral
    obtain ⟨first, hquoted⟩ := Verdict.isQuoted_of_literalBefore? hlast hliteral
    exact ⟨hquoted.name_ne, .inr ⟨hspace, index, first, last, hplace, hquoted, hmode⟩⟩

namespace Analysis

/-- The file is the one group with the role of a file and has no name. The roles of all other groups
suit their brackets, and their names are read in front of their braces. -/
theorem classified_ofSource (source : Bytes) (kind : FileKind) (options : ScrubOptions) :
    let analysis := ofSource source kind options
    (∀ id, analysis.kind id = .file ↔ id = 0) ∧ analysis.name? 0 = none ∧
      ∀ id group, 0 < id → analysis.tree.group? id = some group →
        group.Classified (Bytes.lines (Bytes.dropByteOrderMark source)) analysis.lines
          (analysis.kind id) (analysis.name? id) := by
  intro analysis
  obtain ⟨hcoherent, hall⟩ := Record.coherent_classifyAll analysis.lines
  have hkind (id : Nat) : analysis.kind id = (Verdict.ofGroup analysis.lines analysis.tree id).kind :=
    hcoherent.kind_eq hall id
  have hname (id : Nat) : analysis.name? id = (Verdict.ofGroup analysis.lines analysis.tree id).name :=
    hcoherent.name?_eq hall id
  have hclassified (id : Nat) (group : Group) (hpos : 0 < id)
      (hgroup : analysis.tree.group? id = some group) :
      group.Classified (Bytes.lines (Bytes.dropByteOrderMark source)) analysis.lines
        (analysis.kind id) (analysis.name? id) := by
    rw [hkind, hname]
    exact GroupTree.classified_build _ kind options hpos hgroup
  have hfile : analysis.kind 0 = .file := by
    rw [hkind]
    exact Record.kindOfGroup_build_zero analysis.lines
  refine ⟨fun id => ⟨fun hrole => ?_, fun hid => ?_⟩, ?_, hclassified⟩
  · by_contra hid
    cases hgroup : analysis.tree.group? id with
    | some group => exact (hclassified id group (Nat.pos_of_ne_zero hid) hgroup).ne_file hrole
    | none =>
      have hsize : analysis.tree.size ≤ id := Array.getElem?_eq_none_iff.mp hgroup
      rw [hkind, Record.ofGroup_of_size_le hsize] at hrole
      cases hrole
  · rw [hid]
    exact hfile
  · rw [hname]
    exact Record.name_build_zero analysis.lines

/-- The first line ends in a quote that starts a literal. -/
def looseText : Bytes := Bytes.ofString "\"\"; extern \"\n\x7b\x7d\n"

/-- The brace follows an opening quote, and its name is what stands between the literal of the
statement before and that quote. No text between the start of the statement and the brace reads so. -/
theorem name_behind_loose_quote :
    let analysis := ofSource looseText .implementation {}
    ∃ group name, analysis.tree.group? 1 = some group ∧ analysis.kind 1 = .namespaceBody ∧
      analysis.name? 1 = some name ∧ name = "\"; extern \"" ∧
        ¬analysis.lines.ReadsBetween (Bytes.ofString name) group.statementStart group.opened ∧
          analysis.lines.skipSpaceBack (analysis.lines.prev group.opened) = .on (0 + 1) 11 ∧
            Lines.modeAt? (Bytes.lines (Bytes.dropByteOrderMark looseText)) 0 11 = some .code := by
  have hgroup : (ofSource looseText .implementation {}).tree.group? 1 =
      some ⟨.brace, .on 2 0, .on 2 1, ⟨"", .on 1 11⟩, .on 1 4, some 0, []⟩ := by decide +kernel
  have hkind : (ofSource looseText .implementation {}).kind 1 = .namespaceBody := by decide +kernel
  have hname : (ofSource looseText .implementation {}).name? 1 = some "\"; extern \"" := by
    decide +kernel
  have hlength : (Bytes.ofString "\"; extern \"").length = 11 := by decide +kernel
  have htext : ((ofSource looseText .implementation {}).lines.text 1).length = 12 := by
    decide +kernel
  refine ⟨_, _, hgroup, hkind, hname, rfl, ?_, by decide +kernel, by decide +kernel⟩
  rintro ⟨line, column, hfirst, hlast, hreads⟩
  have hle := hreads.length_le
  rw [hlength] at hlast hle
  rw [Place.on_le_on] at hfirst hlast
  rw [List.length_drop] at hle
  -- The name is longer than what its line holds behind the start of the statement.
  obtain rfl : line = 1 := by omega
  omega

end Analysis
end BracketLint
