import BracketLint.AllowDirective
import BracketLint.Proofs.Text.Words

/-!
Writing and reading directives. A directive that names some rules and gives a reason is read back as
it was written, if the names and the reason hold none of the marks around them.
-/

namespace BracketLint.AllowDirective

/-- The text of a directive behind the slashes of its comment. -/
def textFor (names : List String) (reason : String) : String :=
  " cxxlint: allow(" ++ ", ".intercalate names ++ ") reason=\"" ++ reason ++ "\""

/-- The names that a directive can list. -/
def isListName (name : String) : Bool :=
  name != "" && name.toList.all fun c => !isBlank c && c != ',' && c != ')'

/-- All words of letters, digits and hyphens can be listed. -/
theorem isListName_of_isAlphanum {name : String} (hne : name ≠ "")
    (h : name.toList.all (fun c => c.isAlphanum || c == '-') = true) : isListName name = true := by
  have hblank {c : Char} (hc : c.isAlphanum = true) : isBlank c = false := by
    -- Letters and digits lie between the blanks of ASCII and those behind it.
    have hrange : 48 ≤ c.toNat ∧ c.toNat ≤ 122 := by
      delta Char.isAlphanum Char.isAlpha Char.isUpper Char.isLower Char.isDigit at hc
      simp only [Bool.or_eq_true, Bool.and_eq_true, decide_eq_true_eq, ge_iff_le,
        UInt32.le_iff_toNat_le] at hc
      have hval : c.val.toNat = c.toNat := rfl
      simp only [Char.reduceVal, UInt32.reduceToNat, hval] at hc
      omega
    simp [isBlank]
    omega
  rw [List.all_eq_true] at h
  rw [isListName, Bool.and_eq_true, bne_iff_ne, List.all_eq_true]
  refine ⟨hne, fun c hmem => ?_⟩
  have hc := h c hmem
  rw [Bool.or_eq_true, beq_iff_eq] at hc
  rcases hc with hc | rfl
  · have hcomma : c ≠ ',' := by
      rintro rfl
      cases hc
    have hcloser : c ≠ ')' := by
      rintro rfl
      cases hc
    simp [hblank hc, hcomma, hcloser]
  · rfl

/-- The characters of a name, without the empty one. -/
structure IsListName (cs : List Char) : Prop where
  ne_nil : cs ≠ []
  not_isBlank : ∀ c ∈ cs, isBlank c = false
  comma_not_mem : ',' ∉ cs
  closer_not_mem : ')' ∉ cs

theorem isListName_toList {name : String} (h : isListName name = true) :
    IsListName name.toList := by
  rw [isListName, Bool.and_eq_true, bne_iff_ne, List.all_eq_true] at h
  have hchar (c : Char) (hc : c ∈ name.toList) : isBlank c = false ∧ c ≠ ',' ∧ c ≠ ')' := by
    have hall := h.2 c hc
    simp only [Bool.and_eq_true, Bool.not_eq_true', bne_iff_ne] at hall
    exact ⟨hall.1.1, hall.1.2, hall.2⟩
  exact {
    ne_nil := by
      rw [ne_eq, String.toList_eq_nil_iff]
      exact h.1
    not_isBlank := fun c hc => (hchar c hc).1
    comma_not_mem := fun hc => (hchar _ hc).2.1 rfl
    closer_not_mem := fun hc => (hchar _ hc).2.2 rfl }

theorem IsListName.isTrimmed {cs : List Char} (h : IsListName cs) : Text.IsTrimmed cs where
  head c hc := h.not_isBlank c (List.mem_of_head? hc)
  last c hc := h.not_isBlank c (List.mem_of_getLast? hc)

/-- The pieces of a list between commas are its names, each of them behind a blank. -/
theorem split_intercalate {names : List (List Char)} (hne : names ≠ [])
    (hnames : ∀ cs ∈ names, IsListName cs) {blanks : List Char}
    (hblanks : ∀ c ∈ blanks, isBlank c = true) :
    (Text.split ',' (blanks ++ [',', ' '].intercalate names)).map Text.trim = names := by
  have hcomma {cs : List Char} (hcs : ',' ∉ cs) {blanks : List Char}
      (hblanks : ∀ c ∈ blanks, isBlank c = true) : ',' ∉ blanks ++ cs := by
    intro hmem
    rcases List.mem_append.mp hmem with hmem | hmem
    · cases hblanks _ hmem
    · exact hcs hmem
  induction names generalizing blanks with
  | nil => exact absurd rfl hne
  | cons cs names ih =>
    have hcs := hnames cs List.mem_cons_self
    cases names with
    | nil =>
      rw [List.intercalate_singleton, Text.split_of_not_mem (hcomma hcs.comma_not_mem hblanks),
        List.map_singleton, Text.trim_append hblanks hcs.isTrimmed]
    | cons next names =>
      have hspace : ∀ c ∈ [' '], isBlank c = true := by
        intro c hc
        rw [List.mem_singleton.mp hc]
        rfl
      have hrest := ih (List.cons_ne_nil _ _) (fun cs' h => hnames cs' (List.mem_cons_of_mem _ h))
        hspace
      have hlist : blanks ++ [',', ' '].intercalate (cs :: next :: names) =
          (blanks ++ cs) ++ ',' :: ([' '] ++ [',', ' '].intercalate (next :: names)) := by
        rw [List.intercalate_cons_cons]
        simp
      rw [hlist, Text.split_append_cons, Text.split_of_not_mem (hcomma hcs.comma_not_mem hblanks),
        List.map_append, hrest, List.map_singleton, Text.trim_append hblanks hcs.isTrimmed]
      rfl

/-- A list of names starts with no blank. -/
theorem exists_intercalate_eq_cons {names : List (List Char)} (hne : names ≠ [])
    (hnames : ∀ cs ∈ names, IsListName cs) :
    ∃ first rest, [',', ' '].intercalate names = first :: rest ∧ isBlank first = false := by
  obtain ⟨cs, names, rfl⟩ := List.exists_cons_of_ne_nil hne
  have hcs := hnames cs List.mem_cons_self
  obtain ⟨first, rest, rfl⟩ := List.exists_cons_of_ne_nil hcs.ne_nil
  have hfirst := hcs.not_isBlank first List.mem_cons_self
  cases names with
  | nil => exact ⟨first, rest, List.intercalate_singleton, hfirst⟩
  | cons next names =>
    rw [List.intercalate_cons_cons, List.append_assoc]
    exact ⟨first, _, rfl, hfirst⟩

/-- A list of names holds nothing but its names, commas and blanks. -/
theorem not_mem_intercalate {c : Char} (hc : c ∉ [',', ' ']) {names : List (List Char)}
    (hnames : ∀ cs ∈ names, c ∉ cs) : c ∉ [',', ' '].intercalate names := by
  induction names with
  | nil => exact List.not_mem_nil
  | cons cs names ih =>
    have hcs := hnames cs List.mem_cons_self
    have hrest := ih fun cs' h => hnames cs' (List.mem_cons_of_mem _ h)
    cases names with
    | nil => rwa [List.intercalate_singleton]
    | cons next names =>
      rw [List.intercalate_cons_cons, List.mem_append, List.mem_append, not_or, not_or]
      exact ⟨⟨hcs, hc⟩, hrest⟩

theorem dropWord?_append (word : String) (rest : List Char) :
    dropWord? word (word.toList ++ rest) = some rest := by
  have hstart : Text.startsWith (word.toList ++ rest) word = true :=
    List.isPrefixOf_iff_prefix.mpr (List.prefix_append _ _)
  rw [dropWord?, if_pos hstart, ← String.length_toList, List.drop_left]

/-- The text behind the list of rules: a quoted reason. -/
def quoted (reason : List Char) : List Char := "\"".toList ++ (reason ++ ['"'])

theorem isTrimmed_quoted (reason : List Char) : Text.IsTrimmed (quoted reason) :=
  Text.isTrimmed_append (by decide) (List.cons_ne_nil _ _)
    (Text.isTrimmed_singleton (by decide)) reason

theorem isTrimmed_reason (reason : List Char) :
    Text.IsTrimmed ("reason=".toList ++ quoted reason) :=
  Text.isTrimmed_append (by decide) (List.cons_ne_nil _ _) (isTrimmed_quoted reason) _

theorem reason?_quoted {reason : List Char} (h : '"' ∉ reason) :
    reason? (' ' :: ("reason=".toList ++ quoted reason)) = some (String.ofList reason) := by
  have hinside : (reason ++ ['"']).takeWhile (·.toNat != 34) = reason := by
    have hall : ∀ c ∈ reason, (c.toNat != 34) = true := by
      intro c hc
      rw [bne_iff_ne]
      intro hquote
      have heq : c = '"' := Char.toNat_inj.mp hquote
      exact h (heq ▸ hc)
    rw [List.takeWhile_append_of_pos hall]
    exact List.append_nil _
  rw [reason?, Text.trim_cons_space (isTrimmed_reason reason), dropWord?_append]
  simp only [Option.bind_eq_bind, Option.bind_some]
  rw [Text.trim_of_isTrimmed (isTrimmed_quoted reason), quoted, dropWord?_append, Option.bind_some,
    hinside, if_pos (by simp)]

theorem toList_textFor (names : List String) (reason : String) :
    (textFor names reason).toList = ' ' :: ("cxxlint:".toList ++ ' ' ::
      ("allow(".toList ++ ([',', ' '].intercalate (names.map String.toList) ++ ')' :: ' ' ::
        ("reason=".toList ++ quoted reason.toList)))) := by
  have hopen : " cxxlint: allow(".toList = ' ' :: ("cxxlint:".toList ++ ' ' :: "allow(".toList) := by
    decide
  have hcomma : ", ".toList = [',', ' '] := by decide
  have hclose : ") reason=\"".toList = ')' :: ' ' :: ("reason=".toList ++ "\"".toList) := by
    decide
  have hquote : "\"".toList = ['"'] := by decide
  unfold textFor quoted
  rw [String.toList_append, String.toList_append, String.toList_append,
    String.toList_append, String.toList_intercalate, hopen, hcomma, hclose, hquote]
  simp only [List.cons_append, List.append_assoc]

section Read

variable {names : List String} (hne : names ≠ []) (hnames : ∀ name ∈ names, isListName name = true)

include hnames in
theorem isListName_of_mem_map (cs : List Char) (h : cs ∈ names.map String.toList) :
    IsListName cs := by
  obtain ⟨name, hname, rfl⟩ := List.mem_map.mp h
  exact isListName_toList (hnames name hname)

include hnames in
/-- A directive stands on one line. -/
theorem lineFeed_not_mem_textFor {reason : String} (hreason : '\n' ∉ reason.toList) :
    '\n' ∉ (textFor names reason).toList := by
  have hlist : '\n' ∉ [',', ' '].intercalate (names.map String.toList) := by
    apply not_mem_intercalate (by decide)
    intro cs hcs hmem
    cases (isListName_of_mem_map hnames cs hcs).not_isBlank _ hmem
  have hquoted : '\n' ∉ quoted reason.toList := by
    rw [quoted, List.mem_append, List.mem_append, not_or, not_or]
    exact ⟨by decide, hreason, by decide⟩
  rw [toList_textFor]
  generalize [',', ' '].intercalate (names.map String.toList) = list at hlist
  simp only [List.mem_cons, List.mem_append, not_or]
  exact ⟨by decide, by decide, by decide, by decide, hlist, by decide, by decide, by decide, hquoted⟩

include hne hnames

theorem namesBetweenCommas_intercalate :
    Text.namesBetweenCommas ([',', ' '].intercalate (names.map String.toList)) = names := by
  have hpieces := split_intercalate (by simpa using hne) (isListName_of_mem_map hnames)
    (fun c hc => absurd hc List.not_mem_nil)
  have hmap := congrArg (List.map String.ofList) hpieces
  have hback : names.map (String.ofList ∘ String.toList) = names := by simp [Function.comp_def]
  rw [List.map_map, List.map_map, hback, List.nil_append] at hmap
  have hfilter : names.filter (· != "") = names := by
    rw [List.filter_eq_self]
    intro name hname
    have h := hnames name hname
    rw [isListName, Bool.and_eq_true] at h
    exact h.1
  exact (congrArg (List.filter (· != "")) hmap).trans hfilter

/-- Reading the text of a directive gives the directive. -/
theorem ofBody?_textFor {reason : String} (hreason : '"' ∉ reason.toList) :
    ofBody? (textFor names reason).toList = some ⟨names, some reason⟩ := by
  have hlist := isListName_of_mem_map hnames
  obtain ⟨first, rest, hfirst, hblank⟩ :=
    exists_intercalate_eq_cons (by simpa using hne) hlist
  have hcloser : ')' ∉ [',', ' '].intercalate (names.map String.toList) :=
    not_mem_intercalate (by decide) fun cs hcs => (hlist cs hcs).closer_not_mem
  have hnamesBack := namesBetweenCommas_intercalate hne hnames
  rw [toList_textFor]
  generalize [',', ' '].intercalate (names.map String.toList) = list at *
  subst hfirst
  -- Each part of the text ends at the closing quote and starts with no blank.
  have hbehind : Text.IsTrimmed (')' :: ' ' :: ("reason=".toList ++ quoted reason.toList)) :=
    Text.isTrimmed_append (by decide) (List.cons_ne_nil _ _) (isTrimmed_reason _) [' ']
  have hcontent := Text.isTrimmed_append hblank (List.cons_ne_nil _ _) hbehind rest
  have hdirective : Text.IsTrimmed ("allow(".toList ++ (first :: rest ++ ')' :: ' ' ::
      ("reason=".toList ++ quoted reason.toList))) :=
    Text.isTrimmed_append (by decide) (List.cons_ne_nil _ _) hcontent _
  have hbody : Text.IsTrimmed ("cxxlint:".toList ++ ' ' :: ("allow(".toList ++
      (first :: rest ++ ')' :: ' ' :: ("reason=".toList ++ quoted reason.toList)))) :=
    Text.isTrimmed_append (by decide) (by simp) hdirective ("xxlint: ".toList)
  have htake : (first :: rest ++ ')' :: ' ' :: ("reason=".toList ++ quoted reason.toList)).takeWhile
      (· != ')') = first :: rest := by
    have hall : ∀ c ∈ first :: rest, (c != ')') = true := by
      intro c hc
      rw [bne_iff_ne]
      rintro rfl
      exact hcloser hc
    rw [List.takeWhile_append_of_pos hall]
    exact List.append_nil _
  have hrest : (first :: rest ++ ')' :: ' ' :: ("reason=".toList ++ quoted reason.toList)).drop
      ((first :: rest).length + 1) = ' ' :: ("reason=".toList ++ quoted reason.toList) := by
    rw [← List.drop_drop, List.drop_left]
    rfl
  have hslashes (cs : List Char) : (' ' :: cs).dropWhile (· == '/') = ' ' :: cs := rfl
  rw [ofBody?, hslashes, Text.trim_cons_space hbody, dropWord?_append]
  simp only [Option.bind_eq_bind, Option.bind_some]
  rw [Text.trim_cons_space hdirective, dropWord?_append, Option.bind_some,
    Text.trim_of_isTrimmed hcontent, htake, hnamesBack, hrest, reason?_quoted hreason,
    String.ofList_toList, if_pos (by simp), if_neg (by simpa using hne)]

end Read

end BracketLint.AllowDirective
