import BracketLint.Proofs.Path

/-!
Paths that lie below a root by their components, however they are spelled. Such a path from the root on
has the components behind those of the root, so joining it to the root again gives the components of
the whole path.
-/

namespace BracketLint.Path

theorem ofPiece?_ne_root (piece : String) : Component.ofPiece? piece ≠ some .root := by
  unfold Component.ofPiece?
  split <;> simp

theorem ofPiece?_ne_current (piece : String) : Component.ofPiece? piece ≠ some .current := by
  unfold Component.ofPiece?
  split <;> simp

theorem eq_parent_or_normal_of_mem_names {p : Path} {c : Component} (hc : c ∈ p.names) :
    c = .parent ∨ ∃ name, c = .normal name := by
  obtain ⟨piece, -, hpiece⟩ := List.mem_filterMap.mp hc
  cases c with
  | root => exact absurd hpiece (ofPiece?_ne_root piece)
  | current => exact absurd hpiece (ofPiece?_ne_current piece)
  | parent => exact .inl rfl
  | normal name => exact .inr ⟨name, rfl⟩

/-- Only absolute paths have the root among their components. -/
theorem isAbsolute_of_root_mem {p : Path} (h : .root ∈ p.components) : p.isAbsolute = true := by
  by_contra habsolute
  rw [components, ← names, List.mem_append, start?, if_neg habsolute] at h
  rcases h with h | h
  · split at h <;> simp at h
  · rcases eq_parent_or_normal_of_mem_names h with h | ⟨name, h⟩ <;> cases h

section Trim

/-- Parts without those at either end that stand for no component. -/
def trimSkipped (pieces : List String) : List String := dropSkippedEnd (pieces.dropWhile isSkipped)

theorem filterMap_dropWhile_isSkipped (pieces : List String) :
    (pieces.dropWhile isSkipped).filterMap Component.ofPiece? =
      pieces.filterMap Component.ofPiece? := by
  induction pieces with
  | nil => rfl
  | cons piece pieces ih =>
    by_cases hpiece : isSkipped piece = true
    · rw [List.dropWhile_cons_of_pos hpiece, ih,
        List.filterMap_cons_none (isSkipped_iff.mp hpiece)]
    · rw [List.dropWhile_cons_of_neg hpiece]

theorem filterMap_trimSkipped (pieces : List String) :
    (trimSkipped pieces).filterMap Component.ofPiece? = pieces.filterMap Component.ofPiece? := by
  rw [trimSkipped, dropSkippedEnd, List.filterMap_reverse, filterMap_dropWhile_isSkipped,
    List.filterMap_reverse, List.reverse_reverse, filterMap_dropWhile_isSkipped]

theorem prefix_dropSkippedEnd (pieces : List String) : dropSkippedEnd pieces <+: pieces := by
  rw [dropSkippedEnd, ← List.reverse_suffix, List.reverse_reverse]
  exact List.dropWhile_suffix _

theorem infix_trimSkipped (pieces : List String) : trimSkipped pieces <:+: pieces :=
  (prefix_dropSkippedEnd _).isInfix.trans (List.dropWhile_suffix _).isInfix

theorem isSkipped_of_head?_dropWhile {pieces : List String} {piece : String}
    (h : (pieces.dropWhile isSkipped).head? = some piece) : isSkipped piece = false := by
  have hfirst := List.head?_dropWhile_not isSkipped pieces
  rwa [h] at hfirst

theorem isSkipped_of_head?_trimSkipped {pieces : List String} {piece : String}
    (h : (trimSkipped pieces).head? = some piece) : isSkipped piece = false := by
  obtain ⟨rest, hrest⟩ := prefix_dropSkippedEnd (pieces.dropWhile isSkipped)
  have hfirst : (pieces.dropWhile isSkipped).head? = some piece := by
    rw [← hrest, List.head?_append, ← trimSkipped, h]
    rfl
  exact isSkipped_of_head?_dropWhile hfirst

theorem isSkipped_of_getLast?_trimSkipped {pieces : List String} {piece : String}
    (h : (trimSkipped pieces).getLast? = some piece) : isSkipped piece = false := by
  rw [trimSkipped, dropSkippedEnd, List.getLast?_reverse] at h
  exact isSkipped_of_head?_dropWhile h

end Trim

/-- Parts whose components start with some others give these others up, and what is left of the parts
has the components behind them. -/
theorem exists_dropComponents_of_eq_append {front behind : List Component} {pieces : List String}
    (h : pieces.filterMap Component.ofPiece? = front ++ behind) :
    ∃ rest, dropComponents front pieces = some rest ∧ rest <:+ pieces ∧
      rest.filterMap Component.ofPiece? = behind := by
  induction pieces generalizing front with
  | nil =>
    obtain ⟨rfl, rfl⟩ := List.append_eq_nil_iff.mp h.symm
    exact ⟨[], rfl, List.suffix_rfl, rfl⟩
  | cons piece pieces ih =>
    cases front with
    | nil => exact ⟨piece :: pieces, rfl, List.suffix_rfl, h⟩
    | cons c front =>
      cases hpiece : Component.ofPiece? piece with
      | none =>
        rw [List.filterMap_cons_none hpiece] at h
        obtain ⟨rest, hrest, hsuffix, hbehind⟩ := ih h
        refine ⟨rest, ?_, hsuffix.trans (List.suffix_cons _ _), hbehind⟩
        rw [dropComponents, hpiece]
        exact hrest
      | some d =>
        rw [List.filterMap_cons_some hpiece, List.cons_append, List.cons.injEq] at h
        obtain ⟨rfl, h⟩ := h
        obtain ⟨rest, hrest, hsuffix, hbehind⟩ := ih h
        refine ⟨rest, ?_, hsuffix.trans (List.suffix_cons _ _), hbehind⟩
        rw [dropComponents, hpiece]
        simp only [beq_self_eq_true, if_true]
        exact hrest

theorem slash_not_mem_of_mem_pieces {p : Path} {piece : String} (h : piece ∈ p.pieces) :
    '/' ∉ piece.toList := by
  have hmem : piece ∈ (Text.split '/' p.text.toList).map String.ofList := by
    unfold pieces at h
    split at h
    · exact List.mem_of_mem_tail h
    · exact h
  exact Text.not_mem_of_mem_split (mem_map_ofList.mp hmem)

section OfPieces

variable {kept : List String} (hslash : ∀ piece ∈ kept, '/' ∉ piece.toList)
  (hfirst : ∀ piece, kept.head? = some piece → isSkipped piece = false) (hne : kept ≠ [])
include hslash hfirst hne

theorem isAbsolute_intercalate : isAbsolute ⟨"/".intercalate kept⟩ = false ∧
    pieces ⟨"/".intercalate kept⟩ = kept := by
  have hsplit : Text.split '/' ("/".intercalate kept).toList = kept.map String.toList := by
    rw [String.toList_intercalate]
    apply Text.split_intercalate
    · exact List.map_eq_nil_iff.not.mpr hne
    · intro piece hpiece
      obtain ⟨part, hpart, rfl⟩ := List.mem_map.mp hpiece
      exact hslash part hpart
  have habsolute : isAbsolute ⟨"/".intercalate kept⟩ = false := by
    by_contra h
    rw [Bool.not_eq_false] at h
    -- A slash in front would be behind an empty first part.
    obtain ⟨rest, htext⟩ := exists_text_of_isAbsolute h
    change ("/".intercalate kept).toList = '/' :: rest at htext
    rw [htext, Text.split_cons_self] at hsplit
    obtain ⟨first, others, rfl⟩ := List.exists_cons_of_ne_nil hne
    rw [List.map_cons, List.cons.injEq] at hsplit
    have hempty : first = "" := String.toList_eq_nil_iff.mp hsplit.1.symm
    have hskipped := hfirst first rfl
    rw [hempty] at hskipped
    cases hskipped
  refine ⟨habsolute, ?_⟩
  rw [pieces_of_isAbsolute_eq_false habsolute, hsplit, List.map_map]
  exact List.map_id'' (fun _ => String.ofList_toList) kept

/-- The components of a path that is put together from parts, the first one not blank. -/
theorem components_intercalate :
    components ⟨"/".intercalate kept⟩ = kept.filterMap Component.ofPiece? := by
  obtain ⟨habsolute, hpieces⟩ := isAbsolute_intercalate hslash hfirst hne
  have hdot : (kept.head? == some ".") = false := by
    rw [beq_eq_false_iff_ne]
    intro hdot
    have := hfirst "." hdot
    cases this
  rw [components, start?, habsolute, hpieces, hdot]
  rfl

end OfPieces

section Below

variable {root path : Path} (hroot : root.isAbsolute = true)
include hroot

/-- A path below a root, as seen from the root. -/
theorem exists_relativeTo? {behind : List Component}
    (h : path.components = root.components ++ behind) :
    ∃ rest, rest <:+ path.pieces ∧ rest.filterMap Component.ofPiece? = behind ∧
      path.relativeTo? root = some ⟨"/".intercalate (trimSkipped rest)⟩ := by
  have hpath : path.isAbsolute = true := by
    apply isAbsolute_of_root_mem
    rw [h, components_of_isAbsolute hroot]
    exact List.mem_cons_self
  have hnames : path.names = root.names ++ behind := by
    rw [components_of_isAbsolute hpath, components_of_isAbsolute hroot] at h
    exact List.tail_eq_of_cons_eq h
  obtain ⟨rest, hrest, hsuffix, hbehind⟩ := exists_dropComponents_of_eq_append hnames
  refine ⟨rest, hsuffix, hbehind, ?_⟩
  have hstart : (path.start? == root.start?) = true := by
    rw [start?, start?, hpath, hroot]
    rfl
  have hcomponents : root.components.isEmpty = false := by
    rw [components_of_isAbsolute hroot]
    rfl
  rw [names] at hrest
  rw [relativeTo?, hcomponents, hstart, hrest]
  rfl

/-- A path with the components of the root is empty as seen from the root. -/
theorem relativeTo?_of_components_eq (h : path.components = root.components) :
    path.relativeTo? root = some ⟨""⟩ := by
  obtain ⟨rest, -, hbehind, hrelative⟩ :=
    exists_relativeTo? hroot (h.trans (List.append_nil _).symm)
  have hempty : trimSkipped rest = [] := by
    cases hkept : trimSkipped rest with
    | nil => rfl
    | cons piece kept =>
      have hskipped := isSkipped_of_head?_trimSkipped (by rw [hkept]; rfl : _ = some piece)
      rw [← filterMap_trimSkipped, hkept, List.filterMap_eq_nil_iff] at hbehind
      rw [isSkipped_iff.mpr (hbehind piece List.mem_cons_self)] at hskipped
      cases hskipped
  rw [hrelative, hempty]
  rfl

/-- A path with components behind those of the root. Seen from the root it has these components, it
does not end in a part that stands for none, and joined to the root it has all components again. -/
theorem exists_relativeTo?_of_ne_nil {behind : List Component}
    (h : path.components = root.components ++ behind) (hbehind : behind ≠ []) :
    ∃ file, path.relativeTo? root = some file ∧ file.text ≠ "" ∧ file.isAbsolute = false ∧
      file.components = behind ∧ (root.join file).components = path.components ∧
      (root.join file).pieces.getLast?.any isSkipped = false := by
  obtain ⟨rest, hsuffix, hrest, hrelative⟩ := exists_relativeTo? hroot h
  have hne : trimSkipped rest ≠ [] := by
    intro hnil
    rw [← filterMap_trimSkipped, hnil] at hrest
    exact hbehind hrest.symm
  have hslash : ∀ piece ∈ trimSkipped rest, '/' ∉ piece.toList := fun piece hpiece =>
    slash_not_mem_of_mem_pieces (hsuffix.subset ((infix_trimSkipped rest).subset hpiece))
  have hfirst : ∀ piece, (trimSkipped rest).head? = some piece → isSkipped piece = false :=
    fun _ => isSkipped_of_head?_trimSkipped
  obtain ⟨habsolute, hpieces⟩ := isAbsolute_intercalate hslash hfirst hne
  have hcomponents := components_intercalate hslash hfirst hne
  rw [filterMap_trimSkipped, hrest] at hcomponents
  refine ⟨_, hrelative, ?_, habsolute, hcomponents, ?_, ?_⟩
  · intro htext
    have hempty : (⟨"/".intercalate (trimSkipped rest)⟩ : Path) = ⟨""⟩ := congrArg Path.mk htext
    rw [hempty] at hcomponents
    exact hbehind hcomponents.symm
  · have hnames : names ⟨"/".intercalate (trimSkipped rest)⟩ = behind := by
      rw [names, hpieces, filterMap_trimSkipped, hrest]
    rw [components_of_isAbsolute (isAbsolute_join hroot habsolute), names_join hroot habsolute,
      hnames, h, components_of_isAbsolute hroot]
    rfl
  · obtain ⟨front, hjoin, -⟩ := exists_pieces_join hroot habsolute
    rw [hjoin, hpieces, List.getLast?_append, List.getLast?_eq_some_getLast hne]
    exact isSkipped_of_getLast?_trimSkipped (List.getLast?_eq_some_getLast hne)

end Below

end BracketLint.Path
