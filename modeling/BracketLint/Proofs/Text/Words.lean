import Mathlib.Data.List.Basic
import BracketLint.Text.Blank

/-!
Texts put together from words. What stands between two separators is found again by splitting, if no
piece holds the separator, and blanks around a word are trimmed away, if the word has none at its
ends.
-/

namespace BracketLint.Text

theorem split_ne_nil (separator : Char) (cs : List Char) : split separator cs ≠ [] := by
  cases cs with
  | nil => exact List.cons_ne_nil _ _
  | cons c cs =>
    rw [split]
    split
    · exact List.cons_ne_nil _ _
    · split <;> exact List.cons_ne_nil _ _

theorem split_cons_self (separator : Char) (cs : List Char) :
    split separator (separator :: cs) = [] :: split separator cs := by
  rw [split, if_pos (beq_self_eq_true _)]

/-- A separator between two texts ends the last piece of the first one. -/
theorem split_append_cons (separator : Char) (front behind : List Char) :
    split separator (front ++ separator :: behind) =
      split separator front ++ split separator behind := by
  induction front with
  | nil => exact split_cons_self separator behind
  | cons c front ih =>
    by_cases hc : (c == separator) = true
    · rw [List.cons_append, split, if_pos hc, ih, split, if_pos hc]
      rfl
    · obtain ⟨piece, pieces, hpieces⟩ := List.exists_cons_of_ne_nil (split_ne_nil separator front)
      rw [List.cons_append, split, if_neg hc, ih, split, if_neg hc, hpieces]
      rfl

theorem split_of_not_mem {separator : Char} {cs : List Char} (h : separator ∉ cs) :
    split separator cs = [cs] := by
  induction cs with
  | nil => rfl
  | cons c cs ih =>
    rw [List.mem_cons, not_or] at h
    rw [split, if_neg (by rw [beq_iff_eq]; exact Ne.symm h.1), ih h.2]

theorem not_mem_of_mem_split {separator : Char} {cs piece : List Char}
    (h : piece ∈ split separator cs) : separator ∉ piece := by
  induction cs generalizing piece with
  | nil =>
    rw [split, List.mem_singleton] at h
    rw [h]
    exact List.not_mem_nil
  | cons c cs ih =>
    rw [split] at h
    split at h
    · rcases List.mem_cons.mp h with rfl | hmem
      · exact List.not_mem_nil
      · exact ih hmem
    next hc =>
    split at h
    next hnil => exact absurd hnil (split_ne_nil separator cs)
    next first pieces hpieces =>
    have hne : separator ≠ c := fun heq => hc (beq_iff_eq.mpr heq.symm)
    rcases List.mem_cons.mp h with rfl | hmem
    · rw [List.mem_cons, not_or]
      exact ⟨hne, ih (by rw [hpieces]; exact List.mem_cons_self)⟩
    · exact ih (by rw [hpieces]; exact List.mem_cons_of_mem _ hmem)

/-- Pieces put together by a separator that none of them holds are found again. -/
theorem split_intercalate {separator : Char} {pieces : List (List Char)} (hne : pieces ≠ [])
    (h : ∀ piece ∈ pieces, separator ∉ piece) :
    split separator ([separator].intercalate pieces) = pieces := by
  induction pieces with
  | nil => exact absurd rfl hne
  | cons first rest ih =>
    have hfirst := split_of_not_mem (h first List.mem_cons_self)
    cases rest with
    | nil => rw [List.intercalate_singleton, hfirst]
    | cons next rest =>
      have hrest := ih (List.cons_ne_nil _ _) fun piece hmem =>
        h piece (List.mem_cons_of_mem _ hmem)
      rw [List.intercalate_cons_cons, List.append_assoc, List.singleton_append, split_append_cons,
        hfirst, hrest]
      rfl

/-- A word is a piece in front of the last one if it stands between two separators, or at the start
and in front of a separator. -/
theorem mem_dropLast_split_iff {separator : Char} {cs word : List Char} (hword : separator ∉ word) :
    word ∈ (split separator cs).dropLast ↔
      ∃ front behind, cs = front ++ (word ++ separator :: behind) ∧
        (front = [] ∨ ∃ before, front = before ++ [separator]) := by
  constructor
  · intro hmem
    -- The induction takes off the first piece, whatever its length.
    induction hlength : cs.length using Nat.strongRecOn generalizing cs with
    | ind length ih =>
      by_cases hcs : separator ∈ cs
      · obtain ⟨first, rest, rfl, hfirst⟩ := List.eq_append_cons_of_mem hcs
        rw [split_append_cons, split_of_not_mem hfirst, List.singleton_append,
          List.dropLast_cons_of_ne_nil (split_ne_nil separator rest)] at hmem
        rcases List.mem_cons.mp hmem with rfl | hmem
        · exact ⟨[], rest, rfl, .inl rfl⟩
        · have hlt : rest.length < length := by
            rw [← hlength, List.length_append, List.length_cons]
            omega
          obtain ⟨front, behind, rfl, hfront⟩ := ih rest.length hlt hmem rfl
          refine ⟨first ++ separator :: front, behind, by simp, .inr ?_⟩
          rcases hfront with rfl | ⟨before, rfl⟩
          · exact ⟨first, rfl⟩
          · exact ⟨first ++ separator :: before, by simp⟩
      · rw [split_of_not_mem hcs] at hmem
        cases hmem
  · rintro ⟨front, behind, rfl, hfront⟩
    have hpieces : split separator (word ++ separator :: behind) =
        word :: split separator behind := by
      rw [split_append_cons, split_of_not_mem hword, List.singleton_append]
    have hmem : word ∈ (word :: split separator behind).dropLast := by
      rw [List.dropLast_cons_of_ne_nil (split_ne_nil separator behind)]
      exact List.mem_cons_self
    rcases hfront with rfl | ⟨before, rfl⟩
    · rwa [List.nil_append, hpieces]
    · rw [List.append_assoc, List.singleton_append, split_append_cons, hpieces,
        List.dropLast_append_of_ne_nil (List.cons_ne_nil _ _)]
      exact List.mem_append_right _ hmem

/-- A text with no blank at its ends. -/
structure IsTrimmed (cs : List Char) : Prop where
  head : ∀ c, cs.head? = some c → isBlank c = false
  last : ∀ c, cs.getLast? = some c → isBlank c = false

theorem dropWhile_isBlank_of_head {cs : List Char} (h : ∀ c, cs.head? = some c → isBlank c = false) :
    cs.dropWhile isBlank = cs := by
  cases cs with
  | nil => rfl
  | cons c cs => exact List.dropWhile_cons_of_neg (Bool.eq_false_iff.mp (h c rfl))

/-- Blanks in front of a trimmed text are all that trimming takes away. -/
theorem trim_append {blanks cs : List Char} (hblanks : ∀ c ∈ blanks, isBlank c = true)
    (h : IsTrimmed cs) : trim (blanks ++ cs) = cs := by
  have hstart : trimStart (blanks ++ cs) = cs := by
    rw [trimStart, List.dropWhile_append_of_pos hblanks, dropWhile_isBlank_of_head h.head]
  have hend : cs.reverse.dropWhile isBlank = cs.reverse := by
    apply dropWhile_isBlank_of_head
    rw [List.head?_reverse]
    exact h.last
  rw [trim, hstart, trimEnd, hend, List.reverse_reverse]

theorem trim_of_isTrimmed {cs : List Char} (h : IsTrimmed cs) : trim cs = cs :=
  trim_append (fun _ hc => absurd hc List.not_mem_nil) h

theorem trim_cons_space {cs : List Char} (h : IsTrimmed cs) : trim (' ' :: cs) = cs := by
  have hspace : ∀ c ∈ [' '], isBlank c = true := by
    intro c hc
    rw [List.mem_singleton.mp hc]
    rfl
  exact trim_append hspace h

/-- What stands in front of a trimmed text may hold blanks, if it does not start with one. -/
theorem isTrimmed_append {first : Char} (hfirst : isBlank first = false) {cs : List Char}
    (hne : cs ≠ []) (h : IsTrimmed cs) (front : List Char) : IsTrimmed (first :: front ++ cs) where
  head c hc := by
    obtain rfl := Option.some.inj hc
    exact hfirst
  last c hc := by
    rw [List.getLast?_append, List.getLast?_eq_some_getLast hne, Option.some_or,
      ← List.getLast?_eq_some_getLast hne] at hc
    exact h.last c hc

theorem isTrimmed_singleton {c : Char} (hc : isBlank c = false) : IsTrimmed [c] where
  head d hd := by
    obtain rfl := Option.some.inj hd
    exact hc
  last d hd := by
    obtain rfl := Option.some.inj hd
    exact hc

end BracketLint.Text
