import BracketLint.Proofs.Analysis.ReportedPlaces
import BracketLint.Proofs.Rule.Limits
import BracketLint.Proofs.Rule.ReportedGroups

/-!
The blocks that the rule about nesting reports. The depth of a block counts the blocks from itself
outwards to the body of its routine, so on the way outwards it sinks by one with every block. Each
block behind the limit is therefore covered by exactly one report of its own routine.
-/

namespace BracketLint

/-- No body of a routine stands between a group and one around it. -/
def Analysis.NoBodyBetween (analysis : Analysis) (id outer : Nat) : Prop :=
  ∀ between ∈ analysis.tree.ancestors id, outer ∈ analysis.tree.ancestors between →
    analysis.kind between ≠ .routineBody

theorem Analysis.noBodyBetween_self (analysis : Analysis) (id : Nat) :
    analysis.NoBodyBetween id id :=
  fun _ hbetween hinside => absurd hinside (GroupTree.not_mem_ancestors_of_mem hbetween)

namespace Rule

section Depth

variable {analysis : Analysis} {id outer parent : Nat}

theorem codeDepthIn_add (depth more : Nat) (ids : List Nat) :
    codeDepthIn analysis (depth + more) ids = (codeDepthIn analysis depth ids).map (· + more) := by
  induction ids generalizing depth with
  | nil => rfl
  | cons id ids ih =>
    rw [codeDepthIn, codeDepthIn]
    split
    · rfl
    · rw [Nat.add_right_comm, ih]
    · exact ih depth

theorem codeDepthIn_of_routineBody (hkind : analysis.kind id = .routineBody) (depth : Nat)
    (ids : List Nat) : codeDepthIn analysis depth (id :: ids) = some depth := by
  rw [codeDepthIn, hkind]

theorem codeDepthIn_of_codeBody (hkind : analysis.kind id = .codeBody) (depth : Nat)
    (ids : List Nat) :
    codeDepthIn analysis depth (id :: ids) = (codeDepthIn analysis depth ids).map (· + 1) := by
  rw [codeDepthIn, hkind]
  exact codeDepthIn_add depth 1 ids

theorem codeDepthIn_of_ne (hbody : analysis.kind id ≠ .routineBody)
    (hblock : analysis.kind id ≠ .codeBody) (depth : Nat) (ids : List Nat) :
    codeDepthIn analysis depth (id :: ids) = codeDepthIn analysis depth ids := by
  rw [codeDepthIn]
  split
  · next h => exact absurd h hbody
  · next h => exact absurd h hblock
  · rfl

/-- A depth is found exactly if one of the groups is the body of a routine. -/
theorem isSome_codeDepthIn (depth : Nat) (ids : List Nat) :
    (codeDepthIn analysis depth ids).isSome = ids.any (analysis.kind · == .routineBody) := by
  induction ids generalizing depth with
  | nil => rfl
  | cons id ids ih =>
    rw [codeDepthIn, List.any_cons]
    split
    · next h => rw [h]; rfl
    · next h => rw [h, ih]; rfl
    · next h _ =>
      rw [ih, beq_eq_false_iff_ne.mpr h, Bool.false_or]

theorem isSome_codeDepth? (hkind : analysis.kind id = .codeBody) :
    (codeDepth? analysis id).isSome = isInsideRoutine analysis id := by
  rw [codeDepth?, isSome_codeDepthIn, List.any_cons, hkind, isInsideRoutine]
  rfl

/-- Up to the body of the routine the depth grows by one with every block. -/
theorem codeDepthIn_append {inner : List Nat}
    (hinner : ∀ id ∈ inner, analysis.kind id ≠ .routineBody) (depth : Nat) (ids : List Nat) :
    codeDepthIn analysis depth (inner ++ ids) =
      (codeDepthIn analysis depth ids).map (· + inner.countP (analysis.kind · == .codeBody)) := by
  induction inner with
  | nil => exact (Option.map_id' ..).symm
  | cons id inner ih =>
    obtain ⟨hid, hrest⟩ := List.forall_mem_cons.mp hinner
    rw [List.cons_append, List.countP_cons]
    by_cases hblock : analysis.kind id = .codeBody
    · rw [codeDepthIn_of_codeBody hblock, ih hrest, Option.map_map, hblock]
      rfl
    · rw [codeDepthIn_of_ne hid hblock, ih hrest, beq_eq_false_iff_ne.mpr hblock]
      rfl

/-- On the way outwards, in the same routine, the depth sinks at every block. -/
theorem depth_lt_of_mem_ancestors {depth depth' : Nat} (hkind : analysis.kind id = .codeBody)
    (houter : outer ∈ analysis.tree.ancestors id) (hbetween : analysis.NoBodyBetween id outer)
    (hdepth : codeDepth? analysis id = some depth)
    (hdepth' : codeDepth? analysis outer = some depth') : depth' < depth := by
  obtain ⟨inner, hinner, hinside⟩ := GroupTree.exists_between houter
  have hbody : ∀ between ∈ inner, analysis.kind between ≠ .routineBody := by
    intro between hmem
    apply hbetween between
    · rw [hinner]
      exact List.mem_append_left _ hmem
    · exact hinside between hmem
  -- The depth is that of the outer block, the blocks in between, and one for the block itself.
  rw [codeDepth?, codeDepthIn_of_codeBody hkind, hinner, codeDepthIn_append hbody] at hdepth
  rw [codeDepth?] at hdepth'
  rw [hdepth', Option.map_some, Option.map_some, Option.some.injEq] at hdepth
  omega

/-- In a routine there is one block of a depth around a group. -/
theorem eq_of_codeDepth?_eq {outer' depth : Nat} (houter : outer ∈ id :: analysis.tree.ancestors id)
    (houter' : outer' ∈ id :: analysis.tree.ancestors id)
    (hkind : analysis.kind outer = .codeBody) (hkind' : analysis.kind outer' = .codeBody)
    (hdepth : codeDepth? analysis outer = some depth)
    (hdepth' : codeDepth? analysis outer' = some depth)
    (hbetween : analysis.NoBodyBetween id outer) (hbetween' : analysis.NoBodyBetween id outer') :
    outer = outer' := by
  -- What stands between two groups around a group also stands between that group and the outer one.
  have hrestrict {inner around : Nat} (hinner : inner ∈ id :: analysis.tree.ancestors id)
      (haround : analysis.NoBodyBetween id around) : analysis.NoBodyBetween inner around :=
    fun between hmem => haround between (GroupTree.mem_ancestors_of_mem_cons hinner hmem)
  rcases GroupTree.ancestors_total houter houter' with heq | hinside | hinside
  · exact heq
  · have hlt := depth_lt_of_mem_ancestors hkind' hinside (hrestrict houter' hbetween) hdepth' hdepth
    exact absurd hlt (Nat.lt_irrefl depth)
  · have hlt := depth_lt_of_mem_ancestors hkind hinside (hrestrict houter hbetween') hdepth hdepth'
    exact absurd hlt (Nat.lt_irrefl depth)

/-- From a group whose depth is behind a limit outwards, in the same routine, there is a block right
behind the limit. -/
theorem exists_block_of_lt {limit : Nat} (id : Nat) : ∀ {depth : Nat},
    codeDepth? analysis id = some depth → limit < depth →
      ∃ outer ∈ id :: analysis.tree.ancestors id, analysis.kind outer = .codeBody ∧
        codeDepth? analysis outer = some (limit + 1) ∧ analysis.NoBodyBetween id outer := by
  induction id using analysis.tree.outwards_induction with
  | outermost id hnone =>
    intro depth hdepth hlt
    -- Without a group around it, a group is no block of a routine.
    have hzero : depth = 0 := by
      rw [codeDepth?, hnone, codeDepthIn] at hdepth
      split at hdepth
      · exact (Option.some.inj hdepth).symm
      · cases hdepth
      · cases hdepth
    omega
  | inside id parent hancestors ih =>
    intro depth hdepth hlt
    rw [codeDepth?, hancestors] at hdepth
    -- A block around the parent lies in the same routine, as the parent's own depth is not zero.
    have hlift {depth' : Nat} (hparent : codeDepth? analysis parent = some depth')
        (hlt' : limit < depth') : ∃ outer ∈ id :: analysis.tree.ancestors id,
          analysis.kind outer = .codeBody ∧ codeDepth? analysis outer = some (limit + 1) ∧
            analysis.NoBodyBetween id outer := by
      obtain ⟨outer, houter, hkind, hlimit, hbetween⟩ := ih hparent hlt'
      refine ⟨outer, ?_, hkind, hlimit, ?_⟩
      · rw [hancestors]
        exact List.mem_cons_of_mem id houter
      · intro between hmem hinside
        rw [hancestors] at hmem
        rcases List.mem_cons.mp hmem with rfl | hmem
        · intro hbody
          rw [codeDepth?, codeDepthIn_of_routineBody hbody, Option.some.injEq] at hparent
          omega
        · exact hbetween between hmem hinside
    by_cases hbody : analysis.kind id = .routineBody
    · rw [codeDepthIn_of_routineBody hbody, Option.some.injEq] at hdepth
      omega
    by_cases hblock : analysis.kind id = .codeBody
    · have hid := hdepth
      rw [codeDepthIn_of_codeBody hblock, Option.map_eq_some_iff] at hdepth
      obtain ⟨depth', hparent, rfl⟩ := hdepth
      rcases Nat.eq_or_lt_of_le (Nat.le_of_lt_succ hlt) with rfl | hlt'
      · refine ⟨id, List.mem_cons_self, hblock, ?_, analysis.noBodyBetween_self id⟩
        rw [codeDepth?, hancestors, hid]
      · exact hlift hparent hlt'
    · rw [codeDepthIn_of_ne hbody hblock] at hdepth
      exact hlift hdepth hlt

theorem existsUnique_block_of_lt {limit depth : Nat} (hdepth : codeDepth? analysis id = some depth)
    (hlt : limit < depth) : ∃! outer, (analysis.kind outer = .codeBody ∧
      codeDepth? analysis outer = some (limit + 1)) ∧ outer ∈ id :: analysis.tree.ancestors id ∧
        analysis.NoBodyBetween id outer := by
  obtain ⟨outer, houter, hkind, hlimit, hbetween⟩ := exists_block_of_lt id hdepth hlt
  refine ⟨outer, ⟨⟨hkind, hlimit⟩, houter, hbetween⟩, ?_⟩
  rintro outer' ⟨⟨hkind', hlimit'⟩, houter', hbetween'⟩
  exact eq_of_codeDepth?_eq houter' houter hkind' hkind hlimit' hlimit hbetween' hbetween

/-- In the analysis of a file every block is a group of the tree. -/
theorem blockDepth?_eq_some_iff {source : Bytes} {kind : FileKind} {options : ScrubOptions}
    {depth : Nat} : blockDepth? (Analysis.ofSource source kind options) id = some depth ↔
      (Analysis.ofSource source kind options).kind id = .codeBody ∧
        codeDepth? (Analysis.ofSource source kind options) id = some depth := by
  rw [blockDepth?]
  constructor
  · intro hdepth
    split at hdepth
    · next hblock =>
      rw [Bool.and_eq_true, beq_iff_eq] at hblock
      exact ⟨hblock.2, hdepth⟩
    · cases hdepth
  · rintro ⟨hkind, hdepth⟩
    have hexecutable : ((Analysis.ofSource source kind options).kind id).isExecutable = true := by
      rw [hkind]
      rfl
    obtain ⟨group, hgroup⟩ := Analysis.exists_group_of_isExecutable hexecutable
    rw [hgroup, hkind]
    exact hdepth

end Depth

section Reports

variable (source : Bytes) (options : ScrubOptions) {file : FileContext} (maxDepth : Nat)
  {allow : Bool} (severity : Severity) (hfile : (allow && file.kind.isTest) = false)
include hfile

theorem reportsGroups_nestingDepth (analysis : Analysis) :
    (nestingDepth maxDepth allow severity).ReportsGroups file analysis
      (deepBlock? maxDepth severity (nestingDepth maxDepth allow severity) file analysis) where
  not_skipped := hfile
  violations_eq := rfl
  location_eq hv := by
    obtain ⟨group, hgroup, -, hlocation, -⟩ := exists_group_of_deepBlock? hv
    exact ⟨group, hgroup, hlocation⟩

theorem reports_nestingDepth_iff (id : Nat) :
    let analysis := Analysis.ofSource source file.kind options
    (nestingDepth maxDepth allow severity).Reports file analysis id ↔
      analysis.kind id = .codeBody ∧ codeDepth? analysis id = some (maxDepth + 1) := by
  intro analysis
  rw [(reportsGroups_nestingDepth maxDepth severity hfile analysis).reports_iff
    (Analysis.wellNested_ofSource source file.kind options), Option.isSome_iff_ne_none, ne_eq,
    deepBlock?_eq_none_iff, not_not, blockDepth?_eq_some_iff]

end Reports

/-- The rule about nesting reports exactly the blocks right behind its limit, each once. Every block
of a routine that is deeper than the limit is covered by exactly one report: that on itself or on a
block around it in the same routine. Blocks within the limit and those outside of routines are not
reported. -/
theorem check_nestingDepth (source : Bytes) (options : ScrubOptions) {file : FileContext}
    (maxDepth : Nat) {allow : Bool} (severity : Severity)
    (hfile : (allow && file.kind.isTest) = false) :
    let analysis := Analysis.ofSource source file.kind options
    let rule := nestingDepth maxDepth allow severity
    (∀ v ∈ rule.check file analysis, ∃ id group, rule.Reports file analysis id ∧
      analysis.tree.group? id = some group ∧ v.location = file.location group.opened) ∧
    ((rule.check file analysis).map (·.location)).Nodup ∧
    (∀ id, rule.Reports file analysis id ↔
      analysis.kind id = .codeBody ∧ codeDepth? analysis id = some (maxDepth + 1)) ∧
    (∀ id, analysis.kind id = .codeBody → isInsideRoutine analysis id = true →
      ∃ depth, codeDepth? analysis id = some depth ∧
        (maxDepth < depth → ∃! outer, rule.Reports file analysis outer ∧
          outer ∈ id :: analysis.tree.ancestors id ∧ analysis.NoBodyBetween id outer) ∧
        (depth ≤ maxDepth → ¬rule.Reports file analysis id)) ∧
    ∀ id, isInsideRoutine analysis id = false → ¬rule.Reports file analysis id := by
  intro analysis rule
  have hreports := reportsGroups_nestingDepth maxDepth severity hfile analysis
  have hnested : analysis.tree.WellNested analysis.lines :=
    Analysis.wellNested_ofSource source file.kind options
  have hiff (id : Nat) : rule.Reports file analysis id ↔
      analysis.kind id = .codeBody ∧ codeDepth? analysis id = some (maxDepth + 1) :=
    reports_nestingDepth_iff source options maxDepth severity hfile id
  refine ⟨fun v hv => hreports.exists_reports hv, hreports.nodup_locations hnested, hiff, ?_, ?_⟩
  · intro id hkind hroutine
    rw [← isSome_codeDepth? hkind] at hroutine
    obtain ⟨depth, hdepth⟩ := Option.isSome_iff_exists.mp hroutine
    refine ⟨depth, hdepth, fun hlt => ?_, fun hle hid => ?_⟩
    · simp only [hiff]
      exact existsUnique_block_of_lt hdepth hlt
    · rw [hiff, hdepth, Option.some.injEq] at hid
      omega
  · intro id hroutine hid
    obtain ⟨hkind, hdepth⟩ := (hiff id).mp hid
    have hsome := isSome_codeDepth? hkind
    rw [hdepth, hroutine] at hsome
    cases hsome

/-- With a limit of three blocks, the innermost one of five blocks is covered by a report. -/
theorem check_nestingDepth_innermost :
    let file : FileContext := ⟨⟨"/p/a.cpp"⟩, ⟨"a.cpp"⟩, .implementation, deepText⟩
    let analysis := Analysis.ofSource deepText file.kind {}
    let rule := nestingDepth 3 false .warning
    (false && file.kind.isTest) = false ∧ codeDepth? analysis 6 = some 5 ∧
      ¬rule.Reports file analysis 6 ∧ ∃! outer, rule.Reports file analysis outer ∧
        outer ∈ 6 :: analysis.tree.ancestors 6 ∧ analysis.NoBodyBetween 6 outer := by
  intro file analysis rule
  have hfile : (false && file.kind.isTest) = false := rfl
  have hkind : analysis.kind 6 = .codeBody := by decide +kernel
  have hdepth : codeDepth? analysis 6 = some 5 := by decide +kernel
  have hroutine : isInsideRoutine analysis 6 = true := by decide +kernel
  obtain ⟨-, -, hreports, hcovered, -⟩ := check_nestingDepth deepText {} 3 .warning hfile
  obtain ⟨depth, hdepth', hbehind, -⟩ := hcovered 6 hkind hroutine
  obtain rfl : 5 = depth := Option.some.inj (hdepth.symm.trans hdepth')
  refine ⟨hfile, hdepth, ?_, hbehind (by decide)⟩
  rw [hreports, hdepth]
  rintro ⟨-, heq⟩
  cases heq

end Rule
end BracketLint
