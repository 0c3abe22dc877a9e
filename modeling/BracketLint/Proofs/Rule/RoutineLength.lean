import BracketLint.Proofs.Analysis.ReportedPlaces
import BracketLint.Proofs.Rule.Limits
import BracketLint.Proofs.Rule.ReportedGroups

/-!
The bodies that the rule about long routines reports. Only the outermost bodies are measured. The
lines of a body are lines of all bodies around it, so no long body lies outside of those reported, and
as groups are nested, the bodies reported have nothing in common.
-/

namespace BracketLint
open scoped Place

namespace GroupTree

variable {lines : Lines} {tree : GroupTree} {id outer : Nat}

/-- The brackets of a group stand at or between those of another one. -/
def LiesIn (tree : GroupTree) (id outer : Nat) : Prop :=
  ∃ group around, tree.group? id = some group ∧ tree.group? outer = some around ∧
    around.opened ≤ group.opened ∧ group.closed ≤ around.closed

/-- Two groups have no position in common. -/
def Apart (tree : GroupTree) (id outer : Nat) : Prop :=
  ∀ p, tree.containsAt p id = true → tree.containsAt p outer = false

theorem LiesIn.lineSpan_le {group around : Group} (h : tree.LiesIn id outer)
    (hgroup : tree.group? id = some group) (haround : tree.group? outer = some around) :
    group.lineSpan ≤ around.lineSpan := by
  obtain ⟨group', around', hgroup', haround', hopened, hclosed⟩ := h
  obtain rfl := Option.some.inj (hgroup.symm.trans hgroup')
  obtain rfl := Option.some.inj (haround.symm.trans haround')
  have hfirst := Place.line_le_of_le hopened
  have hlast := Place.line_le_of_le hclosed
  rw [Group.lineSpan, Group.lineSpan]
  omega

theorem LiesIn.exists_around (h : tree.LiesIn id outer) :
    ∃ around, tree.group? outer = some around := by
  obtain ⟨-, around, -, haround, -⟩ := h
  exact ⟨around, haround⟩

section WellNested

variable (hnested : tree.WellNested lines)
include hnested

/-- A group lies in itself and in the groups around it. -/
theorem WellNested.liesIn_of_mem {group : Group} (hgroup : tree.group? id = some group)
    (houter : outer ∈ id :: tree.ancestors id) : tree.LiesIn id outer := by
  rcases List.mem_cons.mp houter with rfl | houter
  · exact ⟨group, group, hgroup, hgroup, le_refl _, le_refl _⟩
  · obtain ⟨around, haround, hopened, hclosed⟩ := hnested.exists_around hgroup houter
    exact ⟨group, around, hgroup, haround, hopened, hclosed⟩

/-- A group that lies in two others keeps them from being apart. -/
theorem WellNested.not_apart_of_liesIn {outer' : Nat} (h : tree.LiesIn id outer)
    (h' : tree.LiesIn id outer') : ¬tree.Apart outer outer' := by
  obtain ⟨group, around, hgroup, haround, hopened, hclosed⟩ := h
  obtain ⟨group', around', hgroup', haround', hopened', hclosed'⟩ := h'
  obtain rfl := Option.some.inj (hgroup.symm.trans hgroup')
  have hle := hnested.opened_le_closed hgroup
  have hfirst : tree.containsAt group.opened outer = true :=
    containsAt_iff.mpr ⟨around, haround, hopened, le_trans hle hclosed⟩
  have hfirst' : tree.containsAt group.opened outer' = true :=
    containsAt_iff.mpr ⟨around', haround', hopened', le_trans hle hclosed'⟩
  intro hapart
  rw [hapart group.opened hfirst] at hfirst'
  cases hfirst'

end WellNested

end GroupTree

namespace Rule

section Bodies

variable {analysis : Analysis} {id outer : Nat}

theorem sublist_filterMap {α β : Type} {f g : α → Option β}
    (h : ∀ a b, f a = some b → g a = some b) (l : List α) :
    (l.filterMap f).Sublist (l.filterMap g) := by
  induction l with
  | nil => exact .slnil
  | cons a l ih =>
    cases hfa : f a with
    | none =>
      rw [List.filterMap_cons_none hfa]
      exact ih.trans ((List.sublist_cons_self a l).filterMap g)
    | some b =>
      rw [List.filterMap_cons_some hfa, List.filterMap_cons_some (h a b hfa)]
      exact ih.cons_cons b

/-- Around every body of a routine, or at it, there is an outermost one. -/
theorem exists_outermost_body (id : Nat) (hkind : analysis.kind id = .routineBody) :
    ∃ outer ∈ id :: analysis.tree.ancestors id, analysis.kind outer = .routineBody ∧
      isInsideRoutine analysis outer = false := by
  -- The next body outwards has fewer groups around it.
  induction hdepth : analysis.tree.depth id using Nat.strong_induction_on generalizing id with
  | _ depth ih =>
    cases hinside : isInsideRoutine analysis id with
    | false => exact ⟨id, List.mem_cons_self, hkind, hinside⟩
    | true =>
      rw [isInsideRoutine, List.any_eq_true] at hinside
      obtain ⟨body, hbody, hroutine⟩ := hinside
      have hlt := GroupTree.depth_lt_of_mem_ancestors hbody
      obtain ⟨outer, houter, hresult⟩ :=
        ih (analysis.tree.depth body) (hdepth ▸ hlt) body (beq_iff_eq.mp hroutine) rfl
      refine ⟨outer, List.mem_cons_of_mem id ?_, hresult⟩
      rcases List.mem_cons.mp houter with rfl | houter
      · exact hbody
      · exact GroupTree.mem_ancestors_of_mem hbody houter

theorem not_mem_ancestors_of_outermost (hkind : analysis.kind outer = .routineBody)
    (hinside : isInsideRoutine analysis id = false) : outer ∉ analysis.tree.ancestors id := by
  intro houter
  have hany : isInsideRoutine analysis id = true := by
    rw [isInsideRoutine, List.any_eq_true]
    exact ⟨outer, houter, beq_iff_eq.mpr hkind⟩
  rw [hany] at hinside
  cases hinside

theorem bodyLines?_eq_some_iff {span : Nat} : bodyLines? analysis id = some span ↔
    analysis.kind id = .routineBody ∧ isInsideRoutine analysis id = false ∧
      ∃ group, analysis.tree.group? id = some group ∧ group.lineSpan = span := by
  rw [bodyLines?, Option.ite_none_right_eq_some, Bool.and_eq_true, beq_iff_eq,
    Bool.not_eq_true', Option.map_eq_some_iff, and_assoc]

end Bodies

section Reports

variable {file : FileContext} {analysis : Analysis} {id id' maxLines : Nat} {allow : Bool}
  {severity : Severity} (hfile : (allow && file.kind.isTest) = false)
include hfile

theorem reportsGroups_routineLength :
    (routineLength maxLines allow severity).ReportsGroups file analysis
      (longRoutine? maxLines severity (routineLength maxLines allow severity) file analysis) where
  not_skipped := hfile
  violations_eq := rfl
  location_eq hv := by
    obtain ⟨group, hgroup, -, hlocation, -⟩ := exists_group_of_longRoutine? hv
    exact ⟨group, hgroup, hlocation⟩

/-- With a higher limit the rule reports some of the places it reported before. -/
theorem sublist_locations_check {higher : Nat} (hle : maxLines ≤ higher) :
    (((routineLength higher allow severity).check file analysis).map (·.location)).Sublist
      (((routineLength maxLines allow severity).check file analysis).map (·.location)) := by
  have hreports (limit : Nat) : (routineLength limit allow severity).ReportsGroups file analysis
      (longRoutine? limit severity (routineLength limit allow severity) file analysis) :=
    reportsGroups_routineLength hfile
  rw [(hreports higher).check_eq, (hreports maxLines).check_eq, List.map_filterMap,
    List.map_filterMap]
  apply sublist_filterMap
  intro id location hlocation
  obtain ⟨v, hv, rfl⟩ := Option.map_eq_some_iff.mp hlocation
  have hlong : longRoutine? maxLines severity (routineLength maxLines allow severity) file
      analysis id ≠ none := by
    intro hnone
    rw [longRoutine?_eq_none_iff] at hnone
    have hnone' := (longRoutine?_eq_none_iff higher severity (routineLength higher allow severity)
      file analysis id).mpr fun span hspan => (hnone span hspan).trans hle
    rw [hnone'] at hv
    cases hv
  -- The two reports differ in their messages, which tell the limit, but not in their places.
  obtain ⟨w, hw⟩ := Option.ne_none_iff_exists'.mp hlong
  obtain ⟨group, hgroup, hopened⟩ := (hreports higher).location_eq hv
  obtain ⟨group', hgroup', hopened'⟩ := (hreports maxLines).location_eq hw
  obtain rfl := Option.some.inj (hgroup.symm.trans hgroup')
  rw [hw, Option.map_some, hopened, hopened']

variable (hnested : analysis.tree.WellNested analysis.lines)
include hnested

/-- The bodies reported are the outermost ones with more lines than the limit. -/
theorem reports_routineLength_iff (id : Nat) :
    (routineLength maxLines allow severity).Reports file analysis id ↔
      analysis.kind id = .routineBody ∧ isInsideRoutine analysis id = false ∧
        ∃ group, analysis.tree.group? id = some group ∧ maxLines < group.lineSpan := by
  rw [(reportsGroups_routineLength hfile).reports_iff hnested, Option.isSome_iff_ne_none, ne_eq,
    longRoutine?_eq_none_iff, not_forall]
  constructor
  · rintro ⟨span, hspan⟩
    obtain ⟨hbody, hlong⟩ := Classical.not_imp.mp hspan
    obtain ⟨hkind, hinside, group, hgroup, rfl⟩ := bodyLines?_eq_some_iff.mp hbody
    exact ⟨hkind, hinside, group, hgroup, Nat.lt_of_not_le hlong⟩
  · rintro ⟨hkind, hinside, group, hgroup, hlong⟩
    have hbody := bodyLines?_eq_some_iff.mpr ⟨hkind, hinside, group, hgroup, rfl⟩
    exact ⟨group.lineSpan, Classical.not_imp.mpr ⟨hbody, Nat.not_le_of_lt hlong⟩⟩

/-- Different bodies that are reported have nothing in common. -/
theorem apart_of_reports (hordered : ∀ id, (analysis.tree.children id).Pairwise (· < ·))
    (hid : (routineLength maxLines allow severity).Reports file analysis id)
    (hid' : (routineLength maxLines allow severity).Reports file analysis id') (hne : id ≠ id') :
    analysis.tree.Apart id id' := by
  intro p hcontains
  obtain ⟨hkind, hinside, -⟩ := (reports_routineLength_iff hfile hnested id).mp hid
  obtain ⟨hkind', hinside', -⟩ := (reports_routineLength_iff hfile hnested id').mp hid'
  rw [Bool.eq_false_iff]
  intro hcontains'
  -- Two groups that share a position are nested, and then the inner one is not outermost.
  rcases hnested.ancestors_total_of_containsAt hordered hcontains hcontains' with heq | hmem | hmem
  · exact hne heq
  · exact not_mem_ancestors_of_outermost hkind hinside' hmem
  · exact not_mem_ancestors_of_outermost hkind' hinside hmem

/-- A long body, nested or not, lies in exactly one body that is reported. -/
theorem existsUnique_reported (hordered : ∀ id, (analysis.tree.children id).Pairwise (· < ·))
    {group : Group} (hgroup : analysis.tree.group? id = some group)
    (hkind : analysis.kind id = .routineBody) (hlong : maxLines < group.lineSpan) :
    ∃! outer, (routineLength maxLines allow severity).Reports file analysis outer ∧
      analysis.tree.LiesIn id outer := by
  obtain ⟨outer, houter, hbody, hinside⟩ := exists_outermost_body id hkind
  have hlies := hnested.liesIn_of_mem hgroup houter
  obtain ⟨around, haround⟩ := hlies.exists_around
  -- The outermost body around has the lines of this one and is long as well.
  have hreported : (routineLength maxLines allow severity).Reports file analysis outer := by
    apply (reports_routineLength_iff hfile hnested outer).mpr
    exact ⟨hbody, hinside, around, haround, hlong.trans_le (hlies.lineSpan_le hgroup haround)⟩
  refine ⟨outer, ⟨hreported, hlies⟩, ?_⟩
  rintro outer' ⟨hreported', hlies'⟩
  by_contra hne
  have hapart := apart_of_reports hfile hnested hordered hreported' hreported hne
  exact hnested.not_apart_of_liesIn hlies' hlies hapart

end Reports

/-- The rule about long routines reports exactly the outermost bodies with more lines than its limit,
each once. The bodies reported have nothing in common, and every body with more lines than the limit,
nested or not, lies in exactly one of them. A higher limit only takes reports away. -/
theorem check_routineLength (source : Bytes) (options : ScrubOptions) {file : FileContext}
    (maxLines : Nat) {allow : Bool} (severity : Severity)
    (hfile : (allow && file.kind.isTest) = false) :
    let analysis := Analysis.ofSource source file.kind options
    let rule := routineLength maxLines allow severity
    (∀ v ∈ rule.check file analysis, ∃ id group, rule.Reports file analysis id ∧
      analysis.tree.group? id = some group ∧ v.location = file.location group.opened) ∧
    ((rule.check file analysis).map (·.location)).Nodup ∧
    (∀ id, rule.Reports file analysis id ↔
      analysis.kind id = .routineBody ∧ isInsideRoutine analysis id = false ∧
        ∃ group, analysis.tree.group? id = some group ∧ maxLines < group.lineSpan) ∧
    (∀ id id', rule.Reports file analysis id → rule.Reports file analysis id' → id ≠ id' →
      analysis.tree.Apart id id') ∧
    (∀ id group, analysis.tree.group? id = some group → analysis.kind id = .routineBody →
      maxLines < group.lineSpan →
        ∃! outer, rule.Reports file analysis outer ∧ analysis.tree.LiesIn id outer) ∧
    ∀ higher, maxLines ≤ higher →
      (((routineLength higher allow severity).check file analysis).map (·.location)).Sublist
        ((rule.check file analysis).map (·.location)) := by
  intro analysis rule
  have hreports : rule.ReportsGroups file analysis
      (longRoutine? maxLines severity rule file analysis) := reportsGroups_routineLength hfile
  have hnested : analysis.tree.WellNested analysis.lines :=
    Analysis.wellNested_ofSource source file.kind options
  have hordered : ∀ id, (analysis.tree.children id).Pairwise (· < ·) :=
    Analysis.ordered_children_ofSource source file.kind options
  refine ⟨fun v hv => hreports.exists_reports hv, hreports.nodup_locations hnested,
    reports_routineLength_iff hfile hnested, ?_, ?_, ?_⟩
  · intro id id' hid hid' hne
    exact apart_of_reports hfile hnested hordered hid hid' hne
  · intro id group hgroup hkind hlong
    exact existsUnique_reported hfile hnested hordered hgroup hkind hlong
  · intro higher hle
    exact sublist_locations_check hfile hle

/-- Two lambda expressions of two lines, one inside the other. -/
def nestedText : Bytes :=
  [Ascii.openBracket, Ascii.closeBracket, Ascii.openBrace, Ascii.openBracket, Ascii.closeBracket,
    Ascii.openBrace, Ascii.lineFeed, Ascii.closeBrace, Ascii.closeBrace]

/-- With a limit of one line the inner lambda expression lies in the one body that is reported. -/
theorem check_routineLength_nested :
    let file : FileContext := ⟨⟨"/p/a.cpp"⟩, ⟨"a.cpp"⟩, .implementation, nestedText⟩
    let analysis := Analysis.ofSource nestedText file.kind {}
    let rule := routineLength 1 false .warning
    (false && file.kind.isTest) = false ∧ analysis.kind 2 = .routineBody ∧
      isInsideRoutine analysis 2 = true ∧
        ∃! outer, rule.Reports file analysis outer ∧ analysis.tree.LiesIn 2 outer := by
  intro file analysis rule
  have hfile : (false && file.kind.isTest) = false := rfl
  have hkind : analysis.kind 2 = .routineBody := by decide +kernel
  have hinside : isInsideRoutine analysis 2 = true := by decide +kernel
  have hspan : (analysis.tree.group? 2).map (·.lineSpan) = some 2 := by decide +kernel
  obtain ⟨group, hgroup, hlines⟩ := Option.map_eq_some_iff.mp hspan
  obtain ⟨-, -, -, -, hcovered, -⟩ := check_routineLength nestedText {} 1 .warning hfile
  have hlong : 1 < group.lineSpan := hlines ▸ Nat.one_lt_two
  exact ⟨hfile, hkind, hinside, hcovered 2 group hgroup hkind hlong⟩

end Rule
end BracketLint
