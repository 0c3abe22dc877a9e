import BracketLint.Proofs.Analysis.Locations
import BracketLint.Proofs.Group.Ancestors

/-!
The groups that a rule reports. A rule about groups looks at one group after another and reports some
of them at their opening brackets. No two groups open at the same location, so the location of a
violation tells which group it is about, and a group is reported once at most.
-/

namespace BracketLint
open scoped Place

/-- The location of a position on a line tells the position. -/
theorem FileContext.eq_of_location_eq {file : FileContext} {p q : Place} (hp : p ≠ .front)
    (hq : q ≠ .front) (h : file.location p = file.location q) : p = q := by
  cases p with
  | front => exact absurd rfl hp
  | on line column =>
    cases q with
    | front => exact absurd rfl hq
    | on line' column' =>
      have hline : line = line' := congrArg Location.line h
      have hcolumn : column + 1 = column' + 1 := congrArg Location.column h
      rw [hline, Nat.succ.inj hcolumn]

theorem Analysis.wellNested_ofSource (source : Bytes) (kind : FileKind) (options : ScrubOptions) :
    (ofSource source kind options).tree.WellNested (ofSource source kind options).lines :=
  GroupTree.wellNested_ofForest (Forest.word_ofBrackets_sublist _) (Forest.height_ofBrackets_le _)

theorem Analysis.ordered_children_ofSource (source : Bytes) (kind : FileKind)
    (options : ScrubOptions) (id : Nat) :
    ((ofSource source kind options).tree.children id).Pairwise (· < ·) :=
  GroupTree.ascending_children_ofForest _ _ _ id

/-- A group that holds statements is a group of the tree. -/
theorem Analysis.exists_group_of_isExecutable {source : Bytes} {kind : FileKind}
    {options : ScrubOptions} {id : Nat}
    (h : ((ofSource source kind options).kind id).isExecutable = true) :
    ∃ group, (ofSource source kind options).tree.group? id = some group := by
  obtain ⟨group, hgroup, -⟩ := Record.byteAt_of_isExecutable _ h
  exact ⟨group, hgroup⟩

namespace Rule

/-- A violation of a rule in a file stands at the opening bracket of a group. -/
def Reports (rule : Rule) (file : FileContext) (analysis : Analysis) (id : Nat) : Prop :=
  ∃ group, analysis.tree.group? id = some group ∧
    ∃ v ∈ rule.check file analysis, v.location = file.location group.opened

/-- A rule that does not leave a file alone reports groups of it: it looks at all of them in order,
and what it reports about a group stands at the opening bracket. -/
structure ReportsGroups (rule : Rule) (file : FileContext) (analysis : Analysis)
    (report : Nat → Option Violation) : Prop where
  not_skipped : (rule.allowsInTests && file.kind.isTest) = false
  violations_eq : rule.violations file analysis = analysis.tree.walk.filterMap report
  location_eq : ∀ {id : Nat} {v : Violation}, report id = some v →
    ∃ group, analysis.tree.group? id = some group ∧ v.location = file.location group.opened

namespace ReportsGroups

variable {rule : Rule} {file : FileContext} {analysis : Analysis} {report : Nat → Option Violation}
  (hreports : rule.ReportsGroups file analysis report)
include hreports

theorem check_eq : rule.check file analysis = analysis.tree.walk.filterMap report := by
  rw [check, hreports.not_skipped, if_neg Bool.false_ne_true, hreports.violations_eq]

theorem exists_reported {v : Violation} (hv : v ∈ rule.check file analysis) :
    ∃ id group, report id = some v ∧ analysis.tree.group? id = some group ∧
      v.location = file.location group.opened := by
  rw [hreports.check_eq] at hv
  obtain ⟨id, -, hid⟩ := List.mem_filterMap.mp hv
  obtain ⟨group, hgroup, hlocation⟩ := hreports.location_eq hid
  exact ⟨id, group, hid, hgroup, hlocation⟩

/-- Every violation stands at a group that is reported. -/
theorem exists_reports {v : Violation} (hv : v ∈ rule.check file analysis) :
    ∃ id group, rule.Reports file analysis id ∧ analysis.tree.group? id = some group ∧
      v.location = file.location group.opened := by
  obtain ⟨id, group, -, hgroup, hlocation⟩ := hreports.exists_reported hv
  exact ⟨id, group, ⟨group, hgroup, v, hv, hlocation⟩, hgroup, hlocation⟩

variable (hnested : analysis.tree.WellNested analysis.lines)
include hnested

/-- What is reported at the opening bracket of a group is the report about that group. -/
theorem eq_of_location_eq {id id' : Nat} {group : Group} {v : Violation}
    (hgroup : analysis.tree.group? id = some group) (hv : report id' = some v)
    (hlocation : v.location = file.location group.opened) : id = id' := by
  obtain ⟨group', hgroup', hlocation'⟩ := hreports.location_eq hv
  rw [hlocation] at hlocation'
  apply hnested.opened_injective hgroup hgroup'
  exact FileContext.eq_of_location_eq (hnested.opened_ne_front hgroup)
    (hnested.opened_ne_front hgroup') hlocation'

theorem reports_iff (id : Nat) : rule.Reports file analysis id ↔ (report id).isSome = true := by
  constructor
  · rintro ⟨group, hgroup, v, hv, hlocation⟩
    obtain ⟨id', -, hid', -, -⟩ := hreports.exists_reported hv
    obtain rfl := hreports.eq_of_location_eq hnested hgroup hid' hlocation
    rw [hid']
    rfl
  · intro hsome
    obtain ⟨v, hv⟩ := Option.isSome_iff_exists.mp hsome
    obtain ⟨group, hgroup, hlocation⟩ := hreports.location_eq hv
    refine ⟨group, hgroup, v, ?_, hlocation⟩
    rw [hreports.check_eq, hnested.walk_eq]
    exact List.mem_filterMap.mpr ⟨id, List.mem_range.mpr (GroupTree.lt_size_of_group? hgroup), hv⟩

/-- No group is reported twice. -/
theorem nodup_locations : ((rule.check file analysis).map (·.location)).Nodup := by
  rw [hreports.check_eq, hnested.walk_eq, List.nodup_iff_pairwise_ne, List.pairwise_map]
  apply List.pairwise_lt_range.filterMap
  intro id id' hlt v hv v' hv' heq
  obtain ⟨group, hgroup, hlocation⟩ := hreports.location_eq hv
  exact hlt.ne (hreports.eq_of_location_eq hnested hgroup hv' (heq.symm.trans hlocation))

end ReportsGroups

end Rule
end BracketLint
