import BracketLint.Proofs.Json.Printer
import BracketLint.Proofs.Json.Reader
import BracketLint.Report.Text
import Mathlib.Data.List.Forall2
import Mathlib.Data.List.Nodup

/-!
Reports are read back from their JSON, however it is laid out and whatever members of other names
stand in its objects.
-/

namespace BracketLint

/-- Members that a reader of reports supplies when an object leaves them out. -/
def Report.optionalMembers : List (String × Json) :=
  [("suggestion", .null), ("files_skipped", .natural 0)]

namespace Json

mutual

/-- A value that may stand for another one: its objects have the members of the other's objects in
any order, among members of other names, and may leave out optional ones. -/
inductive Loosened : Json → Json → Prop
  | same (j : Json) : Loosened j j
  | items {items others : List Json} (each : List.Forall₂ Loosened items others) :
    Loosened (array items) (array others)
  | members {fields loose members leftOut : List (String × Json)}
    (each : List.Forall₂ LoosenedMember fields loose)
    (optional : leftOut.Sublist Report.optionalMembers)
    (own : ((leftOut ++ members).filter fun m => (fields.map (·.1)).contains m.1).Perm loose) :
    Loosened (object fields) (object members)

/-- A member of the same name that may stand for another one. -/
inductive LoosenedMember : String × Json → String × Json → Prop
  | mk {name : String} {value other : Json} (loosened : Loosened value other) :
    LoosenedMember (name, value) (name, other)

end

theorem Loosened.eq_string {s : String} {j : Json} (h : Loosened (string s) j) : j = string s := by
  cases h
  rfl

theorem Loosened.eq_integer {n : Int} {j : Json} (h : Loosened (integer n) j) : j = integer n := by
  cases h
  rfl

theorem Loosened.eq_null {j : Json} (h : Loosened null j) : j = null := by
  cases h
  rfl

theorem Loosened.exists_items {items : List Json} {j : Json} (h : Loosened (array items) j) :
    ∃ others, j = array others ∧ List.Forall₂ Loosened items others := by
  cases h with
  | same => exact ⟨items, rfl, List.forall₂_same.mpr fun j _ => .same j⟩
  | items each => exact ⟨_, rfl, each⟩

theorem Loosened.exists_members {fields : List (String × Json)} {j : Json}
    (h : Loosened (object fields) j) :
    ∃ members loose leftOut, j = object members ∧ List.Forall₂ LoosenedMember fields loose ∧
      leftOut.Sublist Report.optionalMembers ∧
      ((leftOut ++ members).filter fun m => (fields.map (·.1)).contains m.1).Perm loose := by
  cases h with
  | same =>
    refine ⟨fields, fields, [], rfl, List.forall₂_same.mpr fun m _ => .mk (.same m.2),
      List.nil_sublist _, ?_⟩
    rw [List.nil_append, List.filter_eq_self.mpr]
    intro m hm
    exact List.contains_iff_mem.mpr (List.mem_map_of_mem hm)
  | members each optional own => exact ⟨_, _, _, rfl, each, optional, own⟩

/-- An object has, or leaves out, a member that may stand for one of a name and a value. -/
def Finds (members : List (String × Json)) (name : String) (value : Json) : Prop :=
  ∃ other, Loosened value other ∧
    (uniqueMember? name members = some (some other) ∨
      uniqueMember? name members = some none ∧ (name, other) ∈ Report.optionalMembers)

theorem filter_name_eq {members : List (String × Json)} (distinct : (members.map (·.1)).Nodup)
    {name : String} {value : Json} (h : (name, value) ∈ members) :
    members.filter (·.1 == name) = [(name, value)] := by
  induction members with
  | nil => cases h
  | cons m members ih =>
    obtain ⟨hfirst, hothers⟩ := List.nodup_cons.mp distinct
    rcases List.mem_cons.mp h with rfl | h
    · have hnone : members.filter (·.1 == name) = [] := by
        rw [List.filter_eq_nil_iff]
        intro m hm heq
        exact hfirst (List.mem_map.mpr ⟨m, hm, beq_iff_eq.mp heq⟩)
      simp [hnone]
    · have hne : m.1 ≠ name := by
        rintro rfl
        exact hfirst (List.mem_map.mpr ⟨_, h, rfl⟩)
      rw [List.filter_cons_of_neg (by simpa using hne), ih hothers h]

theorem exists_filter_name_eq {fields loose : List (String × Json)}
    (each : List.Forall₂ LoosenedMember fields loose) (distinct : (fields.map (·.1)).Nodup)
    {name : String} {value : Json} (h : (name, value) ∈ fields) :
    ∃ other, Loosened value other ∧ loose.filter (·.1 == name) = [(name, other)] := by
  have hfields := List.rel_filter (p := (·.1 == name)) (q := (·.1 == name))
    (by rintro _ _ ⟨_⟩; rfl) each
  rw [filter_name_eq distinct h] at hfields
  obtain ⟨_, others, ⟨hother⟩, hnil, hloose⟩ := List.forall₂_cons_left_iff.mp hfields
  rw [List.forall₂_nil_left_iff.mp hnil] at hloose
  exact ⟨_, hother, hloose⟩

theorem Loosened.finds {fields : List (String × Json)} {j : Json} (h : Loosened (object fields) j)
    (distinct : (fields.map (·.1)).Nodup) :
    ∃ members, j = object members ∧ ∀ m ∈ fields, Finds members m.1 m.2 := by
  obtain ⟨members, loose, leftOut, rfl, each, optional, own⟩ := h.exists_members
  refine ⟨members, rfl, ?_⟩
  rintro ⟨name, value⟩ hm
  obtain ⟨other, hother, hloose⟩ := exists_filter_name_eq each distinct hm
  -- A field of this name is one of the record, so the filter of all fields keeps it.
  have hknown : ∀ m : String × Json,
      (m.1 == name && (fields.map (·.1)).contains m.1) = (m.1 == name) := by
    intro m
    rw [Bool.and_eq_left_iff_imp, beq_iff_eq]
    rintro rfl
    exact List.contains_iff_mem.mpr (List.mem_map.mpr ⟨_, hm, rfl⟩)
  have hown := own.filter (·.1 == name)
  simp only [List.filter_filter, hknown, hloose, List.perm_singleton, List.filter_append] at hown
  refine ⟨other, hother, ?_⟩
  rcases List.append_eq_singleton_iff.mp hown with ⟨-, hgiven⟩ | ⟨hleft, hgiven⟩
  · exact .inl (by simp only [uniqueMember?, hgiven])
  · refine .inr ⟨by simp only [uniqueMember?, hgiven], optional.subset ?_⟩
    have hmem : (name, other) ∈ leftOut.filter (·.1 == name) := by
      rw [hleft]
      exact List.mem_singleton_self _
    exact List.mem_of_mem_filter hmem

section Fields

variable {members : List (String × Json)} {name : String}

theorem Finds.given {value : Json} (h : Finds members name value)
    (required : name ∉ Report.optionalMembers.map (·.1)) :
    ∃ other, Loosened value other ∧ uniqueMember? name members = some (some other) := by
  obtain ⟨other, hother, hgiven | ⟨-, hmem⟩⟩ := h
  · exact ⟨other, hother, hgiven⟩
  · exact absurd (List.mem_map.mpr ⟨_, hmem, rfl⟩) required

theorem Finds.string {s : String} (h : Finds members name (string s))
    (required : name ∉ Report.optionalMembers.map (·.1)) :
    uniqueMember? name members = some (some (string s)) := by
  obtain ⟨other, hother, hgiven⟩ := h.given required
  rwa [hother.eq_string] at hgiven

theorem Finds.natural {n : Nat} (h : Finds members name (natural n))
    (required : name ∉ Report.optionalMembers.map (·.1)) :
    uniqueMember? name members = some (some (natural n)) := by
  obtain ⟨other, hother, hgiven⟩ := h.given required
  rwa [hother.eq_integer] at hgiven

theorem count?_natural {n : Nat} (h : n < UInt64.size) : count? (natural n) = some n := by
  have hlast : (n : Int) ≤ 18446744073709551615 := Int.ofNat_le.mpr (Nat.le_of_lt_succ h)
  rw [natural, count?, if_pos ⟨Int.natCast_nonneg n, hlast⟩, Int.toNat_natCast]

theorem mapM_eq_of_loosened {α : Type} {write : α → Json} {read : Json → Option α} {as : List α}
    {items : List Json} (h : List.Forall₂ Loosened (as.map write) items)
    (hread : ∀ a ∈ as, ∀ j, Loosened (write a) j → read j = some a) :
    items.mapM read = some as := by
  rw [List.forall₂_map_left_iff] at h
  induction h with
  | nil => rfl
  | cons hfirst _ ih =>
    have hothers := ih fun a ha => hread a (List.mem_cons_of_mem _ ha)
    simp [List.mapM_cons, hread _ List.mem_cons_self _ hfirst, hothers]

end Fields

end Json

/-- Whether the numbers of a location have at most 64 bits. -/
def Location.FitsWords (location : Location) : Prop :=
  ∀ n ∈ [location.line, location.column, location.offset, location.length], n < UInt64.size

/-- Whether the numbers of a violation have at most 64 bits. -/
def Violation.FitsWords (v : Violation) : Prop :=
  v.location.FitsWords ∧ ∀ label ∈ v.labels, label.location.FitsWords

/-- Whether the numbers of a report have at most 64 bits. -/
def Report.FitsWords (report : Report) : Prop :=
  (∀ v ∈ report.violations, v.FitsWords) ∧ report.filesChecked < UInt64.size ∧
    report.filesSkipped < UInt64.size

open Json (Loosened)

theorem Location.ofJson?_of_loosened {location : Location} (fits : location.FitsWords) {j : Json}
    (h : Loosened location.toJson j) : ofJson? j = some location := by
  obtain ⟨members, rfl, hfinds⟩ := h.finds (by simp)
  simp only [List.forall_mem_cons] at hfinds
  obtain ⟨hfile, hline, hcolumn, hoffset, hlength, -⟩ := hfinds
  simp only [FitsWords, List.forall_mem_cons] at fits
  obtain ⟨fline, fcolumn, foffset, flength, -⟩ := fits
  simp [ofJson?, Json.fields?, List.mapM_cons, hfile.string (by decide),
    hline.natural (by decide), hcolumn.natural (by decide), hoffset.natural (by decide),
    hlength.natural (by decide), Json.string?, Json.count?_natural fline,
    Json.count?_natural fcolumn, Json.count?_natural foffset, Json.count?_natural flength]

theorem Label.ofJson?_of_loosened {label : Label} (fits : label.location.FitsWords) {j : Json}
    (h : Loosened label.toJson j) : ofJson? j = some label := by
  obtain ⟨members, rfl, hfinds⟩ := h.finds (by simp)
  simp only [List.forall_mem_cons] at hfinds
  obtain ⟨hlocation, hmessage, -⟩ := hfinds
  obtain ⟨location, hloose, hgiven⟩ := hlocation.given (by decide)
  have hread := Location.ofJson?_of_loosened fits hloose
  simp [ofJson?, Json.fields?, List.mapM_cons, hgiven, hmessage.string (by decide), Json.string?,
    hread]

theorem Severity.ofJson?_name (s : Severity) : ofJson? (.string s.name) = some s :=
  ofName?_name s

theorem Violation.suggestionOfJson?_of_finds {members : List (String × Json)}
    {suggestion : Option String}
    (h : Json.Finds members "suggestion" (.ofOption (suggestion.map suggestionJson))) :
    ∃ given, Json.uniqueMember? "suggestion" members = some given ∧
      suggestionOfJson? (.ofOption given) = some suggestion := by
  obtain ⟨other, hloose, hgiven⟩ := h
  cases suggestion with
  | none =>
    rw [Option.map_none, Json.ofOption, Option.getD_none] at hloose
    rw [hloose.eq_null] at hgiven
    rcases hgiven with hgiven | ⟨hgiven, -⟩
    · exact ⟨_, hgiven, rfl⟩
    · exact ⟨_, hgiven, rfl⟩
  | some message =>
    have hloose : Loosened (.object [("message", .string message)]) other := hloose
    obtain ⟨fields, rfl, hfinds⟩ := hloose.finds (by simp)
    have hmessage : Json.uniqueMember? "message" fields = some (some (.string message)) :=
      (hfinds _ List.mem_cons_self).string (by simp [Report.optionalMembers])
    rcases hgiven with hgiven | ⟨-, hmem⟩
    · refine ⟨_, hgiven, ?_⟩
      simp [Json.ofOption, suggestionOfJson?, Json.fields?, hmessage, Json.string?]
    · simp [Report.optionalMembers, Json.natural] at hmem

theorem Violation.ofJson?_of_loosened {v : Violation} (fits : v.FitsWords) {j : Json}
    (h : Loosened v.toJson j) : ofJson? j = some v := by
  obtain ⟨members, rfl, hfinds⟩ := h.finds (by simp)
  simp only [List.forall_mem_cons] at hfinds
  obtain ⟨hcode, hrule, hseverity, hlocation, hmessage, hsuggestion, hlabels, -⟩ := hfinds
  obtain ⟨location, hloose, hlocation⟩ := hlocation.given (by decide)
  have hplace := Location.ofJson?_of_loosened fits.1 hloose
  obtain ⟨given, hgiven, hsuggestion⟩ := suggestionOfJson?_of_finds hsuggestion
  obtain ⟨labels, hloose, hlabels⟩ := hlabels.given (by decide)
  obtain ⟨items, rfl, hitems⟩ := hloose.exists_items
  have hread := Json.mapM_eq_of_loosened hitems fun label hlabel j =>
    Label.ofJson?_of_loosened (fits.2 label hlabel)
  simp [ofJson?, Json.fields?, List.mapM_cons, hcode.string (by decide), hrule.string (by decide),
    hseverity.string (by decide), hlocation, hmessage.string (by decide), hgiven, hlabels,
    Json.string?, Json.array?, Severity.ofJson?_name, hplace, hsuggestion, hread]

theorem Report.skipped_of_finds {members : List (String × Json)} {n : Nat} (fits : n < UInt64.size)
    (h : Json.Finds members "files_skipped" (.natural n)) :
    ∃ given, Json.uniqueMember? "files_skipped" members = some given ∧
      (given.getD (.natural 0)).count? = some n := by
  obtain ⟨other, hloose, hgiven⟩ := h
  rw [hloose.eq_integer] at hgiven
  rcases hgiven with hgiven | ⟨hgiven, hmem⟩
  · exact ⟨_, hgiven, Json.count?_natural fits⟩
  · obtain rfl : n = 0 := by simpa [optionalMembers, Json.natural] using hmem
    exact ⟨_, hgiven, rfl⟩

theorem Report.ofJson?_of_loosened {report : Report} (fits : report.FitsWords) {j : Json}
    (h : Loosened report.toJson j) : ofJson? j = some report := by
  obtain ⟨hviolations, hchecked, hskipped⟩ := fits
  obtain ⟨members, rfl, hfinds⟩ := h.finds (by simp)
  simp only [List.forall_mem_cons] at hfinds
  obtain ⟨fviolations, fchecked, fskipped, -⟩ := hfinds
  obtain ⟨violations, hloose, fviolations⟩ := fviolations.given (by decide)
  obtain ⟨items, rfl, hitems⟩ := hloose.exists_items
  have hread := Json.mapM_eq_of_loosened hitems fun v hv j =>
    Violation.ofJson?_of_loosened (hviolations v hv)
  obtain ⟨given, hgiven, hskipped⟩ := skipped_of_finds hskipped fskipped
  simp [ofJson?, Json.fields?, List.mapM_cons, fviolations, fchecked.natural (by decide), hgiven,
    Json.array?, hread, Json.count?_natural hchecked, hskipped]

section Proper

open Json (IsProper AreProper AreProperMembers)

theorem areProper_map {α : Type} {write : α → Json} (h : ∀ a, (write a).IsProper) (as : List α) :
    AreProper (as.map write) := by
  induction as with
  | nil => trivial
  | cons a as ih => exact ⟨h a, ih⟩

theorem Location.isProper_toJson (location : Location) : location.toJson.IsProper := by
  simp [toJson, IsProper, AreProperMembers, Json.natural]

theorem Label.isProper_toJson (label : Label) : label.toJson.IsProper := by
  simp [toJson, IsProper, AreProperMembers, label.location.isProper_toJson]

theorem Violation.isProper_toJson (v : Violation) : v.toJson.IsProper := by
  have hlabels := areProper_map Label.isProper_toJson v.labels
  cases hv : v.suggestion <;>
    simp [toJson, IsProper, AreProperMembers, v.location.isProper_toJson, hlabels, hv,
      Json.ofOption, suggestionJson]

theorem Report.isProper_toJson (report : Report) : report.toJson.IsProper := by
  have hviolations := areProper_map Violation.isProper_toJson report.violations
  simp [toJson, IsProper, AreProperMembers, hviolations, Json.natural]

end Proper

namespace Report

/-- The report that a JSON text writes. -/
def ofText? (text : String) : Option Report := (Json.ofString? text).bind ofJson?

theorem ofText?_of_writes {report : Report} (fits : report.FitsWords) {j : Json}
    (loosened : Loosened report.toJson j) {text gap : List Char} (written : Json.Writes j text)
    (behind : Json.IsGap gap) : ofText? (String.ofList (text ++ gap)) = some report := by
  rw [ofText?, Json.ofString?, String.toList_ofList, Json.read?_of_writes written behind,
    Option.bind_some, ofJson?_of_loosened fits loosened]

theorem ofText?_of_isProper {report : Report} (fits : report.FitsWords) {j : Json}
    (loosened : Loosened report.toJson j) (proper : j.IsProper) :
    ofText? j.toCompact = some report ∧ ofText? j.toPretty = some report := by
  have hcompact := ofText?_of_writes fits loosened (Json.writes_compact j proper) Json.isGap_nil
  have hpretty := ofText?_of_writes fits loosened (Json.writes_prettyAt 0 j proper) Json.isGap_nil
  rw [List.append_nil] at hcompact hpretty
  exact ⟨hcompact, hpretty⟩

theorem ofText?_render {report : Report} (fits : report.FitsWords) (files : FileSystem)
    (root : Path) : ofText? (report.render .json files root) = some report := by
  have hgap : Json.IsGap ['\n'] := by simp [Json.IsGap, Json.isSpace]
  have hwritten := Json.writes_prettyAt 0 _ report.isProper_toJson
  have hread := ofText?_of_writes fits (.same _) hwritten hgap
  rwa [String.ofList_append] at hread

/-- A report whose numbers fit into words is read back from its JSON, compact or in the form that a
run prints, and from every value that stands for it: with members of other names added anywhere,
with its own in any order, and without a suggestion that is null or a number of skipped files that
is zero. -/
theorem ofText?_toJson {report : Report} (fits : report.FitsWords) :
    ofText? report.toJson.toCompact = some report ∧
    (∀ files root, ofText? (report.render .json files root) = some report) ∧
    ∀ j, Loosened report.toJson j → j.IsProper →
      ofText? j.toCompact = some report ∧ ofText? j.toPretty = some report := by
  refine ⟨(ofText?_of_isProper fits (.same _) report.isProper_toJson).1, ofText?_render fits, ?_⟩
  exact fun j loosened proper => ofText?_of_isProper fits loosened proper

/-- A violation with a control character, a quote and a character behind U+FFFF in it. -/
def sampleViolation : Violation where
  code := "CX002"
  rule := "routine-length"
  severity := .warning
  location := ⟨⟨"src/\x01.cpp"⟩, 18446744073709551615, 1, 0, 3⟩
  message := "too \x22long\x22"
  labels := [⟨⟨⟨"𝔸.h"⟩, 2, 5, 12, 0⟩, "opened here"⟩]

/-- The violation with a further member and without its suggestion. -/
def extendedViolation : Json := .object
  [("code", .string "CX002"), ("rule", .string "routine-length"), ("severity", .string "warning"),
    ("tags", .array [.null, .bool true]), ("location", sampleViolation.location.toJson),
    ("message", .string "too \x22long\x22"),
    ("labels", .array (sampleViolation.labels.map Label.toJson))]

/-- A report of the violation, with a further member and without the number of skipped files. -/
def extendedReport : Json := .object
  [("version", .integer (-2)), ("violations", .array [extendedViolation]),
    ("files_checked", .natural 1)]

theorem loosened_extendedViolation : Loosened sampleViolation.toJson extendedViolation :=
  @Loosened.members _ _ _ [("suggestion", .null)]
    (List.forall₂_same.mpr fun m _ => .mk (.same m.2)) (by simp [optionalMembers])
    (@List.perm_middle _ _ [_, _, _, _, _] [_]).symm

theorem loosened_extendedReport :
    Loosened (toJson { violations := [sampleViolation], filesChecked := 1 }) extendedReport :=
  @Loosened.members _ _ _ [("files_skipped", .natural 0)]
    (.cons (.mk (.items (.cons loosened_extendedViolation .nil)))
      (List.forall₂_same.mpr fun m _ => .mk (.same m.2))) (by simp [optionalMembers])
    (@List.perm_append_comm _ [_] [_, _])

theorem ofText?_toJson_extended :
    ofText? extendedReport.toCompact =
        some { violations := [sampleViolation], filesChecked := 1 } ∧
      ofText? extendedReport.toPretty =
        some { violations := [sampleViolation], filesChecked := 1 } := by
  have fits : FitsWords { violations := [sampleViolation], filesChecked := 1 } := by
    simp [sampleViolation, FitsWords, Violation.FitsWords, Location.FitsWords, UInt64.size]
  have proper : extendedReport.IsProper := by
    simp [extendedReport, extendedViolation, sampleViolation, Json.IsProper, Json.AreProper,
      Json.AreProperMembers, Json.natural, Label.isProper_toJson, Location.isProper_toJson]
  exact (ofText?_toJson fits).2.2 extendedReport loosened_extendedReport proper

end Report

end BracketLint
