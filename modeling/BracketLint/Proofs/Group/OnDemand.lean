import Mathlib.Data.List.Basic
import BracketLint.Group.Classification
import BracketLint.Proofs.Group.Dependency

/-!
Asking for the roles of groups in any order. Every record that can come up holds for each group the
verdict that follows from first principles, or none, and it has reported what the verdicts in it
report. So the order in which groups are asked for shows only in the order of the reports.
-/

namespace BracketLint

namespace Inquiry

/-- The value of an inquiry if the roles of all groups are given. -/
def value {α : Type} (kindOf : Nat → GroupKind) : Inquiry α → α
  | answer value => value
  | ask id proceed => (proceed (kindOf id)).value kindOf

/-- The inquiry that asks for some groups one after another. -/
def askEach : List Nat → Inquiry Unit
  | [] => .answer ()
  | id :: ids => .ask id fun _ => askEach ids

theorem value_congr {α : Type} {bound : Nat} {kindOf kindOf' : Nat → GroupKind}
    (heq : ∀ id < bound, kindOf id = kindOf' id) (inquiry : Inquiry α)
    (hasks : inquiry.AsksBelow bound) : inquiry.value kindOf = inquiry.value kindOf' := by
  induction inquiry with
  | answer value => rfl
  | ask id proceed ih =>
    rw [value, value, heq id hasks.1]
    exact ih _ (hasks.2 _)

end Inquiry

/-- The verdict on a group from first principles: its inquiry, answered with the verdicts on the
groups in front of it. -/
def Verdict.ofGroup (lines : Lines) (tree : GroupTree) (id : Nat) : Verdict :=
  (Verdict.inquiry lines tree id).value fun i =>
    if i < id then (ofGroup lines tree i).kind else .unknown
termination_by id

/-- The role of a group from first principles. -/
def Verdict.kindOfGroup (lines : Lines) (tree : GroupTree) (id : Nat) : GroupKind :=
  (ofGroup lines tree id).kind

/-- The rules of answering an inquiry from a record. They give the roles found on the way, each with
the number of its group, in the order in which they are found, the value of the inquiry, and the
record behind it. Nothing bounds the numbers of the groups asked for. -/
inductive Record.Answers (lines : Lines) (tree : GroupTree) :
    {α : Type} → Inquiry α → Record → List (Nat × GroupKind) → α → Record → Prop
  /-- An answer asks for nothing. -/
  | answer {α : Type} {value : α} {record} :
    Answers lines tree (.answer value) record [] value record
  /-- A verdict in the record is taken from there. -/
  | known {α : Type} {id verdict} {proceed : GroupKind → Inquiry α} {value record asked record'} :
    record.verdict? id = some verdict →
    Answers lines tree (proceed verdict.kind) record asked value record' →
    Answers lines tree (.ask id proceed) record ((id, verdict.kind) :: asked) value record'
  /-- Any other verdict is that of the group's own inquiry, and it is kept. -/
  | decided {α : Type} {id verdict} {proceed : GroupKind → Inquiry α}
      {value record asked record₁ asked₁ record'} :
    record.verdict? id = none →
    Answers lines tree (Verdict.inquiry lines tree id) record asked verdict record₁ →
    Answers lines tree (proceed verdict.kind) (record₁.keep id verdict) asked₁ value record' →
    Answers lines tree (.ask id proceed) record (asked ++ (id, verdict.kind) :: asked₁) value
      record'

namespace Record

/-- Asking for a group finds a role and a record, whatever is asked next. -/
def Asks (lines : Lines) (tree : GroupTree) (id : Nat) (record : Record) (kind : GroupKind)
    (record₁ : Record) : Prop :=
  ∃ asked, ∀ {α : Type} {asked₁ value record'} (proceed : GroupKind → Inquiry α),
    Answers lines tree (proceed kind) record₁ asked₁ value record' →
    Answers lines tree (.ask id proceed) record (asked ++ asked₁) value record'

variable {lines : Lines} {tree : GroupTree}

section Keep

variable {record : Record} {id : Nat} {verdict : Verdict}

theorem verdict?_eq_some :
    record.verdict? id = some verdict ↔ record.verdicts[id]? = some (some verdict) := by
  rw [verdict?, Option.join_eq_some_iff]

theorem verdict?_of_size_le (h : record.verdicts.size ≤ id) : record.verdict? id = none := by
  rw [verdict?, Array.getElem?_eq_none h]
  rfl

theorem getElem?_of_verdict?_eq_none (h : record.verdict? id = none)
    (hid : id < record.verdicts.size) : record.verdicts[id]? = some none := by
  rw [verdict?, Array.getElem?_eq_getElem hid, Option.join_some] at h
  rw [Array.getElem?_eq_getElem hid, h]

theorem verdict?_keep_of_ne {i : Nat} (h : i ≠ id) :
    (record.keep id verdict).verdict? i = record.verdict? i := by
  rw [verdict?, keep, Array.getElem?_setIfInBounds_ne h.symm, verdict?]

theorem verdict?_keep_self (h : id < record.verdicts.size) :
    (record.keep id verdict).verdict? id = some verdict := by
  rw [verdict?_eq_some, keep, Array.getElem?_setIfInBounds_self_of_lt h]

@[simp] theorem size_keep : (record.keep id verdict).verdicts.size = record.verdicts.size :=
  Array.size_setIfInBounds

end Keep

/-- Where a test picks nothing, an entry that replaces it adds what is picked of the entry. -/
theorem filterMap_set_perm {α β : Type} (pick : α → Option β) {old : α} (new : α)
    (hold : pick old = none) {row : List α} : ∀ {k : Nat}, row[k]? = some old →
      ((row.set k new).filterMap pick).Perm ((pick new).toList ++ row.filterMap pick) := by
  induction row with
  | nil => intro k h; cases h
  | cons first row ih =>
    intro k h
    cases k with
    | zero =>
      rw [List.getElem?_cons_zero, Option.some.injEq] at h
      subst h
      cases hnew : pick new <;> simp [hold, hnew]
    | succ k =>
      rw [List.getElem?_cons_succ] at h
      rw [List.set_cons_succ]
      cases hfirst : pick first with
      | none => simpa [hfirst] using ih h
      | some value =>
        simp only [List.filterMap_cons_some hfirst]
        exact ((ih h).cons value).trans List.perm_middle.symm

/-- A record that holds only verdicts from first principles, and that has reported what they
report. -/
structure Coherent (lines : Lines) (tree : GroupTree) (record : Record) : Prop where
  size_eq : record.verdicts.size = tree.size
  verdict_eq : ∀ id verdict, record.verdict? id = some verdict →
    verdict = Verdict.ofGroup lines tree id
  reported : record.reported.Perm
    (record.verdicts.toList.filterMap fun verdict => verdict.bind (·.report))

theorem coherent_start (lines : Lines) (tree : GroupTree) : (start tree).Coherent lines tree where
  size_eq := Array.size_replicate
  verdict_eq id verdict h := by
    rw [verdict?_eq_some, start, Array.getElem?_replicate] at h
    split at h <;> cases h
  reported := by
    simp [start]

theorem ofGroup_of_size_le {id : Nat} (h : tree.size ≤ id) :
    Verdict.ofGroup lines tree id = { kind := .unknown } := by
  have hnone : tree.group? id = none := Array.getElem?_eq_none h
  rw [Verdict.ofGroup, Verdict.inquiry, hnone]
  rfl

/-- A coherent record stays coherent if a verdict from first principles is kept in it for the first
time. -/
theorem Coherent.keep {record : Record} {id : Nat} (hcoherent : record.Coherent lines tree)
    (hnone : record.verdict? id = none) :
    (record.keep id (Verdict.ofGroup lines tree id)).Coherent lines tree where
  size_eq := size_keep.trans hcoherent.size_eq
  verdict_eq i verdict h := by
    rcases eq_or_ne i id with rfl | hne
    · by_cases hi : i < record.verdicts.size
      · rw [verdict?_keep_self hi, Option.some.injEq] at h
        exact h.symm
      · rw [verdict?_of_size_le (by rw [size_keep]; exact Nat.le_of_not_lt hi)] at h
        cases h
    · rw [verdict?_keep_of_ne hne] at h
      exact hcoherent.verdict_eq i verdict h
  reported := by
    by_cases hi : id < record.verdicts.size
    · rw [Record.keep, Array.toList_setIfInBounds]
      have hold : record.verdicts.toList[id]? = some none := by
        rw [Array.getElem?_toList, getElem?_of_verdict?_eq_none hnone hi]
      have hset := filterMap_set_perm (fun verdict : Option Verdict => verdict.bind (·.report))
        (some (Verdict.ofGroup lines tree id)) rfl hold
      exact (hcoherent.reported.append_left _).trans hset.symm
    · have hsize := Nat.le_of_not_lt hi
      rw [Record.keep, Array.setIfInBounds_eq_of_size_le hsize,
        ofGroup_of_size_le (hcoherent.size_eq ▸ hsize)]
      exact hcoherent.reported

section Rules

variable {α : Type} {inquiry : Inquiry α} {record record' : Record}
  {asked : List (Nat × GroupKind)} {value : α}

theorem Answers.size_eq (h : Answers lines tree inquiry record asked value record') :
    record'.verdicts.size = record.verdicts.size := by
  induction h with
  | answer => rfl
  | known _ _ ih => exact ih
  | decided _ _ _ ih ih₁ => rw [ih₁, size_keep, ih]

theorem Answers.isSome_of_isSome (h : Answers lines tree inquiry record asked value record')
    {id : Nat} (hid : (record.verdict? id).isSome) : (record'.verdict? id).isSome := by
  induction h with
  | answer => exact hid
  | known _ _ ih => exact ih hid
  | @decided _ i verdict _ _ record _ record₁ _ _ hnone _ _ ih ih₁ =>
    apply ih₁
    have hne : id ≠ i := by
      rintro rfl
      rw [hnone] at hid
      cases hid
    rw [verdict?_keep_of_ne hne]
    exact ih hid

/-- Every group that was asked for has a verdict in the record. -/
theorem Answers.isSome_of_asked (h : Answers lines tree inquiry record asked value record')
    {id : Nat} (hid : id < record.verdicts.size) (hmem : id ∈ asked.map (·.1)) :
    (record'.verdict? id).isSome := by
  induction h with
  | answer => cases hmem
  | @known _ i verdict _ _ record asked _ hverdict hanswers ih =>
    rw [List.map_cons, List.mem_cons] at hmem
    rcases hmem with rfl | hmem
    · exact hanswers.isSome_of_isSome (by rw [hverdict]; rfl)
    · exact ih hid hmem
  | @decided _ i verdict _ _ record asked record₁ asked₁ _ hnone hinner hanswers ih ih₁ =>
    have hsize : id < (record₁.keep i verdict).verdicts.size := by
      rwa [size_keep, hinner.size_eq]
    rw [List.map_append, List.map_cons, List.mem_append, List.mem_cons] at hmem
    rcases hmem with hmem | rfl | hmem
    · have hsome := ih hid hmem
      rcases eq_or_ne id i with rfl | hne
      · exact hanswers.isSome_of_isSome (by rw [verdict?_keep_self (size_keep ▸ hsize)]; rfl)
      · exact hanswers.isSome_of_isSome (by rw [verdict?_keep_of_ne hne]; exact hsome)
    · exact hanswers.isSome_of_isSome (by rw [verdict?_keep_self (size_keep ▸ hsize)]; rfl)
    · exact ih₁ hsize hmem

theorem Answers.mem_of_askEach {ids : List Nat}
    (h : Answers lines tree (.askEach ids) record asked () record') {id : Nat} (hid : id ∈ ids) :
    id ∈ asked.map (·.1) := by
  induction ids generalizing record asked with
  | nil => cases hid
  | cons first ids ih =>
    rw [Inquiry.askEach] at h
    cases h with
    | known _ hanswers =>
      rw [List.map_cons, List.mem_cons]
      exact (List.mem_cons.mp hid).imp_right (ih hanswers)
    | decided _ _ hanswers =>
      rw [List.map_append, List.map_cons, List.mem_append, List.mem_cons]
      exact Or.inr ((List.mem_cons.mp hid).imp_right (ih hanswers))

end Rules

/-- An inquiry is resolved by the rules, if each group in front of its bound is. -/
theorem answers_resolve (bound : Nat)
    (lookUp : (id : Nat) → id < bound → Record → GroupKind × Record)
    (hlookUp : ∀ id h record,
      Asks lines tree id record (lookUp id h record).1 (lookUp id h record).2)
    (inquiry : Inquiry Verdict) (hbelow : inquiry.AsksBelow bound) (record : Record) :
    ∃ asked, Answers lines tree inquiry record asked (resolve bound lookUp inquiry record).1
      (resolve bound lookUp inquiry record).2 := by
  induction inquiry generalizing record with
  | answer value => exact ⟨[], .answer⟩
  | ask id proceed ih =>
    obtain ⟨hid, hbelow⟩ := hbelow
    rw [resolve, dif_pos hid]
    obtain ⟨asked, hask⟩ := hlookUp id hid record
    obtain ⟨asked₁, hanswers⟩ := ih _ (hbelow _) (lookUp id hid record).2
    exact ⟨asked ++ asked₁, hask proceed hanswers⟩

section Founded

variable (hasks : ∀ id, (Verdict.inquiry lines tree id).AsksBelow id)
include hasks

/-- The verdict on a group is its inquiry, answered with the roles of the groups asked for. -/
theorem ofGroup_eq (id : Nat) : Verdict.ofGroup lines tree id =
    (Verdict.inquiry lines tree id).value (Verdict.kindOfGroup lines tree) := by
  rw [Verdict.ofGroup]
  exact Inquiry.value_congr (fun i hi => by rw [if_pos hi, Verdict.kindOfGroup]) _ (hasks id)

/-- Answering an inquiry changes nothing at or behind a number that bounds what it asks for. -/
theorem Answers.verdict?_eq {α : Type} {inquiry : Inquiry α} {record record' : Record}
    {asked : List (Nat × GroupKind)} {value : α}
    (h : Answers lines tree inquiry record asked value record') {bound : Nat}
    (hbelow : inquiry.AsksBelow bound) {id : Nat} (hid : bound ≤ id) :
    record'.verdict? id = record.verdict? id := by
  induction h generalizing bound with
  | answer => rfl
  | known _ _ ih => exact ih (hbelow.2 _) hid
  | @decided _ i _ _ _ _ _ _ _ _ _ _ _ ih ih₁ =>
    -- Only the group asked for is kept, and its own inquiry stays in front of it.
    have hlt : i < id := Nat.lt_of_lt_of_le hbelow.1 hid
    rw [ih₁ (hbelow.2 _) hid, verdict?_keep_of_ne (Nat.ne_of_gt hlt),
      ih (hasks i) (Nat.le_of_lt hlt)]

/-- From a coherent record on, every role found and the value itself are those from first
principles, and the record stays coherent. -/
theorem Answers.coherent {α : Type} {inquiry : Inquiry α} {record record' : Record}
    {asked : List (Nat × GroupKind)} {value : α}
    (h : Answers lines tree inquiry record asked value record')
    (hcoherent : record.Coherent lines tree) :
    record'.Coherent lines tree ∧ value = inquiry.value (Verdict.kindOfGroup lines tree) ∧
      ∀ call ∈ asked, call.2 = Verdict.kindOfGroup lines tree call.1 := by
  induction h with
  | answer =>
    refine ⟨hcoherent, rfl, ?_⟩
    intro call hcall
    cases hcall
  | known hverdict _ ih =>
    obtain rfl := hcoherent.verdict_eq _ _ hverdict
    obtain ⟨hcoherent', hvalue, hcalls⟩ := ih hcoherent
    exact ⟨hcoherent', hvalue, List.forall_mem_cons.mpr ⟨rfl, hcalls⟩⟩
  | @decided _ id verdict _ _ _ _ record₁ _ _ hnone hinner _ ih ih₁ =>
    obtain ⟨hcoherent₁, hverdict, hcalls⟩ := ih hcoherent
    rw [← ofGroup_eq hasks] at hverdict
    subst hverdict
    -- No verdict was kept for the group itself while its own inquiry was answered.
    have hnone₁ : record₁.verdict? id = none := by
      rw [hinner.verdict?_eq hasks (hasks id) (Nat.le_refl _), hnone]
    obtain ⟨hcoherent', hvalue, hcalls₁⟩ := ih₁ (hcoherent₁.keep hnone₁)
    refine ⟨hcoherent', hvalue, ?_⟩
    exact List.forall_mem_append.mpr ⟨hcalls, List.forall_mem_cons.mpr ⟨rfl, hcalls₁⟩⟩

/-- Every call comes to its end by the rules. -/
theorem asks_classify (id : Nat) : ∀ record, Asks lines tree id record
    (classify lines tree id record).1 (classify lines tree id record).2 := by
  induction id using Nat.strongRecOn with
  | ind id ih =>
    intro record
    rw [classify]
    cases hverdict : record.verdict? id with
    | some verdict => exact ⟨[(id, verdict.kind)], fun _ h => .known hverdict h⟩
    | none =>
      obtain ⟨asked, hanswers⟩ := answers_resolve id
        (fun i _ record => classify lines tree i record) (fun i hi record => ih i hi record)
        (Verdict.inquiry lines tree id) (hasks id) record
      dsimp only
      generalize resolve id _ (Verdict.inquiry lines tree id) record = resolved at hanswers ⊢
      refine ⟨asked ++ [(id, resolved.1.kind)], fun proceed h => ?_⟩
      rw [List.append_assoc]
      exact .decided hverdict hanswers h

theorem answers_classifyEach (ids : List Nat) (record : Record) :
    ∃ asked, Answers lines tree (.askEach ids) record asked ()
      (classifyEach lines tree ids record) := by
  induction ids generalizing record with
  | nil => exact ⟨[], .answer⟩
  | cons id ids ih =>
    obtain ⟨asked, hask⟩ := asks_classify hasks id record
    obtain ⟨asked₁, hanswers⟩ := ih (classify lines tree id record).2
    exact ⟨asked ++ asked₁, hask (fun _ => .askEach ids) hanswers⟩

/-- Calls one after another leave a coherent record, with a verdict on every group called for. -/
theorem coherent_classifyEach (ids : List Nat) :
    (classifyEach lines tree ids (start tree)).Coherent lines tree ∧
      ∀ id ∈ ids, id < tree.size →
        ((classifyEach lines tree ids (start tree)).verdict? id).isSome := by
  have hstart := coherent_start lines tree
  obtain ⟨asked, hanswers⟩ := answers_classifyEach hasks ids (start tree)
  refine ⟨(hanswers.coherent hasks hstart).1, ?_⟩
  intro id hid hsize
  exact hanswers.isSome_of_asked (hstart.size_eq ▸ hsize) (hanswers.mem_of_askEach hid)

theorem Coherent.classify_eq {record : Record} (hcoherent : record.Coherent lines tree) (id : Nat) :
    (classify lines tree id record).1 = Verdict.kindOfGroup lines tree id := by
  obtain ⟨asked, hask⟩ := asks_classify hasks id record
  have hanswers := hask (fun kind => .answer kind) .answer
  exact (hanswers.coherent hasks hcoherent).2.1

end Founded

section Complete

variable {record record' : Record}

theorem Coherent.kind_eq (hcoherent : record.Coherent lines tree)
    (hall : ∀ id < tree.size, (record.verdict? id).isSome) (id : Nat) :
    record.kind id = Verdict.kindOfGroup lines tree id := by
  by_cases hid : id < tree.size
  · obtain ⟨verdict, hverdict⟩ := Option.isSome_iff_exists.mp (hall id hid)
    rw [kind, hverdict, hcoherent.verdict_eq id verdict hverdict]
    rfl
  · have hsize := Nat.le_of_not_lt hid
    rw [kind, verdict?_of_size_le (hcoherent.size_eq ▸ hsize), Verdict.kindOfGroup,
      ofGroup_of_size_le hsize]
    rfl

theorem Coherent.name?_eq (hcoherent : record.Coherent lines tree)
    (hall : ∀ id < tree.size, (record.verdict? id).isSome) (id : Nat) :
    record.name? id = (Verdict.ofGroup lines tree id).name := by
  by_cases hid : id < tree.size
  · obtain ⟨verdict, hverdict⟩ := Option.isSome_iff_exists.mp (hall id hid)
    rw [name?, hverdict, hcoherent.verdict_eq id verdict hverdict]
    rfl
  · have hsize := Nat.le_of_not_lt hid
    rw [name?, verdict?_of_size_le (hcoherent.size_eq ▸ hsize), ofGroup_of_size_le hsize]
    rfl

theorem Coherent.verdicts_eq (hcoherent : record.Coherent lines tree)
    (hcoherent' : record'.Coherent lines tree)
    (hall : ∀ id < tree.size, (record.verdict? id).isSome)
    (hall' : ∀ id < tree.size, (record'.verdict? id).isSome) :
    record.verdicts = record'.verdicts := by
  apply Array.ext_getElem?
  intro id
  by_cases hid : id < tree.size
  · obtain ⟨verdict, hverdict⟩ := Option.isSome_iff_exists.mp (hall id hid)
    obtain ⟨verdict', hverdict'⟩ := Option.isSome_iff_exists.mp (hall' id hid)
    rw [verdict?_eq_some.mp hverdict, verdict?_eq_some.mp hverdict',
      hcoherent.verdict_eq id verdict hverdict, hcoherent'.verdict_eq id verdict' hverdict']
  · have hsize := Nat.le_of_not_lt hid
    rw [Array.getElem?_eq_none (hcoherent.size_eq ▸ hsize),
      Array.getElem?_eq_none (hcoherent'.size_eq ▸ hsize)]

theorem Coherent.diagnostics_perm (hcoherent : record.Coherent lines tree)
    (hcoherent' : record'.Coherent lines tree) (heq : record.verdicts = record'.verdicts) :
    record.diagnostics.Perm record'.diagnostics := by
  have hperm : record.reported.Perm record'.reported := by
    refine hcoherent.reported.trans ?_
    rw [heq]
    exact hcoherent'.reported.symm
  exact (List.reverse_perm _).trans (hperm.trans (List.reverse_perm _).symm)

end Complete

/-- Groups may be asked for in any order and again and again before all groups are decided. Every
call comes to its end by the rules, every role found on the way is the final one, the roles and
names are those found if all groups are decided right away, and so are the reports, up to their
order. -/
theorem classifyAll_classifyEach (lines : Lines) (ids : List Nat) :
    let tree := (GroupTree.build lines).1
    let final := classifyAll lines tree (classifyEach lines tree ids (start tree))
    let alone := classifyAll lines tree (start tree)
    (∃ asked, Answers lines tree (.askEach (ids ++ List.range tree.size)) (start tree) asked ()
        final ∧ ∀ call ∈ asked, call.2 = final.kind call.1) ∧
      (∀ front id behind, ids ++ List.range tree.size = front ++ id :: behind →
        (classify lines tree id (classifyEach lines tree front (start tree))).1 = final.kind id) ∧
      (∀ id, final.kind id = alone.kind id ∧ final.name? id = alone.name? id) ∧
      final.diagnostics.Perm alone.diagnostics := by
  intro tree final alone
  have hasks (id : Nat) : (Verdict.inquiry lines tree id).AsksBelow id :=
    Verdict.asksBelow_inquiry lines _ _ id
  -- All calls together are one sequence, so both sides are runs from the empty record.
  have hfinal : final = classifyEach lines tree (ids ++ List.range tree.size) (start tree) :=
    List.foldl_append.symm
  obtain ⟨hcoherent, hall⟩ := coherent_classifyEach hasks (ids ++ List.range tree.size)
  rw [← hfinal] at hcoherent hall
  replace hall (id : Nat) (hid : id < tree.size) : (final.verdict? id).isSome :=
    hall id (List.mem_append_right _ (List.mem_range.mpr hid)) hid
  obtain ⟨hcoherent', hall'⟩ := coherent_classifyEach hasks (List.range tree.size)
  replace hall' (id : Nat) (hid : id < tree.size) : (alone.verdict? id).isSome :=
    hall' id (List.mem_range.mpr hid) hid
  have heq : final.verdicts = alone.verdicts := hcoherent.verdicts_eq hcoherent' hall hall'
  have hkind := hcoherent.kind_eq hall
  refine ⟨?_, ?_, ?_, hcoherent.diagnostics_perm hcoherent' heq⟩
  · obtain ⟨asked, hanswers⟩ :=
      answers_classifyEach hasks (ids ++ List.range tree.size) (start tree)
    rw [← hfinal] at hanswers
    refine ⟨asked, hanswers, fun call hcall => ?_⟩
    rw [hkind]
    exact (hanswers.coherent hasks (coherent_start lines tree)).2.2 call hcall
  · intro front id behind _
    rw [(coherent_classifyEach hasks front).1.classify_eq hasks, hkind]
  · intro id
    have hverdict : final.verdict? id = alone.verdict? id := by
      rw [verdict?, heq, verdict?]
    exact ⟨by rw [kind, hverdict, kind], by rw [name?, hverdict, name?]⟩

end Record
end BracketLint
