import BracketLint.Group.Verdict

/-!
Verdicts on all groups of a tree, found on demand and kept in a record. A group is decided when it is
first asked for, after the groups that its decision asks for; what a decision reports is reported
once.
-/

namespace BracketLint

/-- The verdicts found so far, by the number of the group, and what they reported, the latest
first. -/
structure Record where
  verdicts : Array (Option Verdict)
  reported : List Diagnostic := []
  deriving DecidableEq, Repr

namespace Record

/-- The record of a tree in which nothing has been asked yet. -/
def start (tree : GroupTree) : Record := { verdicts := Array.replicate tree.size none }

/-- The verdict on a group, if it was found. -/
def verdict? (record : Record) (id : Nat) : Option Verdict := (record.verdicts[id]?).join

/-- Keeps a verdict and what it reports. -/
def keep (record : Record) (id : Nat) (verdict : Verdict) : Record where
  -- What is reported goes with the verdict, so that no group reports twice.
  verdicts := record.verdicts.setIfInBounds id (some verdict)
  reported := verdict.report.toList ++ record.reported

/-- Answers an inquiry about group `bound`, with `lookUp` for the groups in front of it. No inquiry
asks for a group behind its own, so the answer for those is never used. -/
def resolve (bound : Nat) (lookUp : (id : Nat) → id < bound → Record → GroupKind × Record) :
    Inquiry Verdict → Record → Verdict × Record
  | .answer verdict, record => (verdict, record)
  | .ask id proceed, record =>
    if h : id < bound then
      let (kind, record) := lookUp id h record
      resolve bound lookUp (proceed kind) record
    else resolve bound lookUp (proceed .unknown) record

/-- The role of a group, from the record or by a decision that is then kept. -/
def classify (lines : Lines) (tree : GroupTree) (id : Nat) (record : Record) : GroupKind × Record :=
  match record.verdict? id with
  | some verdict => (verdict.kind, record)
  | none =>
    let (verdict, record) :=
      resolve id (fun i _ record => classify lines tree i record) (Verdict.inquiry lines tree id)
        record
    (verdict.kind, record.keep id verdict)
termination_by id

/-- Decides the groups with the given numbers, one after another. -/
def classifyEach (lines : Lines) (tree : GroupTree) (ids : List Nat) (record : Record) : Record :=
  ids.foldl (fun record id => (classify lines tree id record).2) record

/-- Decides all groups of a tree. -/
def classifyAll (lines : Lines) (tree : GroupTree) (record : Record) : Record :=
  classifyEach lines tree (List.range tree.size) record

/-- The role of a group that was decided. -/
def kind (record : Record) (id : Nat) : GroupKind :=
  ((record.verdict? id).map (·.kind)).getD .unknown

/-- The name of a group that was decided. -/
def name? (record : Record) (id : Nat) : Option String := (record.verdict? id).bind (·.name)

/-- What the decisions reported, in order. -/
def diagnostics (record : Record) : List Diagnostic := record.reported.reverse

end Record
end BracketLint
