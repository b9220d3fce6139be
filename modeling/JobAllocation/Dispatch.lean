import JobAllocation.Job
import JobAllocation.Selection

/-!
# Dispatching rules

A rule scores a job at the time of the pick, and the lowest score goes first. Several rules form a
ranking: each is consulted only where all earlier ones tie, and jobs that tie on every rule go by
number. Scores are compared by the total order, so a choice is made whatever the scores are.

An engine may score in any way. A chain is made of the three usual rules, whose scores do not depend
on the time.
-/
namespace JobAllocation

variable {T : Type} [Quantity T]

/-- Scores in the order in which they are consulted. -/
abbrev Ranking (T : Type) := List (Job T → T)

namespace Ranking

/-- Which of two jobs goes first. -/
def compare (ranking : Ranking T) (a b : Job T) : Ordering :=
  ranking.foldr (fun score later => (Quantity.totalOrder (score a) (score b)).then later)
    (Ord.compare a.id b.id)

/-- Whether a job goes strictly before another. -/
def precedes (ranking : Ranking T) (a b : Job T) : Bool := ranking.compare a b == .lt

/-- The job that goes first, the earliest listed if several are alike. -/
def select? (ranking : Ranking T) (jobs : List (Job T)) : Option (Job T) :=
  Selection.best? ranking.precedes jobs

/-- The position of the job that goes first. -/
def selectIndex? (ranking : Ranking T) (jobs : List (Job T)) : Option Nat :=
  (Selection.best? (fun a b => ranking.precedes a.1 b.1) jobs.zipIdx).map (·.2)

end Ranking

/-- Rules of any kind, in the order in which they are consulted: what each ranks jobs by at a given
time. -/
abbrev RuleEngine (T : Type) := List (T → Job T → T)

/-- The scores at a given time. -/
def RuleEngine.rankingAt (engine : RuleEngine T) (now : T) : Ranking T := engine.map (· now)

inductive Rule where
  | fifo
  | spt
  | edd
  deriving DecidableEq

namespace Rule

def name : Rule → String
  | fifo => "FIFO"
  | spt => "SPT"
  | edd => "EDD"

def description : Rule → String
  | fifo => "First In First Out"
  | spt => "Shortest Processing Time"
  | edd => "Earliest Due Date"

/-- What the rule ranks jobs by. -/
def score (rule : Rule) (job : Job T) : T :=
  match rule with
  | fifo => job.arrival
  | spt => Quantity.ofNat job.length
  | edd => job.due

end Rule

/-- The usual rules in the order in which they are consulted. -/
abbrev RuleChain := List Rule

namespace RuleChain

/-- The scores of the rules. -/
def ranking (chain : RuleChain) : Ranking T := chain.map Rule.score

/-- The chain as an engine, whose scores are the same at all times. -/
def engine (chain : RuleChain) : RuleEngine T := chain.map fun rule _ => rule.score

/-- The position of the job that goes first. -/
def selectIndex? (chain : RuleChain) (jobs : List (Job T)) : Option Nat :=
  chain.ranking.selectIndex? jobs

/-- The name of the rule that is consulted first. -/
def leadingName? (chain : RuleChain) : Option String := chain.head?.map Rule.name

/-- The chain as text. -/
def text (chain : RuleChain) : String :=
  let names := chain.map fun rule => "\"" ++ rule.name ++ "\""
  "RuleEngine \x7b rules: [" ++ ", ".intercalate names ++ "] \x7d"

end RuleChain
end JobAllocation
