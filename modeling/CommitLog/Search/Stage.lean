/-!
# Stages of a search

A search starts small and widens when it finds too little.  Each stage has a limit on the number of
commits to look for; the last one has none that matters.
-/

namespace CommitLog

/-- How wide a search is. -/
inductive Stage where
  | initial
  | firstStep
  | all
  deriving DecidableEq, Repr

/-- The limits of the first two stages. -/
structure Budget where
  initial : Nat
  firstStep : Nat
  deriving DecidableEq, Repr

def Budget.standard : Budget := ⟨5, 2000⟩

/-- The greatest count: as good as no limit. -/
def greatestCount : Nat := 18446744073709551615

namespace Stage

def next : Stage → Stage
  | .initial => .firstStep
  | .firstStep | .all => .all

def rank : Stage → Nat
  | .initial => 0
  | .firstStep => 1
  | .all => 2

/-- Whether this is the stage of the pass through memory. -/
def isInitial (stage : Stage) : Bool := stage == .initial

/-- The number of commits to look for. -/
def limit (budget : Budget) : Stage → Nat
  | .initial => budget.initial
  | .firstStep => budget.firstStep
  | .all => greatestCount

def name : Stage → String
  | .initial => "initial"
  | .firstStep => "first-step"
  | .all => "all"

def named? : String → Option Stage
  | "initial" => some .initial
  | "first-step" => some .firstStep
  | "all" => some .all
  | _ => none

end Stage

end CommitLog
