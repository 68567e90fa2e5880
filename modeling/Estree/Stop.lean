import Estree.Failure
import Estree.Fault
import Estree.Settings.Clash

/-!
What ends an operation before it has an answer.
-/

namespace Estree

inductive Stop where
  /-- Something is wrong with the input, and the user is told. -/
  | failure (f : Failure)
  /-- A rule fails on a node. -/
  | fault (f : Fault)
  /-- Flags cannot be handed on as arguments. -/
  | clash (c : Settings.Clash)
  /-- The input goes beyond what can be read, written or named. -/
  | limit (l : Limit)

namespace Stop

/-- The end that a failure makes, which has to be put into words first. -/
def ofFailure (f : Failure) : Stop := (f.limit?.map limit).getD (.failure f)

def message : Stop → Text
  | .failure f => f.text
  | .fault f => f.message
  | .clash c => c.message
  | .limit l => l.message

end Stop

end Estree
