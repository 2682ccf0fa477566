import MeshDecomp.Decimal.Text
import MeshDecomp.Json.Parser

/-! The summary of a finished run, and its text. -/

namespace MeshDecomp

structure Report where
  pes : Nat
  elements : Nat
  units : Nat
  /-- Distinct nodes, which is the size of the new numbering. -/
  nodes : Nat
  meanCost : Binary64
  /-- The standard deviation of the cost. -/
  costDeviation : Binary64
  deriving DecidableEq, Repr

namespace Report

def ofJson? (j : Json) : Option Report := do
  let fields ← j.fields? ["npes", "nelem", "nchare", "nodes", "avg_cost", "std_cost"]
  return {
    pes := ← Json.field? fields 0 Json.word? none
    elements := ← Json.field? fields 1 Json.word? none
    units := ← Json.field? fields 2 Json.word? none
    nodes := ← Json.field? fields 3 Json.word? none
    meanCost := ← Json.field? fields 4 Json.real? none
    costDeviation := ← Json.field? fields 5 Json.real? none }

def parse? (text : String) : Option Report := Json.parse? text >>= ofJson?

def text (r : Report) : String :=
  "\x7b\"npes\":" ++ toString r.pes ++ ",\"nelem\":" ++ toString r.elements ++ ",\"nchare\":" ++
    toString r.units ++ ",\"nodes\":" ++ toString r.nodes ++ ",\"avg_cost\":" ++
    Decimal.document r.meanCost ++ ",\"std_cost\":" ++ Decimal.document r.costDeviation ++ "\x7d"

end Report

end MeshDecomp
