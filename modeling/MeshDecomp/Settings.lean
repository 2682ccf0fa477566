import MeshDecomp.Decimal.Text
import MeshDecomp.Json.Parser
import MeshDecomp.Partition.Algorithm

/-! The settings of a run, which every processing element and the host share. -/

namespace MeshDecomp

/-- Settings, or sizes that follow from them, that no run can use. -/
inductive SettingsFault where
  | virtualization (value : Binary64)
  | noUnits
  | noPes
  | load (elements pes : Nat)
  | rank (rank pes : Nat)
  | stated (text : String)
  deriving DecidableEq, Repr

namespace SettingsFault

def message : SettingsFault → String
  | virtualization value => s!"virtualization must be in [0, 1], got {Decimal.plain value}"
  | noUnits => "number of work units must be positive"
  | noPes => "number of PEs must be positive"
  | load elements pes =>
      s!"load ({elements} elements) must not be smaller than the number of PEs ({pes})"
  | rank r pes => s!"rank {r} out of range for {pes} PEs"
  | stated text => text

end SettingsFault

structure Settings where
  algorithm : Algorithm := .coordinateBisection
  /-- From `0`, about one work unit per processing element, to `1`, one per element. -/
  virtualization : Binary64 := .zero
  /-- The number of work units, where it is given. -/
  units : Option Nat := none
  deriving DecidableEq, Repr

namespace Settings

/-- Between `0` and `1`, both included. -/
def isShare (v : Binary64) : Bool := Binary64.zero.le v && v.le .one

def validate (s : Settings) : Except SettingsFault Unit :=
  if !isShare s.virtualization then .error (.virtualization s.virtualization)
  else if s.units = some 0 then .error .noUnits
  else .ok ()

/-- The name of an algorithm, or an object with this name as its only member. -/
def algorithm? : Json → Option Algorithm
  | .text (some name) => Algorithm.ofName? name
  | .object [(some name, .null)] => Algorithm.ofName? name
  | _ => none

def ofJson? (j : Json) : Option Settings := do
  let fields ← j.fields? ["algorithm", "virtualization", "nchare"]
  return {
    algorithm := ← Json.field? fields 0 algorithm? (some .coordinateBisection)
    virtualization := ← Json.field? fields 1 Json.real? (some .zero)
    units := ← Json.field? fields 2 (Json.optional? Json.word?) (some none) }

def parse? (text : String) : Option Settings := Json.parse? text >>= ofJson?

def text (s : Settings) : String :=
  let units := match s.units with
    | some n => toString n
    | none => "null"
  "\x7b\"algorithm\":\"" ++ s.algorithm.name ++ "\",\"virtualization\":" ++
    Decimal.document s.virtualization ++ ",\"nchare\":" ++ units ++ "\x7d"

end Settings

/-- The size of a work unit in elements, and how many there are. -/
structure Granularity where
  unitSize : Nat
  units : Nat
  deriving DecidableEq, Repr

namespace Granularity

/-- Units from one element (`1`) up to an equal share of the load for each processing element
(`0`), in between by linear interpolation. -/
def ofShare (v : Binary64) (load pes : Nat) : Except SettingsFault Granularity :=
  if !Settings.isShare v then .error (.virtualization v)
  else if pes = 0 then .error .noPes
  else if load < pes then .error (.load load pes)
  else
    let largest := Binary64.ofNat load / .ofNat pes
    let size := max 1 (Binary64.truncate UInt64.size ((.one - v) * (largest - .one) + .one))
    .ok ⟨size, load / size⟩

end Granularity

end MeshDecomp
