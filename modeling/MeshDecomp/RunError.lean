import MeshDecomp.Message
import MeshDecomp.Numbering.Basic
import MeshDecomp.Settings
import MeshDecomp.Wire.Error
import MeshDecomp.Worker.Phase

/-!
Why a run ends without a report. A broken rule of the protocol is told apart from settings that a
user can mend and from failures of what the run is built on.
-/

namespace MeshDecomp

/-- A rule of the protocol that something broke. -/
inductive Violation where
  | startedTwice
  | invalidPeer (peer : Nat)
  | outOfPhase (what : String) (phase expected : Phase)
  | unexpectedCompletion (phase : Phase)
  | assignmentCount (ids elements : Nat)
  | unitOutOfRange (unit units : Nat)
  | mergeBeforePartition
  | foreignUnit (unit peer owner : Nat)
  | unitTwice (unit peer : Nat)
  | lateUnits (peer : Nat)
  | unexpectedAck
  | flattenBeforeDistribution
  | flattenBeforePartition
  | numberingBeforeFlatten
  | askedOutOfRange
  | numbering (fault : NumberingFault)
  | boundsBeforePartition
  | boundsBeforeReorder
  | unnumberedNode (node : Nat)
  | lowerFrom (peer : Nat)
  | lowerTwice
  | lowerInPhase (phase : Phase)
  | unknownPe (kind : Contribution.Kind)
  | contributedTwice (kind : Contribution.Kind)
  | incompleteElements (entries : Nat)
  | elementsStart (first expected : Nat)
  | centroidCount (centroids elements : Nat)
  | gathered (elements reported : Nat)
  | assigned (partitioner : String) (ids elements : Nat)
  | contributionToPe
  | misrouted
  | stated (text : String)
  deriving DecidableEq, Repr

namespace Violation

def message : Violation → String
  | startedTwice => "started twice"
  | invalidPeer peer => s!"message from invalid peer {peer}"
  | outOfPhase what phase expected =>
      s!"{what} received in phase {phase.name}, expected {expected.name}"
  | unexpectedCompletion phase => s!"unexpected local completion of {phase.name}"
  | assignmentCount ids elements =>
      s!"partition assigns {ids} work-unit ids to {elements} local elements"
  | unitOutOfRange unit units => s!"work unit {unit} out of range [0, {units})"
  | mergeBeforePartition => "merge before partition"
  | foreignUnit unit peer owner =>
      s!"received work unit {unit} from PE {peer}, but it belongs to PE {owner}"
  | unitTwice unit peer => s!"work unit {unit} received twice from PE {peer}"
  | lateUnits peer => s!"work units from PE {peer} after distribution"
  | unexpectedAck => "unexpected acknowledgment"
  | flattenBeforeDistribution => "flatten before distribution completed"
  | flattenBeforePartition => "flatten before partition"
  | numberingBeforeFlatten => "renumbering before flatten"
  | askedOutOfRange => "comm map names a PE out of range"
  | numbering fault => fault.message
  | boundsBeforePartition => "bounds before partition"
  | boundsBeforeReorder => "bounds before reorder"
  | unnumberedNode node => s!"node {node} has no new id"
  | lowerFrom peer => s!"lower bound from PE {peer}"
  | lowerTwice => "lower bound received twice"
  | lowerInPhase phase => s!"lower bound received in phase {phase.name}"
  | unknownPe kind => s!"{kind.name} from unknown PE"
  | contributedTwice kind => s!"{kind.name} contributed twice"
  | incompleteElements entries => s!"{entries} connectivity entries do not form tetrahedra"
  | elementsStart first expected => s!"elements start at {first}, expected {expected}"
  | centroidCount centroids elements => s!"{centroids} centroids for {elements} elements"
  | gathered elements reported => s!"gathered {elements} elements, PEs reported {reported}"
  | assigned partitioner ids elements =>
      s!"{partitioner} partitioner returned {ids} work-unit ids for {elements} elements"
  | contributionToPe => "contribution sent to a non-host rank"
  | misrouted => "misrouted message"
  | stated text => text

end Violation

inductive RunError where
  | internal (pe : Nat) (violation : Violation)
  /-- A work unit got no element. -/
  | overdecomposition (pe unit units pes : Nat)
  /-- Some processing element would own no work unit. -/
  | tooFewUnits (units pes : Nat)
  | settings (fault : SettingsFault)
  /-- Another rank failed and stopped the run. -/
  | aborted (pe : Nat) (user : Bool) (reason : String)
  /-- Nothing is left to deliver and the run is not finished. -/
  | stalled (unfinished : Nat)
  | mesh (cause : MeshError)
  | partition (cause : PartitionError)
  | link (cause : LinkError)
  | wire (cause : WireError)
  deriving DecidableEq, Repr

namespace RunError

/-- Settings that the user chose are to blame. -/
def isUser : RunError → Bool
  | overdecomposition .. => true
  | tooFewUnits .. => true
  | settings _ => true
  | aborted _ user _ => user
  | _ => false

def message : RunError → String
  | internal pe violation => s!"PE {pe}: internal consistency violation: {violation.message}"
  | overdecomposition pe unit units pes =>
      s!"PE {pe}: work unit {unit} of {units} has no mesh elements on {pes} PE(s); " ++
        "the mesh is overdecomposed, decrease the degree of virtualization or the number of PEs"
  | tooFewUnits units pes =>
      s!"{units} work unit(s) requested for {pes} PEs; " ++
        "increase the degree of virtualization or decrease the number of PEs"
  | settings fault => s!"Invalid configuration: {fault.message}"
  | aborted pe _ reason => s!"Run aborted by PE {pe}: {reason}"
  | stalled unfinished => s!"Pipeline stalled with {unfinished} PE(s) unfinished"
  | mesh cause => cause.message
  | partition cause => cause.message
  | link cause => cause.message
  | wire cause => cause.message

end RunError

end MeshDecomp
