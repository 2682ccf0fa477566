import MeshDecomp.Mesh.Box
import MeshDecomp.Network.Script
import MeshDecomp.Network.Simulation
import MeshDecomp.Partition.Elementary
import MeshDecomp.Rank.Universe
import MeshDecomp.Proofs.Sharing
import MeshDecomp.Proofs.Tiling
import MeshDecomp.Network.Delivery
import MeshDecomp.Proofs.Scenario
import MeshDecomp.Proofs.Cargo
import MeshDecomp.Proofs.Table
import MeshDecomp.Proofs.Lists
import MeshDecomp.Proofs.Renumbering
import MeshDecomp.Proofs.Units
import MeshDecomp.Proofs.View
import MeshDecomp.Proofs.Distribution
import MeshDecomp.Proofs.Exchange
import MeshDecomp.Proofs.Reading
import MeshDecomp.Proofs.Causes
import MeshDecomp.Proofs.History
import MeshDecomp.Proofs.Effects
import MeshDecomp.Proofs.Gathering
import MeshDecomp.Proofs.Tallies
import MeshDecomp.Proofs.Hosting
import MeshDecomp.Proofs.Turns
import MeshDecomp.Proofs.Reflection
import MeshDecomp.Proofs.Launch
import MeshDecomp.Proofs.Runs
import MeshDecomp.Proofs.Collected
import MeshDecomp.Proofs.DeliveryOrder
import MeshDecomp.Proofs.HonestRuns
import MeshDecomp.Proofs.NewIds
import MeshDecomp.Proofs.Contents
import MeshDecomp.Proofs.Bounds
import MeshDecomp.Proofs.Logs
import MeshDecomp.Proofs.RoundTrips
import MeshDecomp.Proofs.Exports
import MeshDecomp.Proofs.Requests
import MeshDecomp.Proofs.Quiescence
import MeshDecomp.Proofs.Repeats
import MeshDecomp.Proofs.Losses
import MeshDecomp.Proofs.Utf8
import MeshDecomp.Proofs.Codec
import MeshDecomp.Proofs.Words
import MeshDecomp.Proofs.Simulations
import MeshDecomp.Proofs.Posting
import MeshDecomp.Proofs.Readers
import MeshDecomp.Proofs.Plans
import MeshDecomp.Proofs.Ledgers
import MeshDecomp.Proofs.Interleavings
import MeshDecomp.Proofs.Agreement
import MeshDecomp.Proofs.Loopback
import MeshDecomp.Proofs.Refinement
import MeshDecomp.Proofs.Jobs
import MeshDecomp.Proofs.Reception
import MeshDecomp.Proofs.Texts
import MeshDecomp.Proofs.JobPlans
import MeshDecomp.Proofs.Consensus
import MeshDecomp.Proofs.Crashes
import MeshDecomp.Proofs.Envelopes
import MeshDecomp.Proofs.Framing
import MeshDecomp.Proofs.Canonical
import MeshDecomp.Proofs.Acceptance
import MeshDecomp.Proofs.Barriers
import MeshDecomp.Proofs.LowestHolders
import MeshDecomp.Proofs.Standings
import MeshDecomp.Proofs.Calls
import MeshDecomp.Proofs.Phases
import MeshDecomp.Proofs.Outputs
import MeshDecomp.Proofs.Decisions
import MeshDecomp.Proofs.OrderOnly
import MeshDecomp.Proofs.Relabelling
import MeshDecomp.Proofs.NumberingCalls
import MeshDecomp.Proofs.Fates
import MeshDecomp.Proofs.Permanence
import MeshDecomp.Proofs.Acknowledgments
import MeshDecomp.Proofs.Receipts
import MeshDecomp.Proofs.Overlooked
import MeshDecomp.Proofs.Commuting
import MeshDecomp.Proofs.Scattering
import MeshDecomp.Proofs.Clouds
import MeshDecomp.Proofs.Shares
import MeshDecomp.Proofs.Rows
import MeshDecomp.Proofs.Growing
import MeshDecomp.Proofs.Validity
import MeshDecomp.Proofs.Balance
import MeshDecomp.Proofs.Selections
import MeshDecomp.Proofs.Lookups
import MeshDecomp.Proofs.GraphBuilding
import MeshDecomp.Proofs.GrowthLookups
import MeshDecomp.Proofs.Safety
import MeshDecomp.Proofs.SharedFaces
import MeshDecomp.Proofs.Clusters
import MeshDecomp.Proofs.Octants
import MeshDecomp.Proofs.CurveSteps
import MeshDecomp.Proofs.Nesting
import MeshDecomp.Proofs.Grids
import MeshDecomp.Proofs.Pieces
import MeshDecomp.Proofs.BoxFaces
import MeshDecomp.Proofs.BoxMeshes
