import QuantAttention.Attention.Execute
import QuantAttention.Attention.RowMajor
import QuantAttention.Digest
import QuantAttention.Proofs.Rewritten
import QuantAttention.Proofs.Positions
import QuantAttention.Proofs.Faults
import QuantAttention.Proofs.Binary32.Rounding
import QuantAttention.Proofs.Binary32.Order
import QuantAttention.Proofs.Binary32.Error
import QuantAttention.Proofs.Exponential
import QuantAttention.Proofs.Binary32.Sign
import QuantAttention.Proofs.Quantization
import QuantAttention.Proofs.Layout
import QuantAttention.Proofs.Mask
import QuantAttention.Proofs.Session
import QuantAttention.Proofs.Kernel.KeyPacking
import QuantAttention.Proofs.Kernel.ValuePacking
import QuantAttention.Proofs.Kernel.Probabilities
import QuantAttention.Proofs.Kernel.Outputs
import QuantAttention.Proofs.Attention.Packing
import QuantAttention.Proofs.Attention.Attending
import QuantAttention.Proofs.Attention.Preflight
import QuantAttention.Proofs.Attention.Execute
import QuantAttention.Proofs.Attention.Rejection
import QuantAttention.Proofs.Attention.Range
import QuantAttention.Proofs.Geometry
import QuantAttention.Proofs.Attention.Progress.Packing
import QuantAttention.Proofs.Attention.Progress.Attending
import QuantAttention.Proofs.Attention.Progress
import QuantAttention.Proofs.Attention.Correctness
import QuantAttention.Proofs.Attention.Padding
import QuantAttention.Proofs.Softmax
import QuantAttention.Proofs.WeighedSum
import QuantAttention.Proofs.Attention.Bounds
import QuantAttention.Proofs.Attention.Accumulator
import QuantAttention.Proofs.Workspace
import QuantAttention.Proofs.Attention.Frame
import QuantAttention.Proofs.Attention.Products
import QuantAttention.Proofs.Attention.Symmetry
import QuantAttention.Proofs.TileLoads
import QuantAttention.Proofs.Attention.TileCalls
import QuantAttention.Proofs.Attention.Resolution
import QuantAttention.Proofs.Acceptance
import QuantAttention.Proofs.SoftmaxMass
import QuantAttention.Proofs.Kernel.ModerateRows
import QuantAttention.Proofs.Json.Text
import QuantAttention.Proofs.Json.Value
import QuantAttention.Proofs.Json.Object
import QuantAttention.Proofs.Json.Record
import QuantAttention.Proofs.Config.Rendering
import QuantAttention.Proofs.QuantizationError
import QuantAttention.Proofs.FullRange
import QuantAttention.Proofs.Attention.WorkspaceSize
import QuantAttention.Proofs.Requirements
import QuantAttention.Proofs.ExponentialOrder
import QuantAttention.Proofs.Kernel.ScoreOrder
import QuantAttention.Proofs.Attention.Contraction
import QuantAttention.Proofs.Kernel.PackedBlocks
import QuantAttention.Proofs.Kernel.ProbabilityCells
import QuantAttention.Proofs.Agreement
import QuantAttention.Proofs.Kernel.OutputRows
import QuantAttention.Proofs.ScratchWrites
import QuantAttention.Proofs.TileGeometry
import QuantAttention.Proofs.SessionSteps
import QuantAttention.Proofs.TileAccounts
import QuantAttention.Proofs.PaddedRows
