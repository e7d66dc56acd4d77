import LibND4J.Arrays.Broadcasts
import LibND4J.Arrays.Flatten
import LibND4J.Arrays.Identity
import LibND4J.Arrays.RequestedShapes
import LibND4J.Arrays.Rows
import LibND4J.Arrays.Shuffle
import LibND4J.Arrays.Svd
import LibND4J.Arrays.Tile
import LibND4J.Arrays.Transposes
import LibND4J.Convolutions.Conv3D
import LibND4J.Convolutions.Deconv2DBp
import LibND4J.Convolutions.FullConv3D
import LibND4J.Convolutions.MaxPool2D
import LibND4J.Convolutions.SamePadding
import LibND4J.Convolutions.Upsampling
import LibND4J.Encoding.Transfers
import LibND4J.Graph.BuiltGraphs
import LibND4J.Graph.FailedLookups
import LibND4J.Graph.ReductionNodes
import LibND4J.Graph.SessionRuns
import LibND4J.Graph.Stash
import LibND4J.Graph.Validate
import LibND4J.Layers.FeedForward
import LibND4J.Loops.Histogram
import LibND4J.Loops.IndexReduceRuns
import LibND4J.Loops.ScalarAlong
import LibND4J.Memory.Cycles
import LibND4J.Memory.HeapCalls
import LibND4J.Ops.Aggregates
import LibND4J.Ops.Arithmetic
import LibND4J.Ops.Average
import LibND4J.Ops.Batchnorm
import LibND4J.Ops.Biasadd
import LibND4J.Ops.Lrn
import LibND4J.Ops.OpRegistrator
import LibND4J.Ops.PrepareOutputs
import LibND4J.Ops.ScatterUpdate
import LibND4J.Ops.Softmax
import LibND4J.Random.Binomial
import LibND4J.Random.Choice
import LibND4J.Random.Gaussian
import LibND4J.Random.NextInt
import LibND4J.Random.RandomFunction
import LibND4J.Random.Xoroshiro
import LibND4J.Shape.ElementWiseStride
import LibND4J.Shape.Numbering
import LibND4J.Sorting.CooSort
import LibND4J.Sorting.QuickSort
import LibND4J.Types.Float16
import LibND4J.Types.Float8
