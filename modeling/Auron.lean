import Auron.Agg.AggHashMap
import Auron.Agg.First
import Auron.Agg.HeapAccounting
import Auron.Agg.SpillBucket
import Auron.Algorithm.KWayMerge
import Auron.Arrow.Cast
import Auron.Common.UserDefinedArray
import Auron.Eval.CachedExprsEvaluator
import Auron.Flink.JsonDeserializer
import Auron.Functions.ArrayUnion
import Auron.Functions.Decimal
import Auron.Functions.FlinkDatetime
import Auron.Hash.SparkHash
import Auron.Joins.ArrowKeys
import Auron.Joins.BroadcastJoinExec
import Auron.Joins.HashMapSerde
import Auron.MemLocks
import Auron.OnHeapSpill
import Auron.Runtime.NextBatch
import Auron.Shuffle.SortRepartitioner
import Auron.Sink.PartitionSink
import Auron.Sort.KeyAccess
import Auron.Sort.ReadFailures
import Auron.Window.AggProcessor
import Auron.Window.WindowExec
