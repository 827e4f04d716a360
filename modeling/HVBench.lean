import HVBench.ConcurrentQueue.Sequential
import HVBench.Kafka.Matching
import HVBench.Kafka.ProduceResponse
import HVBench.Kafka.KafkaOutput
import HVBench.Statistics.Windows
import HVBench.Statistics.ReplyMatching
import HVBench.Controller.ReplyRace
import HVBench.Controller.Connection
import HVBench.Tenant.Lifecycle
import HVBench.Tenant.Publication
import HVBench.Tenant.Shutdown
import HVBench.Generators.TenantGenerator
import HVBench.Tenant.ConfigRace
import HVBench.Node.HVBenchNode
import HVBench.Node.Handshake
import HVBench.Node.Liveness
import HVBench.Etcd.Reply
import HVBench.Instance.Events
import HVBench.Etcd.Watch
import HVBench.Etcd.Recovery
import HVBench.Etcd.Delivery
import HVBench.Instance.Watchers
import HVBench.Instance.HandlerFailures
import HVBench.Tenant.Setup
import HVBench.Instance.Containment
import HVBench.Statistics.Output
import HVBench.Statistics.Overload
import HVBench.Controller.Records
import HVBench.Controller.Traffic
import HVBench.Generators.AbstractGenerator
import HVBench.Generators.Leaves
import HVBench.Generators.TransactionIds
import HVBench.Statistics.InOrder
import HVBench.Statistics.Aggregates
import HVBench.Tenant.ConfigKeys
import HVBench.Generators.Parameters
import HVBench.Tenant.Namespaces
import HVBench.Generators.Validity
import HVBench.Generators.Schedule
import HVBench.Of.EchoReply
import HVBench.Generators.GeneratorContainer
import HVBench.Etcd.Helper
