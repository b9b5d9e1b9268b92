import XcRos.CppCommon.Header
import XcRos.Genpy.Deserialize
import XcRos.Libros.CallbackLocks
import XcRos.Libros.CallbackRemoval
import XcRos.Libros.IntraProcess
import XcRos.Libros.ParamCoherence
import XcRos.Libros.ParamFreshness
import XcRos.Libros.Publication
import XcRos.Libros.PublisherSet
import XcRos.Libros.ServiceTeardown
import XcRos.Libros.ServiceWakeup
import XcRos.Libros.SlaveApi
import XcRos.Libros.SubscriptionDelivery
import XcRos.Libros.TcpFraming
import XcRos.Libros.TimerManager
import XcRos.Libros.UdpIntegrity
import XcRos.Libros.UdpRoundTrip
import XcRos.Msg.DependsTermination
import XcRos.Msg.Formatting
import XcRos.Msg.Service
import XcRos.Msg.SrvLoader
import XcRos.Roslib.Names
import XcRos.Rosmake.BuildQueue
import XcRos.Rostime.Duration
import XcRos.Rpc.ClientIntegrity
import XcRos.Rpc.Multicall
import XcRos.Rpc.RequestFraming
import XcRos.Rpc.Work
import XcRos.Serialization.Message
import XcRos.Foundation.Delimiter
import XcRos.Msg.FullText
import XcRos.Rosmake.BuildOrder
import XcRos.Libros.LinkRetry
import XcRos.Libros.LocalLink
import XcRos.Libros.SubscriptionTable
import XcRos.Libros.AdvertisedTopics
import XcRos.Libros.TimerConservation
import XcRos.Libros.CallbackOrder
import XcRos.Libros.SubscriptionCalls
import XcRos.Libros.BoundMethods
import XcRos.Libros.CleanReads
import XcRos.Libros.SpinnerExactness
import XcRos.Libros.ParentNamespace
import XcRos.Libros.RequestEscape
import XcRos.CppCommon.HeaderBounds
import XcRos.Libros.Init
import XcRos.Libros.UdpSizes
import XcRos.Libros.PollSet
import XcRos.Libros.ConnectionManager
import XcRos.Libros.Negotiation
import XcRos.Rostime.Seconds
import XcRos.Libros.Statistics
import XcRos.Libros.ClientPool
import XcRos.Rpc.AsyncCall
import XcRos.Rpc.Entities
import XcRos.Rpc.Exchange
import XcRos.Rpc.ResponseFraming
import XcRos.Msg.FullTextSplits
import XcRos.Genpy.Accesses
import XcRos.Genpy.EmittedLiterals
import XcRos.Genpy.EscapedText
import XcRos.Genpy.EmittedPaths
import XcRos.Genpy.AttributePaths
import XcRos.Rpc.DateTime
import XcRos.Rpc.ValueBounds
import XcRos.Rpc.ValueReader
import XcRos.Rpc.ValueEquality
import XcRos.Rpc.ValueStorage
import XcRos.Rpc.ValueTokens
import XcRos.Rpc.ValueExactness
import XcRos.Rpc.PassSteps
import XcRos.Libros.ServiceResponse
import XcRos.Serialization.Exactness
import XcRos.Genpy.Faults
import XcRos.Foundation.Scan
import XcRos.Genpy.Read
import XcRos.Genpy.ReadFields
import XcRos.Genpy.ReadArrays
import XcRos.Genpy.ReadFn
import XcRos.Genpy.DeserializeFn
import XcRos.Genpy.Underfill
import XcRos.Rostime.Shift
import XcRos.Msg.DeclaredNames
import XcRos.Msg.IntegerConstants
import XcRos.Libros.ParamContainers
import XcRos.Gencpp.IsFixedLength
import XcRos.Genpy.CheckType
import XcRos.Genpy.Literal
import XcRos.Genpy.ReducePattern
import XcRos.Foundation.Blocks
import XcRos.Genpy.Strify
import XcRos.Genpy.FillArgs
import XcRos.Genpy.Fresh
import XcRos.Genpy.StrifyBlocks
import XcRos.Genpy.FillFields
import XcRos.Genpy.Yaml
import XcRos.Genpy.TextFields
import XcRos.Genpy.TextRoundTrip
import XcRos.Genpy.PlainYaml
import XcRos.Genpy.TextExactness
import XcRos.Genpy.RoundTrip
import XcRos.Foundation.Newest
import XcRos.Libros.BoundedOutbox
import XcRos.Foundation.Postorder
import XcRos.Rosmake.BuildList
import XcRos.Genpy.Rostime
import XcRos.Genpy.RostimeAgreement
import XcRos.Rpc.CallFraming
import XcRos.Rpc.RemoteCall
import XcRos.Rpc.RemoteCallSteps
import XcRos.Rpc.RemoteCalls
import XcRos.Genpy.SharedTypes
import XcRos.Genpy.WireAgreement
