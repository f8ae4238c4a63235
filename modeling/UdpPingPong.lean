import UdpPingPong.Lib.Exec
import UdpPingPong.Lib.Buffer
import UdpPingPong.Lib.Greedy
import UdpPingPong.Lib.Decimal
import UdpPingPong.Lib.KeyList
import UdpPingPong.Lib.RbTree
import UdpPingPong.Lib.Rounding
import UdpPingPong.Lib.Sentinel
import UdpPingPong.Lib.Stdio
import UdpPingPong.Lib.Memory
import UdpPingPong.Lib.Rearm
import UdpPingPong.Lib.Ticking
import UdpPingPong.Lib.Options
import UdpPingPong.Lib.RoundRobin
import UdpPingPong.Sender.Packet
import UdpPingPong.Sender.Pacing
import UdpPingPong.Sender.Schedule
import UdpPingPong.Sender.Slices
import UdpPingPong.Sender.Thread
import UdpPingPong.Sender.Stopping
import UdpPingPong.Sender.Duration
import UdpPingPong.Sender.Ending
import UdpPingPong.Sender.Pool
import UdpPingPong.Sender.Ids
import UdpPingPong.Sender.Receiver
import UdpPingPong.Sender.System
import UdpPingPong.Sender.Session
import UdpPingPong.Sender.Rtt
import UdpPingPong.Bouncer.Worker
import UdpPingPong.Bouncer.Accounting
import UdpPingPong.Bouncer.Counter
import UdpPingPong.Bouncer.Start
import UdpPingPong.Bouncer.Lifecycle
import UdpPingPong.Bouncer.Teardown
import UdpPingPong.RoundTrip
import UdpPingPong.Network.Programs
import UdpPingPong.Network.Samples
import UdpPingPong.Network.Order
import UdpPingPong.Network.Counts
import UdpPingPong.Stat.Key
import UdpPingPong.Stat.AssocArray
import UdpPingPong.Stat.SystemStat
import UdpPingPong.Text
import UdpPingPong.Endpoint
import UdpPingPong.Stat.NetDev
import UdpPingPong.Stat.Sensor
import UdpPingPong.Lib.Running
import UdpPingPong.Lib.Mean
import UdpPingPong.Sender.Report
import UdpPingPong.Sender.Throughput
import UdpPingPong.Stat.CpuUsage
import UdpPingPong.Stat.Delta
import UdpPingPong.Sender.Attempts
import UdpPingPong.Lib.Progression
import UdpPingPong.Lib.While
import UdpPingPong.Sender.Rates
import UdpPingPong.Bouncer.Sizes
import UdpPingPong.Bouncer.Arguments
import UdpPingPong.Lib.Double
import UdpPingPong.Sender.Samples
import UdpPingPong.Sender.Sleeps
import UdpPingPong.Lib.Checkpoint
import UdpPingPong.StopRequest
import UdpPingPong.StatusLine
import UdpPingPong.Stat.Export
import UdpPingPong.Stat.Equality
import UdpPingPong.Stat.Import
import UdpPingPong.Stat.MapArray
import UdpPingPong.Stat.EchoCounter
import UdpPingPong.Sender.SourceList
import UdpPingPong.Sender.Arguments
import UdpPingPong.Sender.Prepare
import UdpPingPong.Stat.Template
