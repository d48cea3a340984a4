import Daqbuf.Streams.RangeFilter
import Daqbuf.Items.Merger
import Daqbuf.Items.MergeEvents
import Daqbuf.Items.MergerRun
import Daqbuf.Items.ChannelEvents
import Daqbuf.Items.MergeChannelEvents
import Daqbuf.Bytes.Endian
import Daqbuf.Bytes.Fifo
import Daqbuf.Streams.SlideBuf
import Daqbuf.Items.Frame
import Daqbuf.Streams.FrameStream
import Daqbuf.Ca.Msg
import Daqbuf.Ca.Proto
import Daqbuf.Ca.Wire
import Daqbuf.Ca.Reassembly
import Daqbuf.Ca.BufferSpace
import Daqbuf.Ca.Encode
import Daqbuf.Ca.Safety
import Daqbuf.Serieswriter.Queue
import Daqbuf.Serieswriter.Writer
import Daqbuf.Serieswriter.RateLimitWriter
import Daqbuf.Serieswriter.RtWriter
import Daqbuf.Serieswriter.Reput
import Daqbuf.Serieswriter.SameQueue
import Daqbuf.Binning.Bins
import Daqbuf.Binning.EventsTimeweight
import Daqbuf.Scylla.LspMerge
import Daqbuf.Scylla.EventsKs
import Daqbuf.Scylla.EventsKsOrder
import Daqbuf.Scylla.PartMerge
import Daqbuf.Scylla.LspFwdMspMultiRun
import Daqbuf.Search.FirstMerge
import Daqbuf.Scylla.Bincache
import Daqbuf.Iter.Yields
import Daqbuf.Scylla.MspLspIter
import Daqbuf.Disk.Index
import Daqbuf.Disk.Datafile
import Daqbuf.Ca.FindIoc
import Daqbuf.Connset.Channel
import Daqbuf.Connset.ConnSet
import Daqbuf.Channelheap.FetchPolling
import Daqbuf.Channelheap.FetchMonitoring
import Daqbuf.Channelheap.Fetchmpx
import Daqbuf.Binning.BinsAggregator
import Daqbuf.Binning.BinsTimeweight
import Daqbuf.Items.EventFull
import Daqbuf.Parse.Api1
import Daqbuf.Parse.Channelconfig
import Daqbuf.Disk.EventChunker
import Daqbuf.Binning.EventsRun
import Daqbuf.Binning.EventsAccepted
import Daqbuf.Binning.EventsCntZero
import Daqbuf.Dbpg.SeriesByChannel
import Daqbuf.Arith.Checked
import Daqbuf.Items.Offsets
import Daqbuf.Netpod.CoveringRange
import Daqbuf.Search.Nearest
import Daqbuf.Series.Msp
import Daqbuf.Timebin.CachedReader
import Daqbuf.Slots.Pool
import Daqbuf.Slots.Registry
import Daqbuf.Ca.Caids
import Daqbuf.Items.EventFullColumns
import Daqbuf.Items.EstimateCache
import Daqbuf.Streams.EmptyChunks
import Daqbuf.Bytes.Growable
import Daqbuf.Streams.FramedBytes
import Daqbuf.Streams.RangeFilterStatus
import Daqbuf.Timebin.GapFill
import Daqbuf.Timebin.GapFillEnds
import Daqbuf.Bytes.Tape
import Daqbuf.Streams.SlideBufQueue
import Daqbuf.Streams.BufferUnordered
import Daqbuf.Bytes.Layout
import Daqbuf.Scylla.Valueblob
import Daqbuf.Scylla.FromBinned
import Daqbuf.Serieswriter.BinWriter
import Daqbuf.Serieswriter.BinWriterRun
import Daqbuf.Parse.MatchingConfig
import Daqbuf.Disk.Decode
import Daqbuf.Disk.EventsDynStream
import Daqbuf.Httpret.Pulsemap
import Daqbuf.Disk.EventChunkerOrder
import Daqbuf.Ca.FindIocStream
import Daqbuf.Ca.ActiveCa
import Daqbuf.Connset.ConnComm
import Daqbuf.Channelheap.Creating
import Daqbuf.Channelheap.Running
import Daqbuf.Channelheap.ChannelHandler
import Daqbuf.Ca.Asynbuf
import Daqbuf.Serieswriter.FixGrid
import Daqbuf.Httpret.Api1
import Daqbuf.Batchtools.Batcher
import Daqbuf.Bsread.Zmtpproto
import Daqbuf.Metrics.Ingest
import Daqbuf.Scylla.BinWriteIndex
import Daqbuf.Ca.Connected
import Daqbuf.Dbpg.Workers
import Daqbuf.Poll.Paired
import Daqbuf.Poll.Stage
import Daqbuf.Channelheap.Subscriptions
import Daqbuf.Scylla.Sitems
import Daqbuf.Streams.Dedup
import Daqbuf.Streams.Monotonic
import Daqbuf.Scylla.OneBeforeAndBulk
import Daqbuf.Scylla.LspMergeItems
import Daqbuf.Streams.Diagnostics
import Daqbuf.Scylla.ReadPath
import Daqbuf.Binning.EventsStream
import Daqbuf.Binning.BinsStream
import Daqbuf.Streams.Collect
