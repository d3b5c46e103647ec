import EncryptedDedup.Lib.Bytes
import EncryptedDedup.Lib.ByteBuffer
import EncryptedDedup.Lib.OrderedMap
import EncryptedDedup.Lib.PriorityQueue
import EncryptedDedup.Lib.TopRanks
import EncryptedDedup.Lib.Loop
import EncryptedDedup.Lib.Program
import EncryptedDedup.Lib.Runs
import EncryptedDedup.Lib.Tally
import EncryptedDedup.Lib.CText
import EncryptedDedup.Lib.FirstSeen
import EncryptedDedup.Lib.Segments
import EncryptedDedup.Lib.Fallible
import EncryptedDedup.Lib.Nearest
import EncryptedDedup.Lib.Fibres
import EncryptedDedup.Lib.Jaccard
import EncryptedDedup.Lib.Patches
import EncryptedDedup.Lib.Overlay
import EncryptedDedup.Lib.Chunked
import EncryptedDedup.Lib.OpenAddressing
import EncryptedDedup.Trace
import EncryptedDedup.SingleStream.LocalityCount
import EncryptedDedup.SingleStream.NeighbourTables
import EncryptedDedup.SingleStream.CountResults
import EncryptedDedup.SingleStream.Attack
import EncryptedDedup.SingleStream.Inference
import EncryptedDedup.SingleStream.Leaks
import EncryptedDedup.SingleStream.Neighbours
import EncryptedDedup.SingleStream.NeighbourRanks
import EncryptedDedup.SingleStream.TopCounts
import EncryptedDedup.SingleStream.LocalityAttack
import EncryptedDedup.SingleStream.LocalityRun
import EncryptedDedup.SingleStream.EntropyAttack
import EncryptedDedup.SingleStream.EntropyRun
import EncryptedDedup.SingleStream.UniqMarks
import EncryptedDedup.SingleStream.EntropyMatching
import EncryptedDedup.SingleStream.RankWindow
import EncryptedDedup.SingleStream.InferenceRate
import EncryptedDedup.SingleStream.RankSimulation
import EncryptedDedup.SingleStream.Degenerate
import EncryptedDedup.Bucket.ReadChunks
import EncryptedDedup.Bucket.InferChunks
import EncryptedDedup.Bucket.Partition
import EncryptedDedup.Bucket.InferRun
import EncryptedDedup.Bucket.InferType
import EncryptedDedup.Bucket.InferTypeRun
import EncryptedDedup.Bucket.TypeList
import EncryptedDedup.Bucket.ReadTypes
import EncryptedDedup.Bucket.ReadTypesRun
import EncryptedDedup.Bucket.EncryptFSL
import EncryptedDedup.Bucket.EncryptRun
import EncryptedDedup.Bucket.ReadChunksFile
import EncryptedDedup.Bucket.ReadChunksFileRun
import EncryptedDedup.Bucket.PhantomChunks
import EncryptedDedup.Bucket.CompareDB
import EncryptedDedup.Bucket.CompareDBRun
import EncryptedDedup.Bucket.IntCounters
import EncryptedDedup.Bucket.ReadersAgree
import EncryptedDedup.Similarity.ReadHashes
import EncryptedDedup.Similarity.PSlice
import EncryptedDedup.Similarity.CSlice
import EncryptedDedup.Similarity.Segmentation
import EncryptedDedup.Similarity.Clustering
import EncryptedDedup.Similarity.Distances
import EncryptedDedup.Similarity.Handed
import EncryptedDedup.Similarity.Slices
import EncryptedDedup.Similarity.Pair
import EncryptedDedup.Similarity.PairRun
import EncryptedDedup.Similarity.SegmentMatching
import EncryptedDedup.Similarity.PairMatching
import EncryptedDedup.Similarity.SegmentCounts
import EncryptedDedup.Similarity.FreqAnalysis
import EncryptedDedup.Similarity.Duplicate
import EncryptedDedup.SDFS.HashLocPair
import EncryptedDedup.SDFS.Fingers
import EncryptedDedup.SDFS.SparseDataChunk
import EncryptedDedup.SDFS.RecordCodec
import EncryptedDedup.SDFS.WritableCacheBuffer
import EncryptedDedup.SDFS.ChunkContents
import EncryptedDedup.SDFS.WriteAccelerator
import EncryptedDedup.SDFS.ReadExtents
import EncryptedDedup.SDFS.ChunkArray
import EncryptedDedup.SDFS.ExtentWalk
import EncryptedDedup.SDFS.ReadPaths
import EncryptedDedup.SDFS.BufferedWrites
import EncryptedDedup.SDFS.DedupFileChannel
import EncryptedDedup.SDFS.FlatFile
import EncryptedDedup.SDFS.LocalLookupFilter
import EncryptedDedup.SDFS.FilterRecords
import EncryptedDedup.SDFS.FilterRun
import EncryptedDedup.SDFS.RocksDBMap
import EncryptedDedup.SDFS.CollectorSafety
import EncryptedDedup.SDFS.ExtentMap
import EncryptedDedup.SDFS.Insertion
import EncryptedDedup.SDFS.InsertRun
import EncryptedDedup.SDFS.SlotFile
import EncryptedDedup.SDFS.ProgressiveLongMap
import EncryptedDedup.SDFS.ProgressiveLongMapRun
import EncryptedDedup.SDFS.LongMapShardRun
import EncryptedDedup.SDFS.HashBlobArchiveRun
import EncryptedDedup.SDFS.DedupFileLock
import EncryptedDedup.SDFS.RocksDBLookup
import EncryptedDedup.SDFS.RocksDBGrace
import EncryptedDedup.SDFS.ShardedLongMap
import EncryptedDedup.SDFS.ClaimSweep
import EncryptedDedup.SDFS.MapIteration
import EncryptedDedup.SDFS.MapTrim
import EncryptedDedup.SDFS.MapTruncate
import EncryptedDedup.SDFS.SimpleMapRun
import EncryptedDedup.SDFS.SimpleMapIteration
import EncryptedDedup.SDFS.ReadRetries
import EncryptedDedup.SDFS.WriteBuffers
import EncryptedDedup.SDFS.Snapshot
import EncryptedDedup.SDFS.ReferenceConservation
import EncryptedDedup.SDFS.RecordPut
import EncryptedDedup.SDFS.ChunkBytes
import EncryptedDedup.SDFS.CopyExtents
import EncryptedDedup.SDFS.CopyRun
import EncryptedDedup.SDFS.RecordWrite
import EncryptedDedup.SDFS.BufferContents
import EncryptedDedup.SDFS.FlushBytes
import EncryptedDedup.SDFS.FileRun
import EncryptedDedup.SDFS.NextPrime
import EncryptedDedup.SDFS.ArchiveFiles
import EncryptedDedup.SDFS.ArchiveWriters
import EncryptedDedup.SDFS.SealedArchive
import EncryptedDedup.SDFS.Compaction
import EncryptedDedup.SDFS.OpenArchive
import EncryptedDedup.SDFS.CompactionResult
import EncryptedDedup.SDFS.ChunkStore
import EncryptedDedup.SDFS.ChunkLocations
import EncryptedDedup.SDFS.ChunkStoreSound
import EncryptedDedup.SDFS.ChunkStoreSteps
import EncryptedDedup.SDFS.ChunkStoreRun
import EncryptedDedup.SDFS.ChunkRemoval
import EncryptedDedup.SingleStream.KMinhash
import EncryptedDedup.SingleStream.LinkedTables
import EncryptedDedup.SingleStream.EncryptedCounts
import EncryptedDedup.SingleStream.MirroredRun
import EncryptedDedup.SingleStream.Recovery
