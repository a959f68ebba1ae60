import QLog.Foundations.Transition
import QLog.Foundations.ByteMemory
import QLog.Foundations.Ring
import QLog.Buffer.Defs
import QLog.Buffer.Siso.Model
import QLog.Buffer.Siso.Placement
import QLog.Buffer.Siso.Invariant
import QLog.Buffer.Siso.Steps
import QLog.Buffer.Siso.Fifo
import QLog.Foundations.Simulation
import QLog.Foundations.Queues
import QLog.Buffer.Siso.Queue
import QLog.Buffer.Miso.Chunk
import QLog.Buffer.Miso.Invariant
import QLog.Buffer.Miso.Producer
import QLog.Buffer.Miso.Consumer
import QLog.Buffer.Miso.Safety
import QLog.Buffer.Miso.Cells
import QLog.Buffer.Miso.Recovery
import QLog.Buffer.Miso.Robust
import QLog.Buffer.Miso.Reopen
import QLog.Buffer.LogBuffer.Defs
import QLog.Buffer.LogBuffer.Writer
import QLog.Buffer.LogBuffer.Reader
import QLog.Buffer.LogBuffer.System
import QLog.Buffer.LogBuffer.Lists
import QLog.Buffer.LogBuffer.Frames
import QLog.Buffer.LogBuffer.Position
import QLog.Buffer.LogBuffer.Walk
import QLog.Buffer.LogBuffer.Effects
import QLog.Buffer.LogBuffer.ReaderEffects
import QLog.Buffer.LogBuffer.Lives
import QLog.Buffer.LogBuffer.Locks
import QLog.Buffer.LogBuffer.Progress
import QLog.Buffer.LogBuffer.Stores
import QLog.Buffer.LogBuffer.Records
import QLog.Buffer.Siso.Recovery
import QLog.Appender.WriteCache
import QLog.Appender.Segment
import QLog.Appender.SegmentAppend
import QLog.Encryption.Aes.Rounds
import QLog.Encryption.Aes.Cipher
import QLog.Encryption.BigNumber
import QLog.Encryption.Keys
import QLog.Encryption.Rsa
import QLog.Appender.SegmentKeys
import QLog.Encryption.Vernam
import QLog.Encryption.VernamKernels
import QLog.Appender.Encrypted
import QLog.Foundations.TwoPrimes
import QLog.Encryption.RsaKeys
import QLog.Encryption.KeyTexts
import QLog.Appender.Decipher
import QLog.Foundations.Utf16
import QLog.Record.Argument
import QLog.Record.LogEntry
import QLog.Record.Writer
import QLog.Record.Assembly
import QLog.Foundations.Vlq
import QLog.Appender.Compressed.HashCache
import QLog.Appender.Compressed.UtfMixed
import QLog.Appender.Compressed.Item
import QLog.Appender.Compressed.Arguments
import QLog.Appender.Compressed.LogImpl
import QLog.Appender.Compressed.Decode
import QLog.Appender.Compressed.Stream
import QLog.Buffer.LogBuffer.Sizes
import QLog.Buffer.Miso.TlsCache
import QLog.Platform.SpinLock
import QLog.Buffer.Group.Recovery
import QLog.Buffer.LogBuffer.AllocSize
import QLog.Buffer.Group.Model
import QLog.Buffer.Group.Ownership
import QLog.Foundations.Trace
import QLog.Runtime.LogImp
import QLog.Appender.Compressed.Allocation
import QLog.Buffer.GroupList.Model
import QLog.Buffer.GroupList.Invariant
import QLog.Buffer.GroupList.Writers
import QLog.Buffer.GroupList.Removal
import QLog.Foundations.While
import QLog.Layout.Content
import QLog.Layout.DoLayout
import QLog.Layout.Scan
import QLog.Appender.ReadRun
import QLog.Appender.Topology
import QLog.Appender.Compressed.Placeholder
import QLog.Appender.Compressed.CacheRuns
import QLog.Utility.HashMap.Scripts
import QLog.Layout.PaddedText
import QLog.Runtime.LogSnapshot
import QLog.Runtime.Workers.Defs
import QLog.Runtime.Workers.Exclusion
import QLog.Runtime.Workers.Shutdown
import QLog.Runtime.Workers.Progress
import QLog.Utility.LogUtils
import QLog.Foundations.Lockstep
import QLog.Utility.Hash
import QLog.Utility.UtfConversion
import QLog.Utility.UtfMixed
import QLog.Layout.Appending
import QLog.Layout.InlineConversion
import QLog.Foundations.Digits
import QLog.Layout.Integers
import QLog.Record.FormatHash
import QLog.Appender.IndexedFiles
import QLog.Appender.Retention
import QLog.Appender.Rolling
import QLog.Encryption.Trimming
import QLog.Foundations.Pieces
import QLog.Foundations.Replacing
import QLog.Utility.StringUtils
import QLog.Config.PropertyText
import QLog.Config.PropertyStore
import QLog.Io.Paths
import QLog.Runtime.LogManager
import QLog.Io.FileHandles
import QLog.Io.FileCounts
import QLog.Utility.Strtol
import QLog.Layout.ZoneText
import QLog.Layout.Turns
import QLog.Layout.Consumers
import QLog.Layout.Edits
import QLog.Foundations.Reserving
import QLog.Layout.Room
import QLog.Layout.NumberRoom
import QLog.Layout.Fitting
import QLog.Layout.Inside
