import XProject.Std.Machine
import XProject.Std.NodeList
import XProject.Types.LruCache
import XProject.Types.LruCoherence
import XProject.Types.LruCounter
import XProject.Types.LruReference
import XProject.Stream.DataStream
import XProject.Stream.Navigation
import XProject.Std.Base128
import XProject.Stream.Stream
import XProject.Codec.Leb128
import XProject.Codec.Leb128Readers
import XProject.Codec.Leb128RoundTrip
import XProject.Plugin.LibcModule
import XProject.Plugin.WideBounds
import XProject.Std.Action
import XProject.Std.Ascending
import XProject.Stream.Deserialize
import XProject.Stream.Hostile
import XProject.Stream.Serialize
import XProject.Stream.Emitted
import XProject.Stream.Output
import XProject.Stream.Reading
import XProject.Stream.RoundTrip
import XProject.Stream.VarIntSign
import XProject.Stream.VarUIntAgreement
import XProject.Std.Growable
import XProject.Stream.Calls
import XProject.Stream.GrowableMemory
import XProject.Stream.FileStream
import XProject.Stream.FileMove
import XProject.Stream.Freeze
import XProject.Stream.Reuse
import XProject.Types.LruIndex
import XProject.Stream.Pack
import XProject.Stream.Replacement
import XProject.Stream.Truncation
import XProject.Plugin.StringIntrinsics
import XProject.Plugin.StringBounds
import XProject.Codec.Leb128Minimal
import XProject.Stream.WriteBounds
import XProject.Stream.Limits
import XProject.Crypto.Base64
import XProject.Crypto.Base64Decode
import XProject.Crypto.Base64Safety
import XProject.Crypto.Base64RoundTrip
import XProject.Std.Heap
import XProject.Std.Records
import XProject.Types.FlatArray
import XProject.Types.FlatArrayReference
import XProject.Plugin.MemoryIntrinsics
import XProject.Plugin.NumberIntrinsics
import XProject.Plugin.PointerGuards
import XProject.Codec.Leb128Patch
import XProject.Stream.MemoryBounds
import XProject.Types.FlatArrayStorage
import XProject.Types.LruResize
import XProject.Stream.ByteContainers
import XProject.Std.Hex
import XProject.Utils.Hex
import XProject.Stream.MemoryDump
import XProject.Stream.DumpLines
import XProject.Plugin.Strtoul
import XProject.Plugin.WideSearch
import XProject.Std.Threads
import XProject.Threads.SpinLock
import XProject.Engine.IntrinsicContext
import XProject.Engine.GetInstance
import XProject.Std.Lines
import XProject.Stream.LogStream
import XProject.Stream.Journal
import XProject.Stream.NormalForm
import XProject.Plugin.GuestStrings
import XProject.Types.LruRecency
import XProject.Stream.FileHandles
import XProject.Stream.Message
import XProject.Plugin.LinearMemory
import XProject.Plugin.GuestNumbers
import XProject.Log.Tracer
import XProject.Std.CursorArray
import XProject.Stream.BufferAccess
import XProject.Stream.SaveFile
import XProject.Stream.Unpack
