import MultiPython.Context.Accounts
import MultiPython.Context.Queue
import MultiPython.Context.Registry
import MultiPython.Context.SysMirrors
import MultiPython.Esp32.Conditions
import MultiPython.Esp32.Isolation
import MultiPython.Esp32.LedChain
import MultiPython.Esp32.ResponseTarget
import MultiPython.Esp32.Suspend
import MultiPython.Esp32.ThreadContext
import MultiPython.Heap.Reclaim
import MultiPython.Heap.WalkBounds
import MultiPython.Map.HashTable
import MultiPython.Map.MpSet
import MultiPython.Map.OrderedDict
import MultiPython.Mpz.Mpn
import MultiPython.Mpz.Mpz
import MultiPython.Mpz.Text
import MultiPython.Num.BinaryOp
import MultiPython.Sched.Scheduler
import MultiPython.Sched.Utimeq
import MultiPython.Logic.Interaction
import MultiPython.Vm.Attr
import MultiPython.Vm.LookupCache
import MultiPython.Vm.Emit
import MultiPython.Vm.EmitPasses
import MultiPython.Vm.Generator
import MultiPython.Logic.Utf8
import MultiPython.Logic.Loop
import MultiPython.Logic.Offside
import MultiPython.Str.Vstr
import MultiPython.Str.Unicode
import MultiPython.Io.StringIo
import MultiPython.Io.Stream
import MultiPython.Io.WebSocket
import MultiPython.Obj.Array
import MultiPython.Parse.Indentation
import MultiPython.Struct.Pack
import MultiPython.Esp32.Start
import MultiPython.Esp32.ThreadCleanUp
import MultiPython.Esp32.WakeUp
import MultiPython.Heap.Realloc
import MultiPython.Map.FastPath
import MultiPython.Obj.List
import MultiPython.Parse.Repr
import MultiPython.Repl.LineEditor
import MultiPython.Vm.Call
import MultiPython.Map.Growth
import MultiPython.Map.DictEqual
import MultiPython.Num.Word
import MultiPython.Num.Formatted
import MultiPython.Struct.AsBytes
import MultiPython.Struct.IntBytes
import MultiPython.Logic.InPlace
import MultiPython.Mpz.InPlace
import MultiPython.Mpz.AddMul
import MultiPython.Mpz.Shift
import MultiPython.Logic.TwosComplement
import MultiPython.Mpz.Bitwise
import MultiPython.Obj.Sort
import MultiPython.Vm.LineNumbers
import MultiPython.Obj.Slice
import MultiPython.Logic.Progression
import MultiPython.Obj.Range
import MultiPython.Vm.CodeState
import MultiPython.Mpz.Float
import MultiPython.Vm.QstrWindow
import MultiPython.Logic.LabelCode
import MultiPython.Compile.Branches
import MultiPython.Compile.RangeLoops
import MultiPython.Obj.Multiply
import MultiPython.Obj.Deque
import MultiPython.Esp32.Debounce
import MultiPython.Logic.Rows
import MultiPython.Esp32.Composer
import MultiPython.Esp32.Encoding
import MultiPython.Esp32.Artnet
import MultiPython.Esp32.ArtnetFrames
import MultiPython.Parse.Progress
import MultiPython.Parse.LineEndings
import MultiPython.Parse.Rest
import MultiPython.Parse.Escapes
import MultiPython.Parse.Literals
import MultiPython.Parse.Folding
import MultiPython.Parse.Consts
import MultiPython.Vm.Varint
import MultiPython.Logic.Moves
import MultiPython.Framebuf.Pixels
import MultiPython.Framebuf.Scroll
import MultiPython.Framebuf.Fill
import MultiPython.Io.Vfs
import MultiPython.Io.RingBuf
import MultiPython.Heap.Finalisers
