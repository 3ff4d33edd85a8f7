import Enki.Axsys.Base58
import Enki.Axsys.Blocks
import Enki.Axsys.Buddy
import Enki.Axsys.Descriptors
import Enki.Axsys.Fd
import Enki.Axsys.Flattening
import Enki.Axsys.Numerals
import Enki.Axsys.Pieces
import Enki.Axsys.StringBuilder
import Enki.Bat.Build
import Enki.Bat.Cursor
import Enki.Bat.Layout
import Enki.Bat.Reading
import Enki.Bignum.Arith
import Enki.Bignum.Bits
import Enki.Bignum.Calls
import Enki.Bignum.Exact
import Enki.Bignum.Mpn
import Enki.Bignum.Rules
import Enki.Bytecode.ControlFlow
import Enki.Bytecode.Counts
import Enki.Bytecode.Decode
import Enki.Bytecode.Eager
import Enki.Bytecode.Exec
import Enki.Bytecode.Layout
import Enki.Bytecode.Opcode
import Enki.Bytecode.Passes
import Enki.Bytecode.Readiness
import Enki.Bytecode.Ready
import Enki.Bytecode.Soundness
import Enki.Bytecode.Underflow
import Enki.Bytecode.Validate
import Enki.Canon.Applied
import Enki.Canon.Doc
import Enki.Canon.Fresh
import Enki.Canon.Items
import Enki.Canon.Layout
import Enki.Canon.Named
import Enki.Canon.NamesFresh
import Enki.Canon.Naming
import Enki.Canon.Relaid
import Enki.Canon.Turns
import Enki.Canon.Unindent
import Enki.Cheney.Collect
import Enki.Cheney.Forward
import Enki.Cheney.Graph
import Enki.Cheney.Heap
import Enki.Cheney.Preserve
import Enki.Cheney.Scan
import Enki.Equal.Deep
import Enki.Equal.Exact
import Enki.Equal.Views
import Enki.Eval.Adequate
import Enki.Eval.Drivers
import Enki.Eval.Entries
import Enki.Eval.Flags
import Enki.Eval.Heap
import Enki.Eval.Holes
import Enki.Eval.Jobs
import Enki.Eval.Machine
import Enki.Eval.Normal
import Enki.Eval.Reference
import Enki.Eval.Rows
import Enki.Eval.Semantics
import Enki.Eval.Shapes
import Enki.Eval.Spines
import Enki.Gc2.Consistent
import Enki.Gc2.Mark
import Enki.Gc2.Model
import Enki.Gc2.Operations
import Enki.Gc2.Safety
import Enki.Gc2.Span
import Enki.Legacy.Codec
import Enki.Legacy.RoundTrip
import Enki.Lib.AssocList
import Enki.Lib.BoundedWriter
import Enki.Lib.BuddyTree
import Enki.Lib.ExceptState
import Enki.Lib.FileTree
import Enki.Lib.Limbs
import Enki.Lib.LittleEndian
import Enki.Lib.OpeningSchedule
import Enki.Lib.Patricia
import Enki.Lib.Running
import Enki.Lib.Runs
import Enki.Lib.SearchTree
import Enki.Lib.StreamParser
import Enki.Lib.Tally
import Enki.Lib.Worklist
import Enki.Log.Bat
import Enki.Log.Decode
import Enki.Log.Files
import Enki.Log.Format
import Enki.Log.Http
import Enki.Log.Results
import Enki.Log.Sites
import Enki.Memo
import Enki.Native.Arena
import Enki.Native.BodyCopy
import Enki.Native.Checkpoint
import Enki.Native.CrashSafe
import Enki.Native.Durable
import Enki.Native.Index
import Enki.Native.IndexEmit
import Enki.Native.IndexMap
import Enki.Native.Publish
import Enki.Native.Published
import Enki.Native.Restage
import Enki.Native.Stage
import Enki.Native.StageGraph
import Enki.Native.Staged
import Enki.Native.World
import Enki.OpMemo
import Enki.Ops
import Enki.Pack.Batch
import Enki.Pack.Extents
import Enki.Rplan.Effects
import Enki.Rplan.Faithful
import Enki.Rplan.FileRoot
import Enki.Rplan.Io
import Enki.Rplan.Paths
import Enki.Rplan.ReadBat
import Enki.Rplan.Rejected
import Enki.Runtime.Blocks
import Enki.Runtime.Calls
import Enki.Runtime.Confinement
import Enki.Runtime.Controllers
import Enki.Runtime.Delivery
import Enki.Runtime.Invariant
import Enki.Runtime.Moves
import Enki.Runtime.Post
import Enki.Runtime.Reachable
import Enki.Runtime.Returns
import Enki.Runtime.Schedule
import Enki.Runtime.Services
import Enki.Runtime.Step
import Enki.Runtime.Terminated
import Enki.Runtime.Workers
import Enki.Runtime.World
import Enki.Silo.Authentic
import Enki.Silo.Decode
import Enki.Silo.Encode
import Enki.Silo.Format
import Enki.Silo.Grammar
import Enki.Silo.Mnat
import Enki.Silo.MnatRead
import Enki.Silo.MnatSchedule
import Enki.Silo.Natural
import Enki.Silo.Reader
import Enki.Silo.RoundTrip
import Enki.Value
import Enki.Wisp.Env
import Enki.Wisp.EnvMap
import Enki.Wisp.Grammar
import Enki.Wisp.Loading
import Enki.Wisp.Modules
import Enki.Wisp.Reader
import Enki.Word
