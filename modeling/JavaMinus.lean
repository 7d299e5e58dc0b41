import JavaMinus.Document.Table
import JavaMinus.Main
import JavaMinus.Syntax.Build
import JavaMinus.Syntax.Walk
import JavaMinus.Document.Settings
import JavaMinus.Proofs.Lowering.Meets
import JavaMinus.Proofs.Typing.Sites
import JavaMinus.Proofs.Lowering.Expr
import JavaMinus.Proofs.Lowering.Call
import JavaMinus.Proofs.Lowering.Infers
import JavaMinus.Proofs.Lowering.Accepted
import JavaMinus.Proofs.Jvm.Flow
import JavaMinus.Proofs.Jvm.Pieces
import JavaMinus.Proofs.Jvm.Slots
import JavaMinus.Proofs.Jvm.Heights
import JavaMinus.Proofs.Jvm.Represents
import JavaMinus.Proofs.Lowering.Program
import JavaMinus.Proofs.Compile.Annotations
import JavaMinus.Proofs.Compile.Compilable
import JavaMinus.Proofs.Jvm.Descriptors
import JavaMinus.Proofs.Jvm.Kinds
import JavaMinus.Proofs.Typing.Declarations
import JavaMinus.Proofs.Compile.Verified
import JavaMinus.Proofs.Runtime.Heap
import JavaMinus.Proofs.Runtime.Machine
import JavaMinus.Proofs.Runtime.Stack
import JavaMinus.Proofs.Jvm.Executes
import JavaMinus.Proofs.Jvm.Simulates
import JavaMinus.Proofs.Jvm.Aligns
import JavaMinus.Proofs.Jvm.Refines
import JavaMinus.Proofs.Lowering.CallCode
import JavaMinus.Proofs.Lowering.Always
import JavaMinus.Proofs.Typing.Placed
import JavaMinus.Proofs.Typing.Lenient
import JavaMinus.Proofs.Lowering.Lenient
import JavaMinus.Proofs.Compile.Widening
import JavaMinus.Proofs.Typing.CallOrder
import JavaMinus.Proofs.Lowering.Calls
import JavaMinus.Proofs.Jvm.Invokes
import JavaMinus.Proofs.Compile.Linked
import JavaMinus.Proofs.Runtime.Source
import JavaMinus.Proofs.Lowering.Later
import JavaMinus.Proofs.Typing.ReadOrder
import JavaMinus.Proofs.Lowering.Runs
import JavaMinus.Proofs.Lowering.Evaluates
import JavaMinus.Proofs.Lowering.Labels
import JavaMinus.Proofs.Lowering.Executes
import JavaMinus.Proofs.Compile.Preserved
import JavaMinus.Proofs.Compile.Ordered
import JavaMinus.Proofs.Syntax.Bare
import JavaMinus.Proofs.Typing.Bare
import JavaMinus.Proofs.Lowering.Bare
import JavaMinus.Proofs.Compile.Bare
import JavaMinus.Proofs.Typing.Lookups
import JavaMinus.Proofs.Typing.Reordered
import JavaMinus.Proofs.Jvm.Depth
import JavaMinus.Proofs.Json.Numbers
import JavaMinus.Proofs.Json.Tokens
import JavaMinus.Proofs.Json.Values
import JavaMinus.Proofs.Document.Records
import JavaMinus.Proofs.Document.Syntax
import JavaMinus.Proofs.Document.Lossless
import JavaMinus.Proofs.Lowering.Packed
import JavaMinus.Proofs.Lowering.Room
import JavaMinus.Proofs.Compile.Passed
import JavaMinus.Proofs.Syntax.Renamed
import JavaMinus.Proofs.Typing.Renamed
import JavaMinus.Proofs.Lowering.Renamed
import JavaMinus.Proofs.Jvm.Renamed
import JavaMinus.Proofs.Tac.Renamed
import JavaMinus.Proofs.Compile.Renamed
import JavaMinus.Proofs.Lowering.Temporaries
import JavaMinus.Proofs.Jvm.Emits
import JavaMinus.Proofs.Lowering.Jumps
import JavaMinus.Proofs.Compile.Returned
import JavaMinus.Proofs.Jvm.Assigned
import JavaMinus.Proofs.Jvm.Recorded
import JavaMinus.Proofs.Jvm.Decoded
import JavaMinus.Proofs.Compile.Owners
import JavaMinus.Proofs.Typing.Places
import JavaMinus.Proofs.Lowering.Scoped
import JavaMinus.Proofs.Lowering.Session
import JavaMinus.Proofs.Lowering.CallFree
