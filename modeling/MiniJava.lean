import MiniJava.Allocation
import MiniJava.Bitmap
import MiniJava.CommandLine
import MiniJava.Compilation
import MiniJava.Error
import MiniJava.FileTree
import MiniJava.IR.ClassDef
import MiniJava.IR.Draft
import MiniJava.IR.Instr
import MiniJava.IR.Method
import MiniJava.IR.Variable
import MiniJava.Interference
import MiniJava.Jvm.Assembly
import MiniJava.Jvm.Descriptor
import MiniJava.Jvm.Emitter
import MiniJava.Jvm.Fusion
import MiniJava.Jvm.Instr
import MiniJava.Listing
import MiniJava.Literal
import MiniJava.Liveness
import MiniJava.Lowering.Class
import MiniJava.Lowering.Expr
import MiniJava.Lowering.Fragment
import MiniJava.Lowering.Fresh
import MiniJava.Lowering.Scope
import MiniJava.Lowering.Stmt
import MiniJava.Main
import MiniJava.Source.Position
import MiniJava.Source.Reading
import MiniJava.Source.Syntax
import MiniJava.Source.TypeName
import MiniJava.Symbols
import MiniJava.Text.Basic
import MiniJava.Text.Blank
import MiniJava.Text.Bytes
import MiniJava.Text.Printable
import MiniJava.Text.Quoted
import MiniJava.Ty
import MiniJava.Wire
import MiniJava.Yaml.Cursor
import MiniJava.Yaml.Fault
import MiniJava.Yaml.Node
import MiniJava.Yaml.Stream
import MiniJava.Yaml.Tag
import MiniJava.Yaml.Token
import MiniJava.Yaml.Token.Comment
import MiniJava.Yaml.Token.Layout
import MiniJava.Yaml.Token.Property
import MiniJava.Yaml.Token.Scalar
import MiniJava.Yaml.Value
import MiniJava.Proofs.Bitmap
import MiniJava.Proofs.ControlFlow
import MiniJava.Proofs.LivenessFixpoint
import MiniJava.Proofs.Coloring
import MiniJava.Proofs.FirstFit
import MiniJava.Proofs.OptimalRanges
import MiniJava.Proofs.AssemblyText
import MiniJava.Proofs.Emission
import MiniJava.Proofs.LineLabels
import MiniJava.Proofs.LivenessPaths
import MiniJava.Proofs.Numbering
import MiniJava.Proofs.SlotSafety
import MiniJava.Proofs.StackDepth
import MiniJava.Proofs.StackLimits
import MiniJava.Proofs.BackEnd
import MiniJava.Proofs.Fragments
import MiniJava.Proofs.LoweredExpr
import MiniJava.Proofs.LoweredStmt
import MiniJava.Proofs.Declarations
import MiniJava.Proofs.LoweredMethod
import MiniJava.Proofs.LivenessExact
import MiniJava.Proofs.ParallelEmission
import MiniJava.Proofs.StrategyChoice
import MiniJava.Proofs.ClosedFragments
import MiniJava.Proofs.SoundCode
import MiniJava.Proofs.WellFormedCode
import MiniJava.Proofs.EmissionSafety
import MiniJava.Proofs.InternalErrors
import MiniJava.Proofs.MirroredCode
import MiniJava.Proofs.MirroredLowering
import MiniJava.Proofs.MirroredClass
import MiniJava.Proofs.EmittedLabels
import MiniJava.Proofs.ReturningMethods
import MiniJava.Proofs.OwnCalls
import MiniJava.Proofs.KindMachine
import MiniJava.Proofs.KindSafety
import MiniJava.Proofs.Renaming
import MiniJava.Proofs.RenamedAllocation
import MiniJava.Proofs.RenamedEmission
import MiniJava.Proofs.MirroredRenaming
import MiniJava.Proofs.StartingNumbers
import MiniJava.Proofs.PlainEmission
import MiniJava.Proofs.StackTemporaries
import MiniJava.Proofs.EmittedSites
import MiniJava.Proofs.ConstructorClasses
import MiniJava.Proofs.WrittenTemporaries
import MiniJava.Proofs.ReferenceEquality
import MiniJava.Proofs.WrittenRecords
import MiniJava.Proofs.WrittenPrograms
import MiniJava.Proofs.Sweeping
import MiniJava.Proofs.LoneInstruction
import MiniJava.Proofs.InterferenceGraphs
import MiniJava.Proofs.VariadicArguments
import MiniJava.Proofs.Literals
import MiniJava.Proofs.PushedIntegers
import MiniJava.Proofs.BitmapHistories
import MiniJava.Proofs.Footprints
import MiniJava.Proofs.AliasedPrograms
import MiniJava.Proofs.Descriptors
import MiniJava.Proofs.NamedClasses
import MiniJava.Proofs.TypeNames
