import GccCore.Cpp.Charset.Convert
import GccCore.Gcc.FoldConst.Rounding
import GccCore.Iberty.Hashtab.Table
import GccCore.Iberty.SplayTree
import GccCore.Iberty.Hashtab.Primes
import GccCore.Iberty.Hashtab.Contract
import GccCore.Iberty.Fibheap.Basic
import GccCore.Iberty.Fibheap.Forest
import GccCore.Iberty.Fibheap.Consolidate
import GccCore.Iberty.Fibheap.Contract
import GccCore.Gcc.Sparseset.Basic
import GccCore.Gcc.Sparseset.Contract
import GccCore.Gcc.Sbitmap
import GccCore.Gcc.Ebitmap
import GccCore.Cpp.Linemaps.Basic
import GccCore.Cpp.Linemaps.Contract
import GccCore.Gcc.TreeVrp.Basic
import GccCore.Lib.Corners
import GccCore.Lib.RoundedDiv
import GccCore.Gcc.TreeVrp.Binary
import GccCore.Gcc.TreeVrp.Ranges
import GccCore.Gcc.TreeVrp.AntiRanges
import GccCore.Gcc.FlowGraph
import GccCore.Gcc.Lcm.Basic
import GccCore.Gcc.Lcm.Contract
import GccCore.Gcc.GcovIo.Basic
import GccCore.Gcc.GcovIo.Write
import GccCore.Gcc.GcovIo.Items
import GccCore.Gcc.GcovIo.Contract
import GccCore.Iberty.Argv.Basic
import GccCore.Iberty.Argv.Expand
import GccCore.Gcc.LoopNiter.Inverse
import GccCore.Gcc.LoopNiter.Ne
import GccCore.Gcc.LoopNiter.NeMax
import GccCore.Lib.BoundedQueue
import GccCore.Gcc.Lcm.Worklists
import GccCore.Gcc.SwitchLower.Basic
import GccCore.Lib.LabelledCode
import GccCore.Gcc.SwitchLower.Balance
import GccCore.Gcc.SwitchLower.Emit
import GccCore.Gcc.SwitchLower.DecisionTree
import GccCore.Gcc.SwitchLower.Strategy
import GccCore.Gcc.SwitchLower.BitTests
import GccCore.Gcc.SwitchLower.JumpTable
import GccCore.Gcc.DoubleInt
import GccCore.Gcc.FixedValue.Basic
import GccCore.Gcc.SwitchLower.ExpandCase
import GccCore.Gcc.FixedValue.Saturate
import GccCore.Gcc.FixedValue.Additive
import GccCore.Gcc.FixedValue.Narrow
import GccCore.Gcc.FixedValue.Wide
import GccCore.Gcc.FixedValue.Contract
import GccCore.Gcc.FixedValue.Convert
import GccCore.Gcc.TreeVrp.Canonicalize
import GccCore.Gcc.TreeVrp.Compare
import GccCore.Gcc.TreeVrp.Meet
import GccCore.Gcc.TreeVrp.Phi
import GccCore.Gcc.FoldConst.Overflow
import GccCore.Gcc.FoldConst.Nearest
import GccCore.Gcc.FoldConst.Shift
import GccCore.Gcc.Sbitmap.Iterate
import GccCore.Gcc.Ebitmap.Iterate
import GccCore.Gcc.Ebitmap.Intersect
import GccCore.Gcc.Ebitmap.Union
import GccCore.Gcc.Ebitmap.Difference
import GccCore.Gcc.FoldConst.Fit
import GccCore.Gcc.FoldConst.IntBinop
import GccCore.Gcc.DoubleInt.Mpz
import GccCore.Gcc.RangeTest.Basic
import GccCore.Gcc.RangeTest.Merge
import GccCore.Gcc.RangeTest.Expr
import GccCore.Gcc.RangeTest.Check
import GccCore.Lib.WordArray
import GccCore.Gcc.Real.Significand
import GccCore.Gcc.Real.Basic
import GccCore.Gcc.Real.Add
import GccCore.Gcc.Real.Format
import GccCore.Gcc.Real.Integer
import GccCore.Gcc.Real.Round
import GccCore.Gcc.Real.HexString
import GccCore.Gcc.Real.HexLiteral
import GccCore.Gcc.Real.HexPrint
import GccCore.Iberty.Partition
import GccCore.Iberty.Fibheap.Delete
import GccCore.Iberty.Hashtab.Remove
import GccCore.Gcc.Sparseset.Equal
import GccCore.Gcc.Sbitmap.Popcount
import GccCore.Cpp.Expr.Basic
import GccCore.Cpp.Expr.Addition
import GccCore.Cpp.Expr.Multiplication
import GccCore.Cpp.Expr.Division
import GccCore.Cpp.Expr.Integer
import GccCore.Cpp.Charset.Buffer
import GccCore.Gcc.Sbitmap.Flow
import GccCore.Gcc.Sbitmap.Range
import GccCore.Gcc.Expmed.ExactDiv
import GccCore.Gcc.Lambda.Matrix
import GccCore.Gcc.Lambda.Triangular
import GccCore.Gcc.Lambda.Hermite
import GccCore.Gcc.Lambda.Inverse
import GccCore.Gcc.Lambda.Echelon
import GccCore.Gcc.DataRef.Steps
import GccCore.Gcc.DataRef.Affine
import GccCore.Gcc.DataRef.Siv
import GccCore.Gcc.Negate.Basic
import GccCore.Gcc.Negate.Agree
import GccCore.Gcc.Chrec.Basic
import GccCore.Gcc.Chrec.Multiply
import GccCore.Gcc.Chrec.Binomial
import GccCore.Gcc.Chrec.Apply
import GccCore.Cpp.Expr.Shift
import GccCore.Iberty.Fibheap.Degree
import GccCore.Gcc.Bitmap.Basic
import GccCore.Gcc.Bitmap.Pool
import GccCore.Iberty.Strverscmp
import GccCore.Lib.BlockStream
import GccCore.Lib.FixedBuffer
import GccCore.Iberty.Digest.Basic
import GccCore.Iberty.Digest.Sha1
import GccCore.Iberty.Digest.Md5
import GccCore.Gcc.TreeVrp.Singularity
import GccCore.Cpp.Symtab.Table
import GccCore.Gcc.Lcm.Reverse
import GccCore.Cpp.Symtab.Contract
import GccCore.Gcc.Profile.SpanningTree
import GccCore.Gcc.Profile.Solve
