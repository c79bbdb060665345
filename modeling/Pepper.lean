import Pepper.Foundations.Loop
import Pepper.Foundations.DensePoly
import Pepper.Foundations.Fourier
import Pepper.Foundations.RootInterpolation
import Pepper.Foundations.Multilinear
import Pepper.Foundations.Sumcheck
import Pepper.Common.Gmp
import Pepper.Libv.QuadraticProgram
import Pepper.Libv.Roots
import Pepper.Libv.FastInterpolate
import Pepper.Libv.Queries
import Pepper.Libv.Evaluation
import Pepper.Libv.Assignment
import Pepper.Libv.DivisibilityTest
import Pepper.Libv.PlainQueries
import Pepper.Libv.Commitment
import Pepper.Libv.Consistency
import Pepper.Libv.QueryAgreement
import Pepper.Cmtgkr.Env
import Pepper.Cmtgkr.Layer
import Pepper.Cmtgkr.LayerSum
import Pepper.Cmtgkr.SumCheckProver
import Pepper.Cmtgkr.SumCheckProverRun
import Pepper.Cmtgkr.SumCheckVerifier
import Pepper.Cmtgkr.SumCheckSoundness
import Pepper.Cmtgkr.MiniIP
import Pepper.Cmtgkr.Extrapolation
import Pepper.Cmtgkr.BetaTable
import Pepper.Cmtgkr.PwsPrimitives
import Pepper.Cmtgkr.PwsCircuitParser
import Pepper.Cmtgkr.PwsCircuit
import Pepper.Cmtgkr.GateCoherence
import Pepper.Cmtgkr.PwsSteps
import Pepper.Cmtgkr.PwsPromotion
import Pepper.Cmtgkr.PwsOwners
import Pepper.Cmtgkr.PwsGadgets
import Pepper.Cmtgkr.PwsLines
import Pepper.Cmtgkr.PwsComparisons
import Pepper.Cmtgkr.PwsWorksheet
import Pepper.Cmtgkr.PwsBinding
import Pepper.Foundations.DataFlow
import Pepper.Cmtgkr.PwsEvaluation
import Pepper.Cmtgkr.PwsSchedule
import Pepper.Cmtgkr.LessThanGadget
import Pepper.Foundations.Bracketed
import Pepper.Zcc.Tokens
import Pepper.Zcc.Expand
import Pepper.Libv.ComputePoly
import Pepper.Zcc.Gamma
import Pepper.Libv.GingerTests
import Pepper.Foundations.FieldBits
import Pepper.Zcc.LessThan
import Pepper.Zcc.LessThanSound
import Pepper.Zcc.Split
import Pepper.Zcc.LessThanFloat
import Pepper.Libv.LessThan
import Pepper.Libv.SplitInt
import Pepper.Foundations.TextLines
import Pepper.Foundations.TwosComplement
import Pepper.Zcc.ZaatarMatrices
import Pepper.Libv.QapFile
import Pepper.LibGpu.Modexp
import Pepper.Crypto.DotProduct
import Pepper.Common.ConstraintGen
import Pepper.Common.ConstraintEffects
import Pepper.Common.ConstraintEval
import Pepper.Common.ConstraintGadgets
import Pepper.Common.ConstraintAgreement
import Pepper.Libv.LessThanFloat
import Pepper.Frontend.BitwiseOperator
import Pepper.Frontend.ConstraintCleaner
import Pepper.Frontend.FloatConstant
import Pepper.Frontend.LexicalScope
import Pepper.Frontend.PolynomialExpression
import Pepper.Frontend.PolynomialInvariant
import Pepper.Frontend.PolynomialLine
import Pepper.Frontend.PolynomialForms
import Pepper.Frontend.PolynomialConstraint
import Pepper.Frontend.PolynomialRun
import Pepper.Frontend.TypedRun
import Pepper.Frontend.DivisionOperator
import Pepper.Cmtgkr.MatmulCmtPP
import Pepper.Cmtgkr.BatchDistribution
import Pepper.Cmtgkr.LayerStore
import Pepper.Crypto.RandomBytes
import Pepper.Crypto.KeyGeneration
import Pepper.LibGpu.MontWords
import Pepper.Frontend.ConstantFolding
import Pepper.Common.ConstraintSoundness
import Pepper.LibGpu.CachedModexp
import Pepper.LibGpu.SlidingWindows
import Pepper.Cmtgkr.HamdistCircuit
import Pepper.Cmtgkr.HamdistLevels
import Pepper.Cmtgkr.HamdistValues
import Pepper.Cmtgkr.HamdistDistance
import Pepper.Cmtgkr.MatmulPredicates
import Pepper.Cmtgkr.MatmulCircuit
import Pepper.Cmtgkr.MatmulLevels
import Pepper.Cmtgkr.MatmulMatching
import Pepper.Cmtgkr.IntegerPoints
import Pepper.Foundations.Outcome
import Pepper.Libv.TempStack
import Pepper.Libv.TempStackRun
import Pepper.Cmtgkr.MatmulProtocol
import Pepper.Libv.GingerSoundness
import Pepper.Libv.ZaatarSoundness
import Pepper.AppsTailored.MatrixCubic
import Pepper.AppsTailored.HDist
import Pepper.AppsTailored.PolyEvalD3
