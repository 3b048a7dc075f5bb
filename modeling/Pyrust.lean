import Pyrust.AttrStorage
import Pyrust.AttrStorageRuns
import Pyrust.Binary64
import Pyrust.ByteLanes
import Pyrust.ByteSearch
import Pyrust.BytearraySlices
import Pyrust.Bytecode
import Pyrust.C3Merge
import Pyrust.CallBinding
import Pyrust.CallBindingGeneral
import Pyrust.CallBindingRule
import Pyrust.Cesu8
import Pyrust.ClassLookup
import Pyrust.ClassOrder
import Pyrust.CodePointIndex
import Pyrust.CodecDispatch
import Pyrust.CombinationCursors
import Pyrust.CombinatoricCursors
import Pyrust.CommonSubexpressions
import Pyrust.Compaction
import Pyrust.CompactionRuns
import Pyrust.CompiledExpressions
import Pyrust.CompilerCore
import Pyrust.ConcatChains
import Pyrust.ConcatRounds
import Pyrust.ConcatRuns
import Pyrust.ConcatStrings
import Pyrust.ConstantCompaction
import Pyrust.ConstantFolding
import Pyrust.ConstantFusion
import Pyrust.ConstantPool
import Pyrust.ConstantRegisters
import Pyrust.ControlGraph
import Pyrust.CopyPropagation
import Pyrust.CounterSelection
import Pyrust.CrossJumping
import Pyrust.CyclicEquality
import Pyrust.DeadCode
import Pyrust.DeadStores
import Pyrust.DictAgreement
import Pyrust.DictInsertion
import Pyrust.DictJournal
import Pyrust.DictLayout
import Pyrust.DictLazy
import Pyrust.DictLookup
import Pyrust.DictMetadata
import Pyrust.DictMetadataRuns
import Pyrust.DictMirror
import Pyrust.DictOps
import Pyrust.DictProbeIndex
import Pyrust.DictProbeInvariant
import Pyrust.DictReplay
import Pyrust.DictTableRuns
import Pyrust.DigitGroups
import Pyrust.DigitLimits
import Pyrust.EscapeCodec
import Pyrust.ExactComparison
import Pyrust.ExceptStar
import Pyrust.ExceptionContext
import Pyrust.ExceptionGroups
import Pyrust.ExceptionTable
import Pyrust.ExpressionCorrect
import Pyrust.ExpressionRuns
import Pyrust.ExpressionValues
import Pyrust.Expressions
import Pyrust.ExtendedEuclid
import Pyrust.FastArithmetic
import Pyrust.FixedWidth
import Pyrust.FloatHash
import Pyrust.FormatSpecs
import Pyrust.Fragment
import Pyrust.GuardedComparison
import Pyrust.HeapOrder
import Pyrust.HoleyList
import Pyrust.ImplicitTrees
import Pyrust.IntBytes
import Pyrust.IntegerConversion
import Pyrust.IntegerLayout
import Pyrust.ItemStatements
import Pyrust.JumpThreading
import Pyrust.KeyContract
import Pyrust.KeyNumbers
import Pyrust.Keys
import Pyrust.LeafCalls
import Pyrust.LeafInlining
import Pyrust.LeftAssociation
import Pyrust.LenientUtf16
import Pyrust.LexTuples
import Pyrust.LexerFields
import Pyrust.LexerLiterals
import Pyrust.LexerMachine
import Pyrust.LexerNesting
import Pyrust.LexerPositions
import Pyrust.LexerReach
import Pyrust.LexerRounds
import Pyrust.LexerTokens
import Pyrust.LexerTotality
import Pyrust.LexerWalk
import Pyrust.LineAlignment
import Pyrust.ListSlices
import Pyrust.LiteralRepr
import Pyrust.LoopInversion
import Pyrust.LoopRuns
import Pyrust.LruCache
import Pyrust.LruPairing
import Pyrust.LruReference
import Pyrust.Machine
import Pyrust.MarkedBlocks
import Pyrust.ModularArithmetic
import Pyrust.NameScopes
import Pyrust.NanBoxing
import Pyrust.NumberGrammar
import Pyrust.NumberLiterals
import Pyrust.NumberTexts
import Pyrust.NumericEquality
import Pyrust.NumericEscapes
import Pyrust.Occurrences
import Pyrust.OperatorLevels
import Pyrust.OperatorParser
import Pyrust.OperatorReading
import Pyrust.OperatorRoundTrip
import Pyrust.OperatorSyntax
import Pyrust.OrderedMaps
import Pyrust.PartitionedTrees
import Pyrust.PatienceSolitaire
import Pyrust.PermutationCursors
import Pyrust.PerturbProbe
import Pyrust.PointerChain
import Pyrust.RangeBounds
import Pyrust.RangeEquality
import Pyrust.RangeFolding
import Pyrust.RangeMembership
import Pyrust.RangeSlices
import Pyrust.RangeTrace
import Pyrust.RangeValues
import Pyrust.ReachingConstants
import Pyrust.ReadSets
import Pyrust.RecencyList
import Pyrust.RegisterLiveness
import Pyrust.ReplayOrder
import Pyrust.ReplaySequence
import Pyrust.ReplaySequenceRuns
import Pyrust.RoundingDigits
import Pyrust.ScanLoop
import Pyrust.SeparatedLists
import Pyrust.SequenceOrder
import Pyrust.SetLazy
import Pyrust.SetMembership
import Pyrust.SetMirror
import Pyrust.SetOps
import Pyrust.SetProbe
import Pyrust.SetProbeInvariant
import Pyrust.SetReplay
import Pyrust.SetTableRuns
import Pyrust.SetTailReplay
import Pyrust.Simulation
import Pyrust.SizedIntegers
import Pyrust.SliceBounds
import Pyrust.SliceSelection
import Pyrust.SparedExpressions
import Pyrust.SparedRegisters
import Pyrust.StrictDecoding
import Pyrust.StringLiterals
import Pyrust.TaggedWords
import Pyrust.TextCursor
import Pyrust.TextLines
import Pyrust.TwosComplement
import Pyrust.UnaryFolding
import Pyrust.Utf7
import Pyrust.WideCodecs
import Pyrust.WideWords
import Pyrust.WordBits
import Pyrust.WordStream
