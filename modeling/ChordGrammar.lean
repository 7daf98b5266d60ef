import ChordGrammar.Command.Run
import ChordGrammar.Grammar.Codec
import ChordGrammar.Main
import ChordGrammar.Proofs.Grafting
import ChordGrammar.Proofs.Scoping
import ChordGrammar.Proofs.DeferredSubstitution
import ChordGrammar.Proofs.Inlining
import ChordGrammar.Proofs.Layout
import ChordGrammar.Proofs.Passes
import ChordGrammar.Proofs.StockRules
import ChordGrammar.Proofs.FilledLength
import ChordGrammar.Proofs.ScopePreservation
import ChordGrammar.Proofs.HarmonicSyntax
import ChordGrammar.Proofs.ParameterMaps
import ChordGrammar.Proofs.TonalContext
import ChordGrammar.Proofs.Transposition
import ChordGrammar.Proofs.LeastDuration
import ChordGrammar.Proofs.Histories
import ChordGrammar.Proofs.Growth
import ChordGrammar.Proofs.Tempo
import ChordGrammar.Proofs.WrittenNumbers
import ChordGrammar.Proofs.WrittenRecords
import ChordGrammar.Proofs.Checkpoint
import ChordGrammar.Proofs.GeneratorStates
import ChordGrammar.Proofs.WrittenAlternatives
import ChordGrammar.Proofs.WrittenDoubles
import ChordGrammar.Proofs.WrittenTerms
import ChordGrammar.Proofs.AssembledSettings
import ChordGrammar.Proofs.GeneratorCycle
import ChordGrammar.Proofs.Environments
import ChordGrammar.Proofs.KeptForms
import ChordGrammar.Proofs.ExactDraws
import ChordGrammar.Proofs.Buckets
import ChordGrammar.Proofs.Guards
import ChordGrammar.Proofs.Saturation
import ChordGrammar.Proofs.Resolution
import ChordGrammar.Proofs.NearestDouble
import ChordGrammar.Proofs.DoubleRounding
import ChordGrammar.Proofs.DoubleArithmetic
import ChordGrammar.Proofs.HalfOpenRange
import ChordGrammar.Proofs.LaterFlags
import ChordGrammar.Proofs.ModulationChains
import ChordGrammar.Proofs.RuleOrder
import ChordGrammar.Proofs.WrittenSettings
import ChordGrammar.Proofs.Subdivisions
import ChordGrammar.Proofs.Scales
import ChordGrammar.Proofs.Normalization
