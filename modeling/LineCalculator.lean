import LineCalculator.Main
import LineCalculator.Expression.Equations
import LineCalculator.Proofs.Tree
import LineCalculator.Proofs.Chain
import LineCalculator.Proofs.Spelling
import LineCalculator.Proofs.AttributedGrammar
import LineCalculator.Proofs.GrammarAdequacy
import LineCalculator.Proofs.StatementGrammar
import LineCalculator.Proofs.LexicalGrammar
import LineCalculator.Proofs.Heading
import LineCalculator.Proofs.TreeParser
import LineCalculator.Proofs.OnePass
import LineCalculator.Proofs.Formula
import LineCalculator.Proofs.Rendering
import LineCalculator.Proofs.FormAlone
import LineCalculator.Proofs.SessionState
import LineCalculator.Proofs.Moves
import LineCalculator.Proofs.Machine
import LineCalculator.Proofs.Comparison
import LineCalculator.Proofs.Lockstep
import LineCalculator.Proofs.Locality
import LineCalculator.Proofs.UnreadVariables
import LineCalculator.Proofs.Runs
import LineCalculator.Proofs.Replay
import LineCalculator.Proofs.Substitution
import LineCalculator.Proofs.FaultPlace
import LineCalculator.Proofs.OneLine
import LineCalculator.Proofs.ProgramRun
import LineCalculator.Proofs.IndependentLines
import LineCalculator.Proofs.LineAnswer
import LineCalculator.Proofs.OpenGroups
import LineCalculator.Proofs.FaultOrigin
import LineCalculator.Proofs.EventLine
import LineCalculator.Proofs.SessionOptions
import LineCalculator.Proofs.Calls
import LineCalculator.Proofs.NestingLimit
import LineCalculator.Proofs.Descents
import LineCalculator.Proofs.BoundedRecursion
import LineCalculator.Proofs.Renaming
import LineCalculator.Proofs.Wrapping
import LineCalculator.Proofs.Concatenation
import LineCalculator.Proofs.NumberLine
import LineCalculator.Proofs.DecimalReading
import LineCalculator.Proofs.ShownValue
