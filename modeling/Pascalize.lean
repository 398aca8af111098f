import Pascalize.Source.Location
import Pascalize.Token.Basic
import Pascalize.Token.Lexeme
import Pascalize.Token.Lexer
import Pascalize.Text.WhiteSpace
import Pascalize.Text.Quoted
import Pascalize.Tree.Outline
import Pascalize.Grammar.Statement
import Pascalize.Scope.Table
import Pascalize.Scope.Analysis
import Pascalize.Pipeline
import Pascalize.Command.Disk
import Pascalize.Command.Run
import Pascalize.Main
import Pascalize.Proofs.Derivation
import Pascalize.Proofs.ParserLaws
import Pascalize.Proofs.ExpressionParsing
import Pascalize.Proofs.StatementParsing
import Pascalize.Proofs.ProgramParsing
import Pascalize.Proofs.ExpressionReading
import Pascalize.Proofs.ForestLaws
import Pascalize.Proofs.AnalysisLaws
import Pascalize.Proofs.Moments
import Pascalize.Proofs.NameResolution
import Pascalize.Proofs.ControlStructure
import Pascalize.Proofs.ScopeAgreement
import Pascalize.Proofs.SectionReading
import Pascalize.Proofs.ProgramLevel
import Pascalize.Proofs.NameBinding
import Pascalize.Proofs.TokenPlaces
import Pascalize.Proofs.UnusedVariables
import Pascalize.Proofs.LevelNames
import Pascalize.Proofs.NamesInText
import Pascalize.Proofs.KeptDeclarations
import Pascalize.Proofs.StreamEnds
import Pascalize.Proofs.Relocation
import Pascalize.Proofs.Concatenation
import Pascalize.Proofs.RefusalLaws
import Pascalize.Proofs.ExpressionRefusals
import Pascalize.Proofs.StatementRefusals
import Pascalize.Proofs.LexicalFailure
import Pascalize.Proofs.DiagnosticPlaces
import Pascalize.Proofs.LookaheadLaws
import Pascalize.Proofs.Lookahead
import Pascalize.Proofs.ViablePrefix
import Pascalize.Proofs.Layout
import Pascalize.Proofs.ForestHistory
import Pascalize.Proofs.ForestInvariant
import Pascalize.Proofs.NextLines
import Pascalize.Proofs.Semicolons
import Pascalize.Proofs.BlockComments
import Pascalize.Proofs.LayeredGrammar
import Pascalize.Proofs.LexemeGrammar
import Pascalize.Proofs.Reprinting
import Pascalize.Proofs.Redeclarations
import Pascalize.Proofs.ReadingOn
import Pascalize.Proofs.RepeatedParsing
import Pascalize.Proofs.NodePositions
import Pascalize.Proofs.ExpressionPositions
import Pascalize.Proofs.OutlineLines
import Pascalize.Proofs.Outlines
import Pascalize.Proofs.Signatures
import Pascalize.Proofs.ClosedComments
import Pascalize.Proofs.LateErrors
import Pascalize.Proofs.Indentation
import Pascalize.Proofs.BlockLayout
import Pascalize.Proofs.TypeLinks
