import ScriptLint.Check
import ScriptLint.Proofs.FaithfulReads
import ScriptLint.Proofs.WrittenReads
import ScriptLint.Proofs.SparedLines
import ScriptLint.Proofs.KeywordCase
import ScriptLint.Proofs.LineEndings
import ScriptLint.Proofs.FirstDefinition
import ScriptLint.Proofs.RenamedLines
import ScriptLint.Proofs.LineIsolation
import ScriptLint.Proofs.VerbatimLeaves
import ScriptLint.Proofs.TrailingSpaces
import ScriptLint.Proofs.IndentationDepth
import ScriptLint.Proofs.SourceOrder
import ScriptLint.Proofs.InterpolationRegions
import ScriptLint.Proofs.TreeBounds
import ScriptLint.Proofs.ExpressionCover
import ScriptLint.Proofs.NearestKeyword
import ScriptLint.Proofs.FixableTotal
import ScriptLint.Proofs.EnclosingBraces
import ScriptLint.Proofs.InvalidTokens
import ScriptLint.Proofs.InputEnd
import ScriptLint.Proofs.LineSplit
