import PoolProse.Text
import PoolProse.Text.CodePoint
import PoolProse.Text.Cursor
import PoolProse.Text.Base64
import PoolProse.Token
import PoolProse.Token.Scan
import PoolProse.Expr
import PoolProse.Environment
import PoolProse.Line
import PoolProse.Statement
import PoolProse.Position
import PoolProse.Issue
import PoolProse.Document
import PoolProse.Choice.Blake3
import PoolProse.Choice.ChaCha
import PoolProse.Choice
import PoolProse.Log
import PoolProse.Evaluation
import PoolProse.Yaml.Scalar
import PoolProse.Yaml.Writer
import PoolProse.Session
import PoolProse.Version
import PoolProse.Version.Range
import PoolProse.Version.Requirement
import PoolProse.Settings
import PoolProse.Files
import PoolProse.Yaml.Problem
import PoolProse.Yaml.Token
import PoolProse.Yaml.Window
import PoolProse.Yaml.Scan
import PoolProse.Yaml.Node
import PoolProse.Settings.Load
import PoolProse.CommandLine.Arguments
import PoolProse.CommandLine
import PoolProse.Main
import PoolProse.Proofs.Chains
import PoolProse.Proofs.Redrawing
import PoolProse.Proofs.RelatedLists
import PoolProse.Proofs.Lexeme
import PoolProse.Proofs.Lossless
import PoolProse.Proofs.LineByLine
import PoolProse.Proofs.Lookahead
import PoolProse.Proofs.Relocation
import PoolProse.Proofs.Seam
import PoolProse.Proofs.LineGrammar
import PoolProse.Proofs.LineReading
import PoolProse.Proofs.LineStatements
import PoolProse.Proofs.Simulation
import PoolProse.Proofs.Extended
import PoolProse.Proofs.Depth
import PoolProse.Proofs.OrderedBindings
import PoolProse.Proofs.Extent
import PoolProse.Proofs.Gapless
import PoolProse.Proofs.Rendering
import PoolProse.Proofs.PoolNames
import PoolProse.Proofs.RoundTrip
import PoolProse.Proofs.QuietLiterals
import PoolProse.Proofs.Stated
import PoolProse.Proofs.Legible
import PoolProse.Proofs.Walk
import PoolProse.Proofs.WalkLines
import PoolProse.Proofs.WalkStatements
import PoolProse.Proofs.LoneRules
import PoolProse.Proofs.Contract
import PoolProse.Proofs.PlainPools
import PoolProse.Proofs.FaultAtomicity
import PoolProse.Proofs.Steps
import PoolProse.Proofs.Nesting
import PoolProse.Proofs.BigStep
import PoolProse.Proofs.SafeChoices
import PoolProse.Proofs.Termination
import PoolProse.Proofs.NormalForm
import PoolProse.Proofs.Layout
import PoolProse.Proofs.Verbatim
import PoolProse.Proofs.Rereading
import PoolProse.Proofs.Outlook
import PoolProse.Proofs.Continuations
import PoolProse.Proofs.LineLikeness
import PoolProse.Proofs.TrailingLayout
import PoolProse.Proofs.Positions
import PoolProse.Proofs.ContinuedBindings
import PoolProse.Proofs.Coupling
import PoolProse.Proofs.SameBindings
import PoolProse.Proofs.KeyOrder
import PoolProse.Proofs.Grouping
import PoolProse.Proofs.OnlyDraws
import PoolProse.Proofs.Exhaustion
import PoolProse.Proofs.JoinedLines
import PoolProse.Proofs.TokenClasses
import PoolProse.Proofs.CursorReading
import PoolProse.Proofs.Scanner
import PoolProse.Proofs.CursorLoops
import PoolProse.Proofs.MatcherContract
