import Criteria.Binary64.Arithmetic
import Criteria.Binary64.Basic
import Criteria.Config.Basic
import Criteria.Config.Load
import Criteria.Config.Reading
import Criteria.Config.Setting
import Criteria.Decimal.Basic
import Criteria.Decimal.Layout
import Criteria.Decimal.Numeral
import Criteria.Decimal.Shortest
import Criteria.Expr.Apply
import Criteria.Expr.Basic
import Criteria.Expr.Error
import Criteria.Expr.Eval
import Criteria.Expr.Function
import Criteria.Expr.Lexeme
import Criteria.Expr.Operator
import Criteria.Expr.Reading
import Criteria.Expr.Render
import Criteria.Expr.Token
import Criteria.Json.Numeral
import Criteria.Json.Printer
import Criteria.Json.Reader
import Criteria.Language.Basic
import Criteria.Language.Cache
import Criteria.Pattern.Basic
import Criteria.Pattern.Class
import Criteria.Pattern.Delimiters
import Criteria.Pattern.Reading
import Criteria.Proofs.Binary64.Error
import Criteria.Proofs.Binary64.Integral
import Criteria.Proofs.Binary64.Nearest
import Criteria.Proofs.Binary64.Range
import Criteria.Proofs.Decimal.Grammar
import Criteria.Proofs.Decimal.Layout
import Criteria.Proofs.Decimal.Plain
import Criteria.Proofs.Decimal.Value
import Criteria.Proofs.Expr.Acceptance
import Criteria.Proofs.Expr.Boundary
import Criteria.Proofs.Expr.Chain
import Criteria.Proofs.Expr.Completeness
import Criteria.Proofs.Expr.Cursor
import Criteria.Proofs.Expr.Failure
import Criteria.Proofs.Expr.FaultPlace
import Criteria.Proofs.Expr.Grammar
import Criteria.Proofs.Expr.Kinds
import Criteria.Proofs.Expr.Lexing
import Criteria.Proofs.Expr.Literal
import Criteria.Proofs.Expr.Nesting
import Criteria.Proofs.Expr.Operand
import Criteria.Proofs.Expr.Plan
import Criteria.Proofs.Expr.Precedence
import Criteria.Proofs.Expr.Printing
import Criteria.Proofs.Expr.Range
import Criteria.Proofs.Expr.Reader
import Criteria.Proofs.Expr.Regular
import Criteria.Proofs.Expr.Respacing
import Criteria.Proofs.Expr.Respelling
import Criteria.Proofs.Expr.Runs
import Criteria.Proofs.Expr.Sequence
import Criteria.Proofs.Expr.Size
import Criteria.Proofs.Expr.Soundness
import Criteria.Proofs.Expr.Subtree
import Criteria.Proofs.Expr.Tiling
import Criteria.Proofs.Expr.Words
import Criteria.Proofs.Language.Agreement
import Criteria.Proofs.Language.History
import Criteria.Proofs.Language.Lint
import Criteria.Proofs.Language.Refusal
import Criteria.Proofs.Language.Retention
import Criteria.Proofs.Pattern.Delimiters
import Criteria.Proofs.Rule.Document
import Criteria.Proofs.Rule.Evaluation
import Criteria.Proofs.Rule.Height
import Criteria.Proofs.Rule.Malformed
import Criteria.Proofs.Rule.Meaning
import Criteria.Proofs.Rule.Membership
import Criteria.Proofs.Rule.Names
import Criteria.Proofs.Rule.Opposites
import Criteria.Proofs.Rule.Place
import Criteria.Proofs.Rule.SelfComparison
import Criteria.Proofs.Rule.Shape
import Criteria.Proofs.Rule.Styles
import Criteria.Proofs.Rule.Text
import Criteria.Proofs.Rule.Tree
import Criteria.Proofs.Service.History
import Criteria.Proofs.Service.Isolation
import Criteria.Proofs.Service.Stages
import Criteria.Proofs.Value.Arithmetic
import Criteria.Proofs.Value.Equality
import Criteria.Proofs.Value.Integer
import Criteria.Proofs.Value.Keys
import Criteria.Proofs.Value.Numeral
import Criteria.Proofs.Value.NumericText
import Criteria.Proofs.Value.Order
import Criteria.Proofs.Value.Power
import Criteria.Proofs.Value.Source
import Criteria.Rule.Basic
import Criteria.Rule.Compile
import Criteria.Rule.Context
import Criteria.Rule.Error
import Criteria.Rule.Operator
import Criteria.Rule.Predicate
import Criteria.Rule.Processor
import Criteria.Rule.Reading
import Criteria.Service.Basic
import Criteria.Service.Message
import Criteria.Service.Refusal
import Criteria.Text.Alphabetic
import Criteria.Text.Basic
import Criteria.Text.Blank
import Criteria.Text.Case
import Criteria.Text.Numeric
import Criteria.Text.Taken
import Criteria.Text.Word
import Criteria.Toml.Date
import Criteria.Toml.Quoted
import Criteria.Toml.Reader
import Criteria.Toml.Scalar
import Criteria.Toml.Tree
import Criteria.Value.Basic
import Criteria.Value.Compare
import Criteria.Value.Numeric
import Criteria.Value.Text
