import TemplateCompiler.Version
import TemplateCompiler.Expr.Binding
import TemplateCompiler.Code.Equivalence
import TemplateCompiler.Code.Emit
import TemplateCompiler.Pool.Basic
import TemplateCompiler.Lowering.Binding
import TemplateCompiler.Selector.Matcher
import TemplateCompiler.Selector.Runtime
import TemplateCompiler.Template.Compile
import TemplateCompiler.Yaml.Parser
import TemplateCompiler.Fixture.Basic
import TemplateCompiler.Main
import TemplateCompiler.Proofs.Text.Numeral
import TemplateCompiler.Proofs.Expr.Every
import TemplateCompiler.Proofs.Lowering.Soundness
import TemplateCompiler.Proofs.Lowering.Meaning
import TemplateCompiler.Proofs.Lowering.Frame
import TemplateCompiler.Proofs.Lowering.Preservation
import TemplateCompiler.Proofs.Code.Tested
import TemplateCompiler.Proofs.Lowering.Discipline
import TemplateCompiler.Proofs.Expr.Effects
import TemplateCompiler.Proofs.Lowering.Effects
import TemplateCompiler.Proofs.Expr.Parsed
import TemplateCompiler.Proofs.Code.Scoped
import TemplateCompiler.Proofs.Expr.Children
import TemplateCompiler.Proofs.Template.Conversion
import TemplateCompiler.Proofs.Code.Calls
import TemplateCompiler.Proofs.Lowering.Closure
import TemplateCompiler.Proofs.Template.Scopes
import TemplateCompiler.Proofs.Template.Lexicon
import TemplateCompiler.Proofs.Pool.Constants
import TemplateCompiler.Proofs.Template.Host
import TemplateCompiler.Proofs.Template.Ledger
import TemplateCompiler.Proofs.Template.Items
import TemplateCompiler.Proofs.Template.Compilation
import TemplateCompiler.Proofs.Template.Units
import TemplateCompiler.Proofs.Template.Resolution
import TemplateCompiler.Proofs.Template.Values
import TemplateCompiler.Proofs.Template.Addressing
import TemplateCompiler.Proofs.Template.Blocks
import TemplateCompiler.Proofs.Expr.Grammatical
import TemplateCompiler.Proofs.Expr.RoundTrip
import TemplateCompiler.Proofs.Selector.Matching
import TemplateCompiler.Proofs.Code.Unambiguous
import TemplateCompiler.Proofs.Pool.Faithful
import TemplateCompiler.Proofs.Template.Names
import TemplateCompiler.Proofs.Template.Visible
import TemplateCompiler.Proofs.Template.WellScoped
import TemplateCompiler.Proofs.Code.Unhandled
import TemplateCompiler.Proofs.Template.EventReads
import TemplateCompiler.Proofs.Pool.Order
import TemplateCompiler.Proofs.Template.DeclaredOnce
import TemplateCompiler.Proofs.Template.Replay
import TemplateCompiler.Proofs.Expr.Convertible
import TemplateCompiler.Proofs.Lowering.Internal
import TemplateCompiler.Proofs.Lowering.ReadOnly
import TemplateCompiler.Proofs.Expr.Replacement
import TemplateCompiler.Proofs.Expr.Targets
import TemplateCompiler.Proofs.Pool.SameKey
import TemplateCompiler.Proofs.Lowering.Chains
import TemplateCompiler.Proofs.Lowering.ContextUse
import TemplateCompiler.Proofs.Expr.Printing
import TemplateCompiler.Proofs.Selector.Flat
import TemplateCompiler.Proofs.Selector.Reports
import TemplateCompiler.Proofs.Code.Composition
import TemplateCompiler.Proofs.Template.Projection
import TemplateCompiler.Proofs.Code.Positions
import TemplateCompiler.Proofs.Expr.Literals
import TemplateCompiler.Proofs.Expr.Escapes
import TemplateCompiler.Proofs.Expr.Sources
import TemplateCompiler.Proofs.Expr.Renaming
import TemplateCompiler.Proofs.Code.Compared
import TemplateCompiler.Proofs.Code.Alike
import TemplateCompiler.Proofs.Template.Invariants
import TemplateCompiler.Proofs.Template.Collected
import TemplateCompiler.Proofs.Lowering.Ending
import TemplateCompiler.Proofs.Pool.Distinct
import TemplateCompiler.Proofs.Lowering.Stacks
import TemplateCompiler.Proofs.Selector.Attributes
