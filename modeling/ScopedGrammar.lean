import ScopedGrammar.Arith.Binary64
import ScopedGrammar.Clause.Reader
import ScopedGrammar.Enumeration
import ScopedGrammar.Prior
import ScopedGrammar.Proposal
import ScopedGrammar.Draw.SplitMix
import ScopedGrammar.Tree.Printer
import ScopedGrammar.Tree.Iteration
import ScopedGrammar.Proofs.Countdown
import ScopedGrammar.Proofs.Hole
import ScopedGrammar.Proofs.Store
import ScopedGrammar.Proofs.Tour
import ScopedGrammar.Proofs.Pick
import ScopedGrammar.Proofs.Signs
import ScopedGrammar.Proofs.Signs.Binary64
import ScopedGrammar.Proofs.Derivation
import ScopedGrammar.Proofs.Chain
import ScopedGrammar.Proofs.Reachability
import ScopedGrammar.Proofs.Combination
import ScopedGrammar.Proofs.Enumeration
import ScopedGrammar.Proofs.Listing
import ScopedGrammar.Proofs.Deepening
import ScopedGrammar.Proofs.Confinement
import ScopedGrammar.Proofs.Exact
import ScopedGrammar.Proofs.Correction
import ScopedGrammar.Proofs.Text.Character
import ScopedGrammar.Proofs.Text.Lexing
import ScopedGrammar.Proofs.Text.Binary64
import ScopedGrammar.Proofs.Text.RoundTrip
import ScopedGrammar.Proofs.Numbering
import ScopedGrammar.Proofs.Insertion
import ScopedGrammar.Proofs.Text.Acceptance
import ScopedGrammar.Proofs.Drawing
import ScopedGrammar.Proofs.Sampling
import ScopedGrammar.Proofs.Restoration
import ScopedGrammar.Proofs.Ledger
import ScopedGrammar.Proofs.Indifference
import ScopedGrammar.Proofs.Mass
import ScopedGrammar.Proofs.Proportion
import ScopedGrammar.Proofs.Address
import ScopedGrammar.Proofs.Progress
import ScopedGrammar.Proofs.Regeneration
import ScopedGrammar.Proofs.Completion
import ScopedGrammar.Proofs.Naming
import ScopedGrammar.Proofs.Preorder
import ScopedGrammar.Proofs.Splice
import ScopedGrammar.Proofs.RuleUse
import ScopedGrammar.Proofs.Text.PartialReading
import ScopedGrammar.Proofs.Text.Concatenation
import ScopedGrammar.Proofs.Text.Layout
import ScopedGrammar.Proofs.Freshness
import ScopedGrammar.Proofs.Terminals
