import BuchiToRabin.Main
import BuchiToRabin.NatSet.Registers
import BuchiToRabin.Tree.Check
import BuchiToRabin.Step.Flat
import BuchiToRabin.Proofs.NatSet.Algebra
import BuchiToRabin.Proofs.Step.Kept
import BuchiToRabin.Proofs.Step.Rules
import BuchiToRabin.Proofs.Attempt
import BuchiToRabin.Proofs.Step.Growth
import BuchiToRabin.Proofs.Step.Traversal
import BuchiToRabin.Proofs.Step.Agreement
import BuchiToRabin.Proofs.Step.Preservation
import BuchiToRabin.Proofs.Step.Run
import BuchiToRabin.Proofs.Automaton.Acceptance
import BuchiToRabin.Proofs.Step.Descent
import BuchiToRabin.Proofs.Step.Acceptance
import BuchiToRabin.Proofs.Store.Lookup
import BuchiToRabin.Proofs.Determinization.Stock
import BuchiToRabin.Proofs.Determinization.Chart
import BuchiToRabin.Proofs.Determinization.Exactness
import BuchiToRabin.Proofs.Determinization.Path
import BuchiToRabin.Proofs.Determinization.Subset
import BuchiToRabin.Proofs.Determinization.Acceptance
import BuchiToRabin.Proofs.Determinization.Capacity
import BuchiToRabin.Proofs.Store.Chain
import BuchiToRabin.Proofs.Store.HashConsing
import BuchiToRabin.Proofs.Determinization.Numbering
import BuchiToRabin.Proofs.NatSet.Image
import BuchiToRabin.Proofs.Step.Renaming
import BuchiToRabin.Proofs.Determinization.Renaming
import BuchiToRabin.Proofs.Automaton.Format
import BuchiToRabin.Proofs.Automaton.Reader
import BuchiToRabin.Proofs.NatSet.Word
import BuchiToRabin.Proofs.NatSet.Block
import BuchiToRabin.Proofs.NatSet.Registers
import BuchiToRabin.Proofs.NatSet.Absent
import BuchiToRabin.Proofs.Tree.Trims
import BuchiToRabin.Proofs.Tree.Places
import BuchiToRabin.Proofs.Step.Claim
import BuchiToRabin.Proofs.Step.Visits
import BuchiToRabin.Proofs.Step.Naming
import BuchiToRabin.Proofs.Step.Accounting
import BuchiToRabin.Proofs.Step.ClosedForm
import BuchiToRabin.Proofs.NatSet.Extensional
import BuchiToRabin.Proofs.Tree.Kin
import BuchiToRabin.Proofs.Step.Identity
import BuchiToRabin.Proofs.Tree.Deepest
import BuchiToRabin.Proofs.Determinization.Marks
import BuchiToRabin.Proofs.Forest.Layout
import BuchiToRabin.Proofs.Tree.Flat
import BuchiToRabin.Proofs.Step.Flat
import BuchiToRabin.Proofs.Tree.Hierarchy
import BuchiToRabin.Proofs.Fingerprint
import BuchiToRabin.Proofs.Tree.Graft
import BuchiToRabin.Proofs.Transitions.Grouping
import BuchiToRabin.Proofs.Automaton.Prefix
import BuchiToRabin.Proofs.Step.Upward
import BuchiToRabin.Proofs.Step.Counting
import BuchiToRabin.Proofs.Text.Joined
import BuchiToRabin.Proofs.Tree.Text
import BuchiToRabin.Proofs.Determinization.Arrows
import BuchiToRabin.Proofs.Determinization.Drawing
