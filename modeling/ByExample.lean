import ByExample.Product.Odometer
import ByExample.Product.Sieve
import ByExample.Product.Weighted
import ByExample.Grammar.Rules
import ByExample.Grammar.Printer
import ByExample.Tree.Printer
import ByExample.Tree.Sized
import ByExample.Typing
import ByExample.Arithmetic.Evaluation
import ByExample.Words
import ByExample.Search.Basic
import ByExample.Problem.Format
import ByExample.CommandLine.Execution
import ByExample.Main
import ByExample.Proofs.Language
import ByExample.Proofs.Replacement
import ByExample.Proofs.Derivation
import ByExample.Proofs.Filling
import ByExample.Proofs.Weight
import ByExample.Proofs.Successors
import ByExample.Proofs.Enumeration
import ByExample.Proofs.Arithmetic.Congruence
import ByExample.Proofs.Acceptance
import ByExample.Proofs.Counting
import ByExample.Proofs.Growth
import ByExample.Proofs.Bank
import ByExample.Proofs.Strata
import ByExample.Proofs.Coverage
import ByExample.Proofs.Arithmetic.Pruning
import ByExample.Proofs.Refinement
import ByExample.Proofs.Running
import ByExample.Proofs.Soundness
import ByExample.Proofs.Faults
import ByExample.Proofs.Arithmetic.Kinds
import ByExample.Proofs.Minimality
import ByExample.Proofs.Arithmetic.Completeness
import ByExample.Proofs.Fairness
import ByExample.Proofs.BreadthFirst
import ByExample.Proofs.Arithmetic.Agreement
import ByExample.Proofs.Resumption
import ByExample.Proofs.ExampleSet
import ByExample.Proofs.Filing
import ByExample.Proofs.Drafting
import ByExample.Proofs.Rules
import ByExample.Proofs.Refusal
import ByExample.Proofs.Judgement
import ByExample.Proofs.Reachability
import ByExample.Proofs.Exhaustion
import ByExample.Proofs.Trimming
import ByExample.Proofs.Arithmetic.Unneeded
import ByExample.Proofs.Decimal
import ByExample.Proofs.Json.Scanning
import ByExample.Proofs.Json.Parsing
import ByExample.Proofs.Json.Reading
import ByExample.Proofs.ProblemFile
import ByExample.Proofs.Elimination
import ByExample.Proofs.Success
import ByExample.Proofs.Offering
import ByExample.Proofs.RenamedSearch
import ByExample.Proofs.Arithmetic.Regrouping
import ByExample.Proofs.Arithmetic.Laziness
import ByExample.Proofs.Arithmetic.Rejection
import ByExample.Proofs.Arithmetic.ArgumentCounts
import ByExample.Proofs.Arithmetic.Wrapping
import ByExample.Proofs.Arithmetic.Parameters
import ByExample.Proofs.Typing
import ByExample.Proofs.Printing
import ByExample.Proofs.MixedRadix
import ByExample.Proofs.Sieving
import ByExample.Proofs.Focus
import ByExample.Proofs.Holes
