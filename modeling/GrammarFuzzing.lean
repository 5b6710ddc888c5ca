import GrammarFuzzing.Cli.Arguments
import GrammarFuzzing.Cli.Execute
import GrammarFuzzing.Config.Basic
import GrammarFuzzing.Config.Reader
import GrammarFuzzing.Constraint.Basic
import GrammarFuzzing.Constraint.Fitness
import GrammarFuzzing.Constraint.Operand
import GrammarFuzzing.Constraint.Predicates
import GrammarFuzzing.Constraint.Spec
import GrammarFuzzing.Constraint.Value
import GrammarFuzzing.Dictionary
import GrammarFuzzing.Digest.Md5
import GrammarFuzzing.Evolution.Corpus
import GrammarFuzzing.Evolution.Crossover
import GrammarFuzzing.Evolution.Engine
import GrammarFuzzing.Evolution.Evaluation
import GrammarFuzzing.Evolution.Mutation
import GrammarFuzzing.Evolution.Population
import GrammarFuzzing.Evolution.Run
import GrammarFuzzing.Evolution.Selection
import GrammarFuzzing.Evolution.Tuning
import GrammarFuzzing.Exchange.Coverage
import GrammarFuzzing.Exchange.Endpoint
import GrammarFuzzing.Exchange.Message
import GrammarFuzzing.Exchange.Round
import GrammarFuzzing.Exchange.Schedule
import GrammarFuzzing.Exchange.Script
import GrammarFuzzing.Fuzz.Expand
import GrammarFuzzing.Grammar.Basic
import GrammarFuzzing.Grammar.Distance
import GrammarFuzzing.Grammar.Document
import GrammarFuzzing.Grammar.Error
import GrammarFuzzing.Grammar.Generators
import GrammarFuzzing.Grammar.Node
import GrammarFuzzing.Grammar.Reach
import GrammarFuzzing.Grammar.Setting
import GrammarFuzzing.Grammar.Slice
import GrammarFuzzing.Grammar.Spec
import GrammarFuzzing.Grammar.Validate
import GrammarFuzzing.Graph.Basic
import GrammarFuzzing.Graph.Search
import GrammarFuzzing.Json.Basic
import GrammarFuzzing.Json.Decode
import GrammarFuzzing.Json.Reader
import GrammarFuzzing.Json.Writer
import GrammarFuzzing.Main
import GrammarFuzzing.Number.Decimal
import GrammarFuzzing.Number.Reading
import GrammarFuzzing.Number.Scalar
import GrammarFuzzing.Number.Sum
import GrammarFuzzing.Packet.Basic
import GrammarFuzzing.Packet.Forecast
import GrammarFuzzing.Packet.Navigate
import GrammarFuzzing.Packet.Reduce
import GrammarFuzzing.Parse.Basic
import GrammarFuzzing.Parse.Chart
import GrammarFuzzing.Parse.Flat
import GrammarFuzzing.Parse.Search
import GrammarFuzzing.Proofs.Constraint.Bindings
import GrammarFuzzing.Proofs.Constraint.Blame
import GrammarFuzzing.Proofs.Constraint.Counts
import GrammarFuzzing.Proofs.Constraint.Meaning
import GrammarFuzzing.Proofs.Dictionary
import GrammarFuzzing.Proofs.Evolution.Closure
import GrammarFuzzing.Proofs.Evolution.Completion
import GrammarFuzzing.Proofs.Evolution.Currency
import GrammarFuzzing.Proofs.Evolution.Elitism
import GrammarFuzzing.Proofs.Evolution.Ending
import GrammarFuzzing.Proofs.Evolution.Filling
import GrammarFuzzing.Proofs.Evolution.Fitness
import GrammarFuzzing.Proofs.Evolution.Invariant
import GrammarFuzzing.Proofs.Evolution.Novelty
import GrammarFuzzing.Proofs.Evolution.Operators
import GrammarFuzzing.Proofs.Evolution.Parties
import GrammarFuzzing.Proofs.Evolution.Population
import GrammarFuzzing.Proofs.Evolution.Progress
import GrammarFuzzing.Proofs.Evolution.Regeneration
import GrammarFuzzing.Proofs.Evolution.Repair
import GrammarFuzzing.Proofs.Evolution.Reproduction
import GrammarFuzzing.Proofs.Evolution.Score
import GrammarFuzzing.Proofs.Evolution.Solutions
import GrammarFuzzing.Proofs.Evolution.Swapping
import GrammarFuzzing.Proofs.Evolution.Transition
import GrammarFuzzing.Proofs.Evolution.Variation
import GrammarFuzzing.Proofs.Exchange.Conversation
import GrammarFuzzing.Proofs.Exchange.Coverage
import GrammarFuzzing.Proofs.Exchange.Freshness
import GrammarFuzzing.Proofs.Exchange.Interleaving
import GrammarFuzzing.Proofs.Exchange.Report
import GrammarFuzzing.Proofs.Exchange.Round
import GrammarFuzzing.Proofs.Exchange.Session
import GrammarFuzzing.Proofs.Exchange.Trace
import GrammarFuzzing.Proofs.Exchange.Truncation
import GrammarFuzzing.Proofs.Fuzz.Budget
import GrammarFuzzing.Proofs.Fuzz.Ending
import GrammarFuzzing.Proofs.Fuzz.Expansion
import GrammarFuzzing.Proofs.Fuzz.Generated
import GrammarFuzzing.Proofs.Fuzz.Grounding
import GrammarFuzzing.Proofs.Fuzz.Hints
import GrammarFuzzing.Proofs.Fuzz.Nesting
import GrammarFuzzing.Proofs.Fuzz.RoundTrip
import GrammarFuzzing.Proofs.Fuzz.Senders
import GrammarFuzzing.Proofs.Grammar.Annotation
import GrammarFuzzing.Proofs.Grammar.Distance
import GrammarFuzzing.Proofs.Grammar.Faults
import GrammarFuzzing.Proofs.Grammar.Generated
import GrammarFuzzing.Proofs.Grammar.Matching
import GrammarFuzzing.Proofs.Grammar.Occurrence
import GrammarFuzzing.Proofs.Grammar.Outermost
import GrammarFuzzing.Proofs.Grammar.Parties
import GrammarFuzzing.Proofs.Grammar.Phrase
import GrammarFuzzing.Proofs.Grammar.Productivity
import GrammarFuzzing.Proofs.Grammar.Reach
import GrammarFuzzing.Proofs.Grammar.Replacement
import GrammarFuzzing.Proofs.Grammar.Rounds
import GrammarFuzzing.Proofs.Grammar.Senders
import GrammarFuzzing.Proofs.Grammar.Specification
import GrammarFuzzing.Proofs.Grammar.Spelling
import GrammarFuzzing.Proofs.Grammar.Validity
import GrammarFuzzing.Proofs.Grammar.WellFormed
import GrammarFuzzing.Proofs.Graph.Building
import GrammarFuzzing.Proofs.Graph.Edges
import GrammarFuzzing.Proofs.Graph.Expansion
import GrammarFuzzing.Proofs.Graph.Inversion
import GrammarFuzzing.Proofs.Graph.Passage
import GrammarFuzzing.Proofs.Graph.Search
import GrammarFuzzing.Proofs.Graph.Spreading
import GrammarFuzzing.Proofs.Graph.Walks
import GrammarFuzzing.Proofs.Number.Exact
import GrammarFuzzing.Proofs.Number.Nearest
import GrammarFuzzing.Proofs.Number.Nonnegative
import GrammarFuzzing.Proofs.Number.Rounding
import GrammarFuzzing.Proofs.Number.Shortest
import GrammarFuzzing.Proofs.Packet.Assembly
import GrammarFuzzing.Proofs.Packet.Control
import GrammarFuzzing.Proofs.Packet.Entries
import GrammarFuzzing.Proofs.Packet.Forecast
import GrammarFuzzing.Proofs.Packet.Navigation
import GrammarFuzzing.Proofs.Packet.Passage
import GrammarFuzzing.Proofs.Packet.Prediction
import GrammarFuzzing.Proofs.Packet.Reduction
import GrammarFuzzing.Proofs.Packet.Sequences
import GrammarFuzzing.Proofs.Packet.Token
import GrammarFuzzing.Proofs.Parse.Avoidance
import GrammarFuzzing.Proofs.Parse.Chart
import GrammarFuzzing.Proofs.Parse.Completeness
import GrammarFuzzing.Proofs.Parse.Cut
import GrammarFuzzing.Proofs.Parse.Derivation
import GrammarFuzzing.Proofs.Parse.Flat
import GrammarFuzzing.Proofs.Parse.Furthest
import GrammarFuzzing.Proofs.Parse.Loops
import GrammarFuzzing.Proofs.Parse.Meaning
import GrammarFuzzing.Proofs.Parse.Origin
import GrammarFuzzing.Proofs.Parse.Parsing
import GrammarFuzzing.Proofs.Parse.Partial
import GrammarFuzzing.Proofs.Parse.Parts
import GrammarFuzzing.Proofs.Parse.Prefix
import GrammarFuzzing.Proofs.Parse.Recognition
import GrammarFuzzing.Proofs.Parse.Search
import GrammarFuzzing.Proofs.Parse.Sentence
import GrammarFuzzing.Proofs.Parse.Span
import GrammarFuzzing.Proofs.Random.Draw
import GrammarFuzzing.Proofs.Text.Delimited
import GrammarFuzzing.Proofs.Text.Numerals
import GrammarFuzzing.Proofs.Text.ReadBack
import GrammarFuzzing.Proofs.Tree.Encoding
import GrammarFuzzing.Proofs.Tree.Export
import GrammarFuzzing.Proofs.Tree.Paths
import GrammarFuzzing.Proofs.Tree.Shape
import GrammarFuzzing.Random.ChaCha
import GrammarFuzzing.Random.Draw
import GrammarFuzzing.Random.Source
import GrammarFuzzing.Symbol
import GrammarFuzzing.Text.Ascii
import GrammarFuzzing.Text.Blank
import GrammarFuzzing.Text.Hex
import GrammarFuzzing.Text.Printable
import GrammarFuzzing.Text.Quoted
import GrammarFuzzing.Text.Utf8
import GrammarFuzzing.Toml.Basic
import GrammarFuzzing.Toml.Reader
import GrammarFuzzing.Tree.Basic
import GrammarFuzzing.Tree.Export
import GrammarFuzzing.Tree.Message
import GrammarFuzzing.Tree.Numeric
import GrammarFuzzing.Tree.Path
import GrammarFuzzing.Tree.Shape
import GrammarFuzzing.Proofs.Exchange.Energy
import GrammarFuzzing.Proofs.Evolution.Ranges
import GrammarFuzzing.Proofs.Evolution.Stagnation
import GrammarFuzzing.Proofs.Random.Possible
import GrammarFuzzing.Proofs.Fuzz.Reachability
