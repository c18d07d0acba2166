import ParserForge.Automaton.Dfa
import ParserForge.Automaton.Nfa
import ParserForge.Command.Options
import ParserForge.Command.Report
import ParserForge.Discovery
import ParserForge.Format.Error
import ParserForge.Format.Reader
import ParserForge.Format.Rules
import ParserForge.Grammar.Basic
import ParserForge.Grammar.Definition
import ParserForge.Grammar.First
import ParserForge.Grammar.Follow
import ParserForge.Grammar.TerminalSet
import ParserForge.Grouping
import ParserForge.Item.Basic
import ParserForge.Item.Collection
import ParserForge.Item.Lr0
import ParserForge.Item.Lr1
import ParserForge.Item.Set
import ParserForge.Lexer.Rules
import ParserForge.Lexer.Scan
import ParserForge.Lexer.Token
import ParserForge.Main
import ParserForge.Numbering
import ParserForge.Parsing.Derivation
import ParserForge.Parsing.Machine
import ParserForge.Proofs.Automaton.Builder
import ParserForge.Proofs.Automaton.Closure
import ParserForge.Proofs.Automaton.Language
import ParserForge.Proofs.Automaton.Shape
import ParserForge.Proofs.Automaton.Steps
import ParserForge.Proofs.Automaton.Subsets
import ParserForge.Proofs.BreadthFirst
import ParserForge.Proofs.Checked
import ParserForge.Proofs.Discovery
import ParserForge.Proofs.FirstInFirstOut
import ParserForge.Proofs.Format.Comments
import ParserForge.Proofs.Format.Definable
import ParserForge.Proofs.Format.Form
import ParserForge.Proofs.Format.Layout
import ParserForge.Proofs.Format.Passes
import ParserForge.Proofs.Format.Reading
import ParserForge.Proofs.Format.Spelling
import ParserForge.Proofs.Format.Tokens
import ParserForge.Proofs.Format.Values
import ParserForge.Proofs.Grammar.Adjacent
import ParserForge.Proofs.Grammar.Beginning
import ParserForge.Proofs.Grammar.Builder
import ParserForge.Proofs.Grammar.Declaring
import ParserForge.Proofs.Grammar.Derivation
import ParserForge.Proofs.Grammar.First
import ParserForge.Proofs.Grammar.Follow
import ParserForge.Proofs.Grammar.Language
import ParserForge.Proofs.Grammar.Lookups
import ParserForge.Proofs.Grammar.Productive
import ParserForge.Proofs.Grammar.Reachable
import ParserForge.Proofs.Grammar.Session
import ParserForge.Proofs.Grammar.TerminalSet
import ParserForge.Proofs.Grammar.WellFormed
import ParserForge.Proofs.Item.Canonical
import ParserForge.Proofs.Item.Centers
import ParserForge.Proofs.Item.Chains
import ParserForge.Proofs.Item.Closure
import ParserForge.Proofs.Item.Connected
import ParserForge.Proofs.Item.Ending
import ParserForge.Proofs.Item.Enough
import ParserForge.Proofs.Item.Filled
import ParserForge.Proofs.Item.Goto
import ParserForge.Proofs.Item.InRange
import ParserForge.Proofs.Item.Least
import ParserForge.Proofs.Item.Lookups
import ParserForge.Proofs.Item.Lr0
import ParserForge.Proofs.Item.Lr1
import ParserForge.Proofs.Item.Next
import ParserForge.Proofs.Item.Set
import ParserForge.Proofs.Item.Valid
import ParserForge.Proofs.Item.ValidSets
import ParserForge.Proofs.Item.Viable
import ParserForge.Proofs.Lexer.Building
import ParserForge.Proofs.Lexer.Cursor
import ParserForge.Proofs.Lexer.Cuts
import ParserForge.Proofs.Lexer.Matching
import ParserForge.Proofs.Lexer.MaximalMunch
import ParserForge.Proofs.Lexer.Positions
import ParserForge.Proofs.Lexer.Simulation
import ParserForge.Proofs.Parsing.Agreement
import ParserForge.Proofs.Parsing.CommonStart
import ParserForge.Proofs.Parsing.Completeness
import ParserForge.Proofs.Parsing.EndOfInput
import ParserForge.Proofs.Parsing.ErrorPosition
import ParserForge.Proofs.Parsing.Evaluation
import ParserForge.Proofs.Parsing.Expected
import ParserForge.Proofs.Parsing.Halting
import ParserForge.Proofs.Parsing.Labels
import ParserForge.Proofs.Parsing.Lookahead
import ParserForge.Proofs.Parsing.PostOrder
import ParserForge.Proofs.Parsing.Reductions
import ParserForge.Proofs.Parsing.Replay
import ParserForge.Proofs.Parsing.Safety
import ParserForge.Proofs.Parsing.Soundness
import ParserForge.Proofs.Parsing.Stack
import ParserForge.Proofs.Parsing.Termination
import ParserForge.Proofs.Parsing.Tree
import ParserForge.Proofs.Regex.Block
import ParserForge.Proofs.Regex.Building
import ParserForge.Proofs.Regex.Compile
import ParserForge.Proofs.Regex.Grammar
import ParserForge.Proofs.Regex.Language
import ParserForge.Proofs.Regex.Lexemes
import ParserForge.Proofs.Regex.Normal
import ParserForge.Proofs.Regex.Reading
import ParserForge.Proofs.Regex.Shape
import ParserForge.Proofs.Table.Candidates
import ParserForge.Proofs.Table.Conflicts
import ParserForge.Proofs.Table.Faithful
import ParserForge.Proofs.Table.Lookups
import ParserForge.Proofs.Turns
import ParserForge.Proofs.WorkQueue
import ParserForge.Regex.Basic
import ParserForge.Regex.Block
import ParserForge.Regex.Parse
import ParserForge.Table.Basic
import ParserForge.Table.Generate
import ParserForge.Text.Blank
import ParserForge.Text.Printable
import ParserForge.Text.Quoted
import ParserForge.WorkQueue
