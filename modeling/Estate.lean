import Estate.Machine
import Estate.Proofs.Mempool
import Estate.Lib.Agenda
import Estate.Proofs.Defer
import Estate.Proofs.Check
import Estate.Cc.Lexeme
import Estate.Proofs.Lexeme
import Estate.Proofs.Step
import Estate.Proofs.Tokens
import Estate.Cc.Nesting
import Estate.Proofs.Blocks
import Estate.Cc.Rewriting
import Estate.Proofs.Comments
import Estate.Proofs.Machines
import Estate.Proofs.Outline
import Estate.Cc.Rendering
import Estate.Lib.Triple
import Estate.Proofs.Rendering
import Estate.Cc.Main
import Estate.Proofs.Main
import Estate.Build
import Estate.Cc.Load
import Estate.Lib.Batch
import Estate.Proofs.Firing
import Estate.Proofs.Order
import Estate.Proofs.Load
import Estate.Proofs.Loaded
import Estate.Lib.Sort
import Estate.Proofs.Lookup
import Estate.Proofs.Runs
import Estate.Proofs.Stepping
import Estate.Proofs.Travel
import Estate.Lib.Stack
import Estate.Life
import Estate.Proofs.Free
import Estate.Proofs.Caching
import Estate.Proofs.Shares
import Estate.Proofs.Spelling
import Estate.Proofs.Verdict
import Estate.Cc.Listing
import Estate.Proofs.Listing
import Estate.Cc.Rebuild
import Estate.Proofs.Forward
import Estate.Proofs.Rebuild
import Estate.Proofs.NullMachine
import Estate.Proofs.Install
import Estate.Proofs.Keys
import Estate.Proofs.Refusal
import Estate.Proofs.Defined
import Estate.Proofs.Cursors
import Estate.Proofs.CbCheck
import Estate.Proofs.Requests
import Estate.Proofs.InOrder
import Estate.Proofs.Naming
import Estate.Cc.Ending
import Estate.Proofs.Ending
import Estate.Cc.Abbreviation
import Estate.Proofs.Abbreviation
import Estate.Proofs.Overrun
import Estate.Proofs.Arrows
import Estate.Proofs.Reach
import Estate.Lib.Printf
import Estate.Proofs.Report
import Estate.Proofs.Frozen
import Estate.Lib.Automaton
import Estate.Cc.Meaning
import Estate.Proofs.Meaning
import Estate.Proofs.Sequence
import Estate.Cc.Pipeline
import Estate.Proofs.Pipeline
import Estate.Lib.Ledger
import Estate.Cc.Ledger
import Estate.Proofs.Ledger
import Estate.Proofs.Balance
import Estate.Proofs.Place
import Estate.Proofs.Join
import Estate.Lib.Reader
import Estate.Cc.ReadGc
import Estate.Proofs.ReadGc
import Estate.Proofs.Legible
import Estate.Init
import Estate.Proofs.Init
import Estate.Proofs.Calls
import Estate.Proofs.Lifetime
