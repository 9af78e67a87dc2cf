import JsonQuery.Data.Equality
import JsonQuery.Host.Number
import JsonQuery.Json.Display
import JsonQuery.Main
import JsonQuery.Proofs.Chain.Selection
import JsonQuery.Proofs.CommandLine
import JsonQuery.Proofs.Data.Slice
import JsonQuery.Proofs.Eval.Agree
import JsonQuery.Proofs.Eval.Equality
import JsonQuery.Proofs.Eval.Projection
import JsonQuery.Proofs.Expr.Outline
import JsonQuery.Proofs.Function.ByKey
import JsonQuery.Proofs.Function.Dispatch
import JsonQuery.Proofs.Function.ToString
import JsonQuery.Proofs.Grammar.Called
import JsonQuery.Proofs.Grammar.Complete
import JsonQuery.Proofs.Grammar.Level
import JsonQuery.Proofs.Grammar.Local
import JsonQuery.Proofs.Grammar.Sound
import JsonQuery.Proofs.Grammar.Source
import JsonQuery.Proofs.Grammar.Words
import JsonQuery.Proofs.Host
import JsonQuery.Proofs.Infix.Parse
import JsonQuery.Proofs.Json.Single
import JsonQuery.Proofs.Search.Depth
import JsonQuery.Proofs.Search.Failure
import JsonQuery.Proofs.Search.Layout
import JsonQuery.Proofs.Search.Limit
import JsonQuery.Proofs.Search.Merge
import JsonQuery.Proofs.Search.Pipe
import JsonQuery.Proofs.Search.Plain
import JsonQuery.Proofs.Search.Registered
import JsonQuery.Proofs.Search.Reorder
import JsonQuery.Proofs.Search.SelfKeyed
import JsonQuery.Proofs.Token.Written
