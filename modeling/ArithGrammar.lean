import ArithGrammar.Main
import ArithGrammar.Proofs.ArgumentOrder
import ArithGrammar.Proofs.BoundedView
import ArithGrammar.Proofs.CallDepth
import ArithGrammar.Proofs.ClosingParentheses
import ArithGrammar.Proofs.CommandLog
import ArithGrammar.Proofs.DecimalScan
import ArithGrammar.Proofs.DisplayedTokens
import ArithGrammar.Proofs.Division
import ArithGrammar.Proofs.Grouping
import ArithGrammar.Proofs.MatchingParenthesis
import ArithGrammar.Proofs.MaximalTrim
import ArithGrammar.Proofs.OnePassAgreement
import ArithGrammar.Proofs.OpenNesting
import ArithGrammar.Proofs.PassSafety
import ArithGrammar.Proofs.ReportDecoding
import ArithGrammar.Proofs.SameSets
import ArithGrammar.Proofs.SessionVerdicts
import ArithGrammar.Proofs.SharedHistory
import ArithGrammar.Session
import ArithGrammar.ViewScript
