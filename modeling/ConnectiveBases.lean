import ConnectiveBases.CommandLine
import ConnectiveBases.Proofs.Decisions
import ConnectiveBases.Proofs.PassAgreement
import ConnectiveBases.Proofs.PassRuns
import ConnectiveBases.Proofs.FormChains
import ConnectiveBases.Proofs.Substitution
import ConnectiveBases.Proofs.FormCheck
import ConnectiveBases.Proofs.FixedPoints
import ConnectiveBases.Proofs.FormGrowth
import ConnectiveBases.Proofs.PaddingSearch
import ConnectiveBases.Proofs.Congruence
import ConnectiveBases.Proofs.TruthTables
import ConnectiveBases.Proofs.SymbolReading
import ConnectiveBases.Proofs.Folds
import ConnectiveBases.Proofs.BasisNodes
import ConnectiveBases.Proofs.ModelHistories
import ConnectiveBases.Proofs.PostorderRecord
import ConnectiveBases.Proofs.UniqueReading
