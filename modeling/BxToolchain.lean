import BxToolchain.Bx.Signature
import BxToolchain.Bx.View
import BxToolchain.Flow.View
import BxToolchain.Grammar.TokenList
import BxToolchain.Main
import BxToolchain.Proofs.Bx.CheckEnds
import BxToolchain.Proofs.Bx.Deciding
import BxToolchain.Proofs.Bx.EdgeConditions
import BxToolchain.Proofs.Bx.Escaping
import BxToolchain.Proofs.Bx.Returning
import BxToolchain.Proofs.Bx.ScopeFrame
import BxToolchain.Proofs.Bx.ShortCircuit
import BxToolchain.Proofs.Bx.SourceText
import BxToolchain.Proofs.Flow.Edits
import BxToolchain.Proofs.Flow.GlobalStores
import BxToolchain.Proofs.Flow.LivePaths
import BxToolchain.Proofs.Flow.Relabelling
import BxToolchain.Proofs.Flow.SingleForm
import BxToolchain.Proofs.Tac.Words
import BxToolchain.Proofs.Workload.Fibonacci
import BxToolchain.Proofs.X64.ArgumentRegisters
import BxToolchain.Proofs.X64.Procedure
import BxToolchain.Proofs.X64.StackArguments
import BxToolchain.Proofs.X64.StackSlots
import BxToolchain.Scanner.Document
import BxToolchain.Workload.Count
