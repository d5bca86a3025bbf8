import Lisplet.Main
import Lisplet.Proofs.DepthLimit
import Lisplet.Proofs.FrameEffect
import Lisplet.Proofs.Order
import Lisplet.Proofs.RoundTrip
import Lisplet.Proofs.Trampoline
import Lisplet.Proofs.Cutting
import Lisplet.Proofs.Grammar
import Lisplet.Proofs.RoundTrip.Rereading
import Lisplet.Proofs.Interleaving
import Lisplet.Proofs.Meaning
import Lisplet.Proofs.Quasiquote
import Lisplet.Proofs.LoadFile
import Lisplet.Proofs.NewRoot
import Lisplet.Proofs.Acceptance
import Lisplet.Proofs.Independence
import Lisplet.Proofs.Application
import Lisplet.Proofs.Concatenation
import Lisplet.Proofs.Shadowing
import Lisplet.Proofs.LexicalGrammar
import Lisplet.Proofs.Malformed
import Lisplet.Proofs.TemplateDepth
import Lisplet.Proofs.RecursionDepth
import Lisplet.Proofs.Termination
import Lisplet.Proofs.Swapping
import Lisplet.Proofs.Unfolding
import Lisplet.Proofs.Arguments
import Lisplet.Proofs.Scopes
import Lisplet.Proofs.Progress
import Lisplet.Proofs.Places
import Lisplet.Proofs.HostData
import Lisplet.Proofs.MapEntries
import Lisplet.Proofs.ComparisonChains
import Lisplet.Proofs.ExactArithmetic
import Lisplet.Proofs.SequenceAlgebra
