import UnionTyping.Ty.Hashing
import UnionTyping.Rendering.Diagnostic
import UnionTyping.Settings.Reader
import UnionTyping.Syntax.Numbering
import UnionTyping.Proofs.Syntax.Preorder
import UnionTyping.Proofs.Inference.TotalDispatch
import UnionTyping.Proofs.Inference.Limit
import UnionTyping.Proofs.Inference.Termination
import UnionTyping.Proofs.Inference.LegalCalls
import UnionTyping.Proofs.Typing.Variables
import UnionTyping.Proofs.Typing.Agreement
import UnionTyping.Proofs.Inheritance
import UnionTyping.Proofs.Typing.Parameters
import UnionTyping.Proofs.Typing.CalledInstances
import UnionTyping.Proofs.Typing.Origins
import UnionTyping.Proofs.Typing.ReturnedTypes
import UnionTyping.Proofs.Overload.Combinations
import UnionTyping.Proofs.Binding.Freshness
import UnionTyping.Proofs.Inference.Moments
import UnionTyping.Proofs.Inference.NormalForm
import UnionTyping.Proofs.Inference.WrittenTypes
import UnionTyping.Proofs.Typing.Coverage
import UnionTyping.Proofs.Typing.NameResolution
import UnionTyping.Proofs.Inference.Cutoff
import UnionTyping.Proofs.Inference.Located
import UnionTyping.Proofs.Inference.Causes
import UnionTyping.Proofs.Inference.MethodOrder
import UnionTyping.Proofs.Ty.Hashing
import UnionTyping.Proofs.Inference.InstanceKeys
import UnionTyping.Proofs.Overload.MostSpecific
import UnionTyping.Proofs.Overload.Widening
import UnionTyping.Globals
import UnionTyping.Proofs.ClassIndex
import UnionTyping.Proofs.ClassDeclarations
import UnionTyping.Proofs.MethodLookup
import UnionTyping.Proofs.Inference.Desugaring
import UnionTyping.Proofs.Typing.LoopControl
import UnionTyping.Proofs.Binding.History
import UnionTyping.Proofs.Ty.Narrowing
import UnionTyping.Proofs.Rendering.ArgumentCounts
import UnionTyping.Proofs.Rendering.Span
import UnionTyping.Proofs.Binding.Bookkeeping
