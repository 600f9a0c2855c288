import Lisplet.Main
import Lisplet.Proofs.Scopes
import Lisplet.Proofs.WellFormed
import Lisplet.Proofs.RoundTrip
import Lisplet.Proofs.Filling
import Lisplet.Proofs.Loading
import Lisplet.Proofs.Overflow
import Lisplet.Proofs.Expansion
import Lisplet.Proofs.Answers
import Lisplet.Proofs.Handling
import Lisplet.Proofs.Wrapping
import Lisplet.Proofs.Metadata
import Lisplet.Proofs.Composition
import Lisplet.Proofs.Delimiting
import Lisplet.Proofs.Application
import Lisplet.Proofs.Loops
import Lisplet.Proofs.Rendering
import Lisplet.Proofs.Equality
import Lisplet.Proofs.Interchange.Call
import Lisplet.Proofs.InsertionOrder
import Lisplet.Proofs.Exposure
import Lisplet.Proofs.Literals
import Lisplet.Proofs.Reflection
import Lisplet.Proofs.Conditions
import Lisplet.Proofs.Parameters
import Lisplet.Proofs.History
import Lisplet.Proofs.Naming
import Lisplet.Proofs.Arithmetic
import Lisplet.Proofs.Numerals.Reading
