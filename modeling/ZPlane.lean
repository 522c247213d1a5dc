import ZPlane.Polynomial.Text
import ZPlane.Parsing.Pattern.Reader
import ZPlane.Design.Edit
import ZPlane.Storage.Json
import ZPlane.Storage.MessagePack
import ZPlane.Storage.Record
import ZPlane.Proofs.Parsing.Shift
import ZPlane.Proofs.Parsing.Alternatives
import ZPlane.Proofs.Parsing.Chains
import ZPlane.Proofs.Parsing.Column
import ZPlane.Proofs.Parsing.Number
import ZPlane.Proofs.Calculator.Blame
import ZPlane.Proofs.Calculator.Termination
import ZPlane.Proofs.Calculator.Printing
import ZPlane.Proofs.Fourier.Block
import ZPlane.Proofs.Design.Location
import ZPlane.Proofs.Design.Response
import ZPlane.Proofs.Design.Insertion
import ZPlane.Proofs.Design.Expectation
import ZPlane.Proofs.Design.Concatenation
import ZPlane.Proofs.Design.Refusal
import ZPlane.Proofs.Design.Conjugation
import ZPlane.Proofs.Storage.MessagePack
import ZPlane.Proofs.Storage.Json
import ZPlane.Proofs.Polynomial.Derivative
import ZPlane.Proofs.Polynomial.Linear
import ZPlane.Proofs.Polynomial.Termination
import ZPlane.Proofs.Complex.Order
