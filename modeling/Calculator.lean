import Calculator.Main
import Calculator.Proofs.Acceptance
import Calculator.Proofs.Alphabet
import Calculator.Proofs.Balance
import Calculator.Proofs.Batch
import Calculator.Proofs.Canonical
import Calculator.Proofs.Drawing
import Calculator.Proofs.Groups
import Calculator.Proofs.Idempotence
import Calculator.Proofs.Legibility
import Calculator.Proofs.Necessity
import Calculator.Proofs.OperandCount
import Calculator.Proofs.OperatorStack
import Calculator.Proofs.Order
import Calculator.Proofs.PlainText
import Calculator.Proofs.Redundancy
import Calculator.Proofs.Replies
import Calculator.Proofs.Requests
