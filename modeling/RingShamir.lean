import RingShamir.Proofs.Chain.Extended
import RingShamir.Proofs.Chain.Plain
import RingShamir.Proofs.Scalar
import RingShamir.Proofs.Sharing.Aggregation
import RingShamir.Proofs.Sharing.Evaluation
import RingShamir.Random.SplitMix
import RingShamir.SecretKey
import RingShamir.Sharing.Combiner
import RingShamir.Sharing.Polynomial
import RingShamir.Text.Hexadecimal
import RingShamir.Proofs.Sharing.Combination
import RingShamir.Proofs.Sharing.Reconstruction
import RingShamir.Proofs.Sharing.Secrecy
import RingShamir.Proofs.Sharing.Atomicity
import RingShamir.Proofs.SecretKey
import RingShamir.Proofs.Sharing.KeyGeneration
import RingShamir.Proofs.Sharing.Memoryless
import RingShamir.Proofs.Chain.Encoding
import RingShamir.Proofs.Sharing.Projection
import RingShamir.Proofs.Sharing.SessionSafety
import RingShamir.Proofs.Chain.Levels
import RingShamir.Proofs.Sharing.Values
import RingShamir.Proofs.Sharing.Factors
import RingShamir.Proofs.Sharing.Acceptance
import RingShamir.Proofs.Modulus.Exactness
import RingShamir.Proofs.Modulus.Inversion
import RingShamir.Proofs.Parameters.Safety
import RingShamir.Proofs.Sharing.Order
import RingShamir.Proofs.Sharing.Linearity
import RingShamir.Proofs.Chain.ScalarAction
import RingShamir.Proofs.Parameters.Clashes
import RingShamir.Proofs.Parameters.Equality
import RingShamir.Proofs.SecretKey.Faithful
import RingShamir.Proofs.Random.Binomial
import RingShamir.Proofs.Modulus.Arithmetic
import RingShamir.Proofs.Prime.Descent
import RingShamir.Proofs.Sharing.Dealing
