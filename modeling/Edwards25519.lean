import Edwards25519.Bytes.Lemmas
import Edwards25519.Curve
import Edwards25519.Digest.Ripemd160
import Edwards25519.Multiple.Workspace
import Edwards25519.Text
import Edwards25519.Proofs.Curve.Group
import Edwards25519.Proofs.Primes
import Edwards25519.Proofs.Word.Checked
import Edwards25519.Proofs.Word.Related
import Edwards25519.Proofs.Bytes
import Edwards25519.Proofs.Chain
import Edwards25519.Proofs.Curve.Ed25519
import Edwards25519.Proofs.Envelope
import Edwards25519.Proofs.Multiple.Linearity
import Edwards25519.Proofs.Signature.Uniqueness
import Edwards25519.Proofs.Cipher.Aes256
import Edwards25519.Proofs.Cipher.Chaining
import Edwards25519.Proofs.Envelope.Bijection
import Edwards25519.Proofs.Point.Compression
import Edwards25519.Proofs.SmallOrder
import Edwards25519.Proofs.Multiple.Caching
import Edwards25519.Proofs.Multiple.Exactness
import Edwards25519.Proofs.Envelope.Torsion
import Edwards25519.Proofs.Session
import Edwards25519.Proofs.Multiple.Difference
import Edwards25519.Proofs.Scalar.Canonical
import Edwards25519.Proofs.Field.Square
import Edwards25519.Proofs.Point.Decompression
import Edwards25519.Proofs.Multiple.Entries
import Edwards25519.Proofs.Point.Equality
import Edwards25519.Proofs.Scalar.Windows
import Edwards25519.Proofs.Signature.Canonical
import Edwards25519.Proofs.Multiple.Recoding
import Edwards25519.Proofs.Field.SquareRoot
import Edwards25519.Proofs.Field.AdditionChain
