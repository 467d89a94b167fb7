import TlsClient.Proofs.Access.Calls
import TlsClient.Proofs.Record.Tampering
import TlsClient.Proofs.Aes.Standard
import TlsClient.Proofs.Der.CertificateKey
import TlsClient.Proofs.Der.Tree
import TlsClient.Proofs.Gcm.Multiplication
import TlsClient.Proofs.Natural.BigEndian
import TlsClient.Proofs.Natural.Remainder
import TlsClient.Proofs.Prf.Standard
import TlsClient.Proofs.Record.Acceptance
import TlsClient.Proofs.Record.Agreement
import TlsClient.Proofs.Record.Chunking
import TlsClient.Proofs.Record.Fragments
import TlsClient.Proofs.Record.Waiting
import TlsClient.Proofs.Rsa.Correctness
import TlsClient.Proofs.Rsa.Verification
import TlsClient.Proofs.Session.Attestation
import TlsClient.Proofs.Session.Bounds
import TlsClient.Proofs.Session.Completeness
import TlsClient.Proofs.Session.Configuration
import TlsClient.Proofs.Session.Coupling
import TlsClient.Proofs.Session.Extent
import TlsClient.Proofs.Session.Freshness
import TlsClient.Proofs.Session.Lifecycle
import TlsClient.Proofs.Session.Renegotiation
import TlsClient.Proofs.Session.Renewal
import TlsClient.Proofs.Session.Soundness
import TlsClient.Proofs.Session.Stream
import TlsClient.Proofs.Session.Suspension
import TlsClient.Proofs.Session.Termination
import TlsClient.Proofs.Wire.RoundTrip
import TlsClient.Random.ChaCha
import TlsClient.Simulation.Wire
