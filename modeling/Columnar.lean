import Columnar.Proofs.Forwarding
import Columnar.Proofs.Instants
import Columnar.Proofs.Lossless
import Columnar.Proofs.NullRows
import Columnar.Proofs.Overflow
import Columnar.Proofs.Partition
import Columnar.Proofs.ReadPaths
import Columnar.Proofs.Relaying
import Columnar.Proofs.Representation
import Columnar.Proofs.RoundTrip
import Columnar.Proofs.Settings
import Columnar.Proofs.Stored
import Columnar.Proofs.Termination
import Columnar.Proofs.Truncation
import Columnar.Proofs.Varint.Minimal
