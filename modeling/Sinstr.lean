import Sinstr.LayoutAgreement
import Sinstr.Sharing
import Sinstr.Compare
import Sinstr.Format
import Sinstr.Failure
import Sinstr.Unchecked
import Sinstr.Appending
import Sinstr.Classes
import Sinstr.Guarantees
import Sinstr.Rebuild
import Sinstr.Interleavings
import Sinstr.Hashing
import Sinstr.Wrapper
import Sinstr.DebugRuns
import Sinstr.Fuzz
import Sinstr.Books
