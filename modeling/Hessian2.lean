import Hessian2.BinaryOutput
import Hessian2.StringOutput
import Hessian2.Progress
import Hessian2.Refusal
import Hessian2.KeyHash
import Hessian2.Failure
import Hessian2.Reporting
import Hessian2.Numbering
import Hessian2.Copies
import Hessian2.JavaString
import Hessian2.RoundTrip
import Hessian2.Repetition
import Hessian2.Mirroring
import Hessian2.Width
import Hessian2.Resending
import Hessian2.Framing
import Hessian2.Equality
import Hessian2.Rehash
import Hessian2.Inspection
import Hessian2.Peeking
import Hessian2.Lookup
import Hessian2.Nesting
import Hessian2.Footprint
import Hessian2.Observation
import Hessian2.Halting
import Hessian2.Tape
import Hessian2.Builds
import Hessian2.Interoperation
