import Pricetime.Impl.Wire

/-!
# Streams of requests

A stream is cut into blocks of the size of a message, the bytes behind the
last of them apart.
-/

namespace Pricetime

namespace Spec

open Wire (kMessageSize kMagic0 kMagic1)

def blocks (stream : List UInt8) : List (List UInt8) :=
  (List.range (stream.length / kMessageSize)).map fun i => (stream.drop (kMessageSize * i)).take kMessageSize

/-- A block that ends with the magic tag. -/
def tagged (block : List UInt8) : Bool := block.drop (kMessageSize - 2) = [kMagic0, kMagic1]

end Spec

end Pricetime
