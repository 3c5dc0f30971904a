import Magnesium.Timer.Refinement
import Magnesium.Timer.Cascade
import Magnesium.Port.SoftClz
import Magnesium.Kernel.FifoHeap
import Magnesium.Kernel.Progress
import Magnesium.Laws.HandOff
import Magnesium.Laws.Delivery
import Magnesium.Laws.Exclusive
import Magnesium.Laws.RunOrder
import Magnesium.Laws.Activation
import Magnesium.Laws.Conservation
import Magnesium.Laws.Requests
import Magnesium.Laws.Locking
import Magnesium.Kernel.Pointers
import Magnesium.Kernel.Protothread
import Magnesium.Laws.Wakeup
import Magnesium.Port.TickSource
import Magnesium.Port.TrapEntry
