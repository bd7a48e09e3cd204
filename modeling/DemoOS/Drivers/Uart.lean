import DemoOS.Libs.Scheduler

/-!
# `DemoOS.Drivers.Uart`: the receive side of `drivers/uart/uart.c`

The interrupt handler is a function of what the hardware shows it: the masked
interrupt status, the words that the receive loop reads from the data register
until the FIFO is empty, and the words that the receive-timeout loop reads after
that. Echoing to the terminal is not modelled.
-/

set_option autoImplicit false

namespace DemoOS

namespace Kernel

variable (alg : SchedAlgorithm)

/-- One word of the receive loop of `handle_uart_irq`: a byte without error flags
is stored if the ring has room, and every process waiting for input is woken. -/
def receiveWord (k : Kernel) (dr : BitVec 32) : Kernel :=
  let err := (dr >>> 8) &&& 0xF#32
  if err ≠ 0 then k
  else
    let c := dr.setWidth 8
    let nextHead := (k.uartHead + 1) % UART_BUFFER_SIZE
    let k :=
      if nextHead ≠ k.uartTail then
        { k with
          uartBuffer := Function.update k.uartBuffer k.uartHead c
          uartHead := nextHead }
      else k
    k.wakeProcesses alg (fun b => b.state = .waitingUartInput) id (List.range k.nProcesses)

/-- One word of the receive-timeout loop, which echoes it and does nothing else. -/
def timeoutWord (k : Kernel) (_dr : BitVec 32) : Kernel := k

/-- `handle_uart_irq`. -/
def handleUartIrq (k : Kernel) (mis : BitVec 32) (fifo timeoutFifo : List (BitVec 32)) :
    Kernel :=
  let k := if mis &&& (1#32 <<< 4) ≠ 0 then fifo.foldl (receiveWord alg) k else k
  if mis &&& (1#32 <<< 6) ≠ 0 then timeoutFifo.foldl timeoutWord k else k

end Kernel

end DemoOS
