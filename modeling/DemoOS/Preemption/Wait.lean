import DemoOS.Kernel.Preemption

/-!
# `DemoOS.Preemption.Wait`: `syscall_wait` and `exit_process` under preemption

The two system calls as a program: a tick may come between any two statements of
`syscall_wait`, and before and after the section of `exit_process` that preemption is disabled
in. The rest of the kernel runs in atomic steps.
-/

set_option autoImplicit false

namespace DemoOS

/-- A place in `syscall_wait(pid)` or `exit_process`. -/
inductive WaitPoint where
  /-- `destination_process = search_process(pid)`, and the test for `NULL`. -/
  | search (pid : Int)
  /-- The test `destination_process->state == PROCESS_ZOMBIE`. -/
  | test (pid : Int) (destination : PcbPtr)
  /-- `current_process->state = PROCESS_WAITING_ANOTHER_PROCESS`. -/
  | markWaiting (pid : Int)
  /-- `current_process->pid_to_wait = pid`. -/
  | record (pid : Int)
  /-- `schedule()`. -/
  | block (pid : Int)
  /-- `return 0`, behind the `schedule()`. -/
  | returnZero (pid : Int)
  /-- From `preempt_disable()` to `preempt_enable()` in `exit_process`. -/
  | exit
  /-- The `schedule()` behind it. -/
  | leave
deriving DecidableEq

inductive WaitCall where
  | wait (pid : Int)
  | exit

/-- The pid that a call of `syscall_wait` has begun to wait for. -/
def WaitPoint.target : WaitPoint → Option Int
  | .record pid | .block pid | .returnZero pid => some pid
  | _ => none

/-- The section of `exit_process` in which preemption is disabled. -/
def Kernel.exitSection (alg : SchedAlgorithm) (k : Kernel) : Kernel :=
  let k := k.preemptDisable
  let k := k.setState k.currentProcess .zombie
  let pid : Int := k.current.pid
  let k := k.wakeProcesses alg
    (fun b => b.state = .waitingAnotherProcess ∧ b.pidToWait = pid)
    (fun b => { b with pidToWait := -1 }) (List.range N_PROCESSES)
  k.preemptEnable

def waitStatement (alg : SchedAlgorithm) (k : Kernel) : WaitPoint → Kernel × Flow WaitPoint
  | .search pid =>
      match k.searchProcess pid with
      | none => ((k.returnToUser (-1)).1, .returns)
      | some destination => (k, .goto (.test pid destination))
  | .test pid destination =>
      if (k.pcb destination).state = .zombie then
        (((k.log (.waitReturned k.currentProcess pid)).returnToUser 0).1, .returns)
      else (k, .goto (.markWaiting pid))
  | .markWaiting pid => (k.setState k.currentProcess .waitingAnotherProcess, .goto (.record pid))
  | .record pid => (k.modifyCurrent fun b => { b with pidToWait := pid }, .goto (.block pid))
  | .block pid => (k.schedule.1, .schedules (some (.returnZero pid)))
  | .returnZero pid => ((k.waitReturn pid).1, .returns)
  | .exit => (k.exitSection alg, .goto .leave)
  | .leave => ((k.suspendAt .exited).schedule.1, .schedules none)

/-- The two system calls as a program. -/
def waitProgram : Program Kernel WaitPoint WaitCall where
  kernel := id
  setKernel _ k := k
  call
    | .wait pid => .search pid
    | .exit => .exit
  statement := waitStatement
  trap alg k t :=
    match t with
    | .wait _ | .exit => none
    | t => k.step alg t

/-- `ready_queue` and `ml_queues`. -/
def readyQueues : List QueueId := .readyQueue :: (List.range ML_MAX_LEVELS).map .mlQueue

/-- A process that was switched out waiting, is in no ready queue, and waits for a process that
is a zombie already. -/
def WaitsForZombie (s : Preemptible Kernel WaitPoint) (p : PcbPtr) : Prop :=
  s.state.IsProcess p ∧ p ≠ s.state.currentProcess
    ∧ (s.state.pcb p).state = .waitingAnotherProcess ∧ (∀ q ∈ readyQueues, p ∉ s.state.linkedIn q)
    ∧ ∃ pid t, (s.point p).bind WaitPoint.target = some pid
      ∧ s.state.searchProcess pid = some t ∧ (s.state.pcb t).state = .zombie

/-- The process has tested the state of the process `pid` and has not written `pid_to_wait`. -/
def BetweenTestAndRecord (pid : Int) : Option WaitPoint → Prop
  | some (.markWaiting pid') | some (.record pid') => pid' = pid
  | _ => False

instance (pid : Int) (x : Option WaitPoint) : Decidable (BetweenTestAndRecord pid x) := by
  unfold BetweenTestAndRecord
  split <;> infer_instance

/-- No signal is sent, and no process exits while another one is between its test of the
state and its write of `pid_to_wait`, on the way to wait for the one that exits. -/
def NobodyBegins (s : Preemptible Kernel WaitPoint) (e : PreemptionEvent WaitCall) : Prop :=
  match e with
  | .trap (.sendSignal _ _) => False
  | .statement =>
      s.point s.state.currentProcess = some .exit →
        ∀ i < N_PROCESSES, ∀ q ∈ s.state.processes i,
          ¬ BetweenTestAndRecord s.state.current.pid (s.point q)
  | _ => True

instance (s : Preemptible Kernel WaitPoint) (e : PreemptionEvent WaitCall) :
    Decidable (NobodyBegins s e) := by
  unfold NobodyBegins
  split
  · exact instDecidableFalse
  · infer_instance
  · exact instDecidableTrue

end DemoOS
