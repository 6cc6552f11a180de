import CRuby.Sync.Mutex
import CRuby.Lib.Fifo

/-!
# `Queue` and `SizedQueue` (thread_sync.c)

One `Queue` or `SizedQueue` under the GVL, as `Mutex.lean` runs a mutex: a run is a sequence of
segments, each a step of one thread between two blocking points (`step`). A thread blocks only in
`native_sleep` under `sleep_forever(th, TRUE, FALSE)` (`rb_thread_sleep_deadly_allow_spurious_wakeup`),
in the wait loop of `queue_do_pop` or of `rb_szqueue_push`. `native_sleep` may return at any time
(`Action.wake`). `Thread#raise` and `Thread#kill` queue an exception, which its thread takes at
its next `RUBY_VM_CHECK_INTS_BLOCKING`; the exception leaves the wait through the `rb_ensure`
cleanup (`queue_sleep_done`, `szqueue_sleep_done`).

A state holds the fields of `struct rb_queue` and `struct rb_szqueue` (`RbQueue`; a `Queue` has
no `max`), and the fields of each thread that the code reads and writes (`Th`): its status, its
interrupt flag, its queued exceptions, and where it sleeps (`Pc`).

Not modelled: `Thread#handle_interrupt` masks, the deadlock detector (`vm->sleeper`,
`rb_check_deadlock`), trap handlers, `rb_exit` when the main thread is killed, the `TypeError` of
an uninitialized queue, `marshal_dump`, and the queries (`length`, `empty?`, `num_waiting`,
`closed?`, `max`), which change nothing. A killed thread runs its `rb_ensure` cleanups and ends in
the same segment (`rb_threadptr_to_kill` up to `THREAD_KILLED`).
-/

namespace CRuby.Sync.Queue

/-- An exception in `pending_interrupt_queue`. -/
inductive Interrupt where
  /-- from `Thread#raise` (`rb_threadptr_raise`) -/
  | raise
  /-- `eKillSignal`, from `Thread#kill` -/
  | kill
  deriving DecidableEq, Repr

/-- The loop a thread sleeps in: `queue_do_pop`'s, or `rb_szqueue_push`'s with the object it
pushes. The site decides the list the waiter is on, its `rb_ensure` cleanup, and the loop that
runs after the sleep. -/
inductive Site (V : Type) where
  | pop
  | push (obj : V)
  deriving DecidableEq, Repr

/-- Where a thread is. -/
inductive Pc (V : Type) where
  /-- running Ruby code, which may call any operation -/
  | running
  /-- in `native_sleep` under `sleep_forever` at `site`, with the `prev_status` it restores -/
  | wait (site : Site V) (prev : ThreadStatus)
  deriving DecidableEq, Repr

/-- The fields of `rb_thread_t` that the queue code and the thread operations use. -/
structure Th (V : Type) where
  status : ThreadStatus
  /-- the interrupt flag, which `rb_threadptr_interrupt` sets -/
  interrupted : Bool
  /-- `pending_interrupt_queue`, head first -/
  pending : List Interrupt
  pc : Pc V
  deriving DecidableEq, Repr

/-- `struct rb_queue`, and for a `SizedQueue` the rest of `struct rb_szqueue`. -/
structure RbQueue (T V : Type) where
  /-- `q->que`, head first -/
  que : List V
  /-- the threads of the `sync_waiter`s in `waitq`, head first -/
  waitq : List T
  numWaiting : ℕ
  /-- the `QUEUE_CLOSED` flag -/
  closed : Bool
  /-- `sq->max` of a `SizedQueue`; `none` for a `Queue` -/
  max : Option ℕ
  /-- the threads of the `sync_waiter`s in `sq->pushq`, head first -/
  pushq : List T
  numWaitingPush : ℕ
  deriving DecidableEq, Repr

/-- The queue and the threads. -/
structure State (T V : Type) where
  q : RbQueue T V
  threads : T → Th V

/-- What a segment returns to the thread that ran it. -/
inductive Outcome (V : Type) where
  /-- the call returned -/
  | returned
  /-- `pop`'s value: an element, or `nil` from `queue_closed_result` -/
  | value (v : Option V)
  /-- the thread went to sleep in `native_sleep` -/
  | blocked
  /-- `rb_raise(rb_eThreadError, msg)` -/
  | threadError (msg : String)
  /-- `raise_closed_queue_error` -/
  | closedQueueError (msg : String)
  /-- `rb_raise(rb_eArgError, msg)` -/
  | argumentError (msg : String)
  /-- an exception from `pending_interrupt_queue` was raised -/
  | raised
  /-- the thread was killed and ended -/
  | killed
  deriving DecidableEq, Repr

/-- The message of `raise_closed_queue_error`. -/
def closedMessage : String := "queue closed"

/-- The message of a `SizedQueue` size that is not positive. -/
def sizeMessage : String := "queue size must be positive"

variable {T V : Type}

/-- A thread that has not used the queue yet. -/
def Th.idle : Th V := { status := .runnable, interrupted := false, pending := [], pc := .running }

/-- The thread sleeps in `queue_do_pop`. -/
def Pc.isPopWait : Pc V → Bool
  | .wait .pop _ => true
  | _ => false

/-- The thread sleeps in `rb_szqueue_push`. -/
def Pc.isPushWait : Pc V → Bool
  | .wait (.push _) _ => true
  | _ => false

/-! ## Waiter lists -/

/-- `list_add_tail` and the count of the loop at `site`. -/
def Site.addWaiter (t : T) : Site V → RbQueue T V → RbQueue T V
  | .pop, q => { q with waitq := q.waitq ++ [t], numWaiting := q.numWaiting + 1 }
  | .push _, q => { q with pushq := q.pushq ++ [t], numWaitingPush := q.numWaitingPush + 1 }

section
variable [DecidableEq T]

/-- The `rb_ensure` cleanup of the loop at `site`: `queue_sleep_done` or `szqueue_sleep_done`.
`list_del` of a node that `wakeup_one` already took out changes no list. -/
def Site.sleepDone (t : T) : Site V → RbQueue T V → RbQueue T V
  | .pop, q => { q with waitq := q.waitq.erase t, numWaiting := q.numWaiting - 1 }
  | .push _, q => { q with pushq := q.pushq.erase t, numWaitingPush := q.numWaitingPush - 1 }

/-- The body of `wakeup_one` and `wakeup_all` for a waiter whose thread is not `THREAD_KILLED`:
`rb_threadptr_interrupt`, then `THREAD_RUNNABLE`. -/
def wake (ths : T → Th V) (u : T) : T → Th V :=
  Function.update ths u { ths u with interrupted := true, status := .runnable }

/-- `wakeup_one(head)`: waiters leave the list from its head until one whose thread is not
`THREAD_KILLED` is woken. The threads, the rest of the list, and whether a thread was woken. -/
def wakeupOne (ths : T → Th V) : List T → (T → Th V) × List T × Bool
  | [] => (ths, [], false)
  | u :: rest => if (ths u).status ≠ .killed then (wake ths u, rest, true) else wakeupOne ths rest

/-- `wakeup_all(head)`: every waiter leaves the list, and each live one is woken. -/
def wakeupAll (ths : T → Th V) : List T → T → Th V
  | [] => ths
  | u :: rest => wakeupAll (if (ths u).status ≠ .killed then wake ths u else ths) rest

namespace State

def setThread (s : State T V) (t : T) (x : Th V) : State T V :=
  { s with threads := Function.update s.threads t x }

/-- `wakeup_one(queue_waitq(q))`. -/
def wakeupWaitq (s : State T V) : State T V :=
  { q := { s.q with waitq := (wakeupOne s.threads s.q.waitq).2.1 },
    threads := (wakeupOne s.threads s.q.waitq).1 }

/-- `wakeup_one(szqueue_pushq(sq))`, and whether it woke a thread. -/
def wakeupPushq (s : State T V) : State T V × Bool :=
  ({ q := { s.q with pushq := (wakeupOne s.threads s.q.pushq).2.1 },
     threads := (wakeupOne s.threads s.q.pushq).1 }, (wakeupOne s.threads s.q.pushq).2.2)

end State

/-! ## Interrupts and sleeps -/

/-- `RUBY_VM_CHECK_INTS_BLOCKING`: the interrupt flag is cleared and the first queued exception,
if there is one, is taken from the queue. -/
def checkInts (s : State T V) (t : T) : State T V × Option Interrupt :=
  let th := s.threads t
  match th.pending with
  | [] => (s.setThread t { th with interrupted := false }, none)
  | i :: rest => (s.setThread t { th with interrupted := false, pending := rest }, some i)

/-- The exception `i`, taken by `rb_threadptr_execute_interrupts`, unwinds the thread through the
cleanup `done` (`queue_sleep_done`, `szqueue_sleep_done`, or nothing). A raise makes a sleeping
thread `THREAD_RUNNABLE` and returns to Ruby code; a kill (`rb_threadptr_to_kill`) clears the
queue, and the thread ends. -/
def raiseIn (s : State T V) (t : T) (done : RbQueue T V → RbQueue T V) :
    Interrupt → State T V × Outcome V
  | .raise =>
    let th := s.threads t
    let st := if th.status = .stopped ∨ th.status = .stoppedForever then .runnable else th.status
    ({ q := done s.q, threads := Function.update s.threads t { th with status := st, pc := .running } },
      .raised)
  | .kill =>
    ({ q := done s.q,
       threads := Function.update s.threads t
        { s.threads t with pending := [], status := .killed, pc := .running } }, .killed)

/-- The body of a wait loop that sleeps: the waiter joins the tail of the list of `site`, then
`rb_ensure(queue_sleep, …)` enters `sleep_forever`, which saves `prev_status`, makes the thread
`THREAD_STOPPED_FOREVER` and runs `RUBY_VM_CHECK_INTS_BLOCKING` before `native_sleep`. -/
def sleepEnter (s : State T V) (t : T) (site : Site V) : State T V × Outcome V :=
  let s := { s with q := site.addWaiter t s.q }
  let prev := (s.threads t).status
  let s := s.setThread t { s.threads t with status := .stoppedForever }
  match checkInts s t with
  | (s, some i) => raiseIn s t (site.sleepDone t) i
  | (s, none) => (s.setThread t { s.threads t with pc := .wait site prev }, .blocked)

/-- `RUBY_VM_CHECK_INTS` in the Ruby code of a running thread. -/
def runningCheckInts (s : State T V) (t : T) : State T V × Outcome V :=
  match checkInts s t with
  | (s, some i) => raiseIn s t id i
  | (s, none) => (s, .returned)

/-! ## Push and pop -/

/-- `queue_do_push(self, q, obj)`. -/
def queueDoPush (s : State T V) (obj : V) : State T V × Outcome V :=
  if s.q.closed then (s, .closedQueueError closedMessage)
  else ({ s with q := { s.q with que := s.q.que ++ [obj] } }.wakeupWaitq, .returned)

/-- `queue_do_pop(self, q, should_block)` from the loop test to its return or its sleep. -/
def queueDoPop (s : State T V) (t : T) (shouldBlock : Bool) : State T V × Outcome V :=
  match s.q.que with
  | x :: rest => ({ s with q := { s.q with que := rest } }, .value (some x))
  | [] =>
    if !shouldBlock then (s, .threadError "queue empty")
    else if s.q.closed then (s, .value none)
    else sleepEnter s t .pop

/-- The caller of `queue_do_pop` once it has returned a value: `rb_queue_pop` returns it;
`szqueue_do_pop` first wakes a pusher if the queue has room. -/
def popReturn (r : State T V × Outcome V) : State T V × Outcome V :=
  match r.1.q.max, r.2 with
  | some m, .value _ => if r.1.q.que.length < m then (r.1.wakeupPushq.1, r.2) else r
  | _, _ => r

/-- `rb_queue_pop` and `rb_szqueue_pop`, with `should_block`. -/
def rbQueuePop (s : State T V) (t : T) (shouldBlock : Bool) : State T V × Outcome V :=
  popReturn (queueDoPop s t shouldBlock)

/-- `rb_szqueue_push` from the loop test to its return or its sleep, with `sq->max = m`: a full
queue raises `ThreadError` for a non-blocking push and `ClosedQueueError` once closed, and
otherwise the thread waits in `pushq`; a queue with room raises `ClosedQueueError` once closed,
and otherwise `queue_do_push` runs. -/
def rbSzqueuePush (m : ℕ) (s : State T V) (t : T) (obj : V) (shouldBlock : Bool) :
    State T V × Outcome V :=
  if m ≤ s.q.que.length then
    if !shouldBlock then (s, .threadError "queue full")
    else if s.q.closed then (s, .closedQueueError closedMessage)
    else sleepEnter s t (.push obj)
  else if s.q.closed then (s, .closedQueueError closedMessage)
  else queueDoPush s obj

/-- `push(obj)` or `push(obj, non_block)`: `Queue#push` (`rb_queue_push`) takes one argument,
`SizedQueue#push` (`rb_szqueue_push`) one or two. -/
def push (s : State T V) (t : T) (obj : V) (nonBlock : Bool) : State T V × Outcome V :=
  match s.q.max with
  | none =>
    if nonBlock then (s, .argumentError "wrong number of arguments (given 2, expected 1)")
    else queueDoPush s obj
  | some m => rbSzqueuePush m s t obj !nonBlock

/-- `native_sleep` returns at `site`: `RUBY_VM_CHECK_INTS_BLOCKING` may raise through the
`rb_ensure` cleanup; otherwise `sleep_forever` restores `prev_status`, the cleanup runs, and the
wait loop tests again, now as a blocking call. -/
def wakeFrom (s : State T V) (t : T) (site : Site V) (prev : ThreadStatus) :
    State T V × Outcome V :=
  match checkInts s t with
  | (s, some i) => raiseIn s t (site.sleepDone t) i
  | (s, none) =>
    let s : State T V :=
      { q := site.sleepDone t s.q,
        threads := Function.update s.threads t { s.threads t with status := prev, pc := .running } }
    match site with
    | .pop => rbQueuePop s t true
    | .push obj => push s t obj false

/-! ## Close, clear, `max=` -/

/-- `rb_queue_close`: the first close sets `QUEUE_CLOSED` and wakes every waiting pop. -/
def rbQueueClose (s : State T V) : State T V :=
  if s.q.closed then s
  else { q := { s.q with closed := true, waitq := [] }, threads := wakeupAll s.threads s.q.waitq }

/-- `rb_szqueue_close`: the first close sets `QUEUE_CLOSED` and wakes every waiting pop, then
every waiting push. -/
def rbSzqueueClose (s : State T V) : State T V :=
  if s.q.closed then s
  else
    { q := { s.q with closed := true, waitq := [], pushq := [] },
      threads := wakeupAll (wakeupAll s.threads s.q.waitq) s.q.pushq }

/-- `rb_queue_clear`. -/
def rbQueueClear (s : State T V) : State T V := { s with q := { s.q with que := [] } }

/-- `rb_szqueue_clear`: the queue is emptied and every waiting push is woken. -/
def rbSzqueueClear (s : State T V) : State T V :=
  { q := { s.q with que := [], pushq := [] }, threads := wakeupAll s.threads s.q.pushq }

/-- `while (diff-- > 0 && wakeup_one(szqueue_pushq(sq)))`. -/
def wakeupPushqN : ℕ → State T V → State T V
  | 0, s => s
  | n + 1, s => if s.wakeupPushq.2 then wakeupPushqN n s.wakeupPushq.1 else s.wakeupPushq.1

/-- `rb_szqueue_max_set(self, vmax)` on a queue whose `max` is `m`: a larger `max` wakes up to
that many waiting pushes. -/
def rbSzqueueMaxSet (m : ℕ) (s : State T V) (vmax : ℤ) : State T V × Outcome V :=
  if vmax ≤ 0 then (s, .argumentError sizeMessage)
  else
    let diff := if (m : ℤ) < vmax then vmax.toNat - m else 0
    (wakeupPushqN diff { s with q := { s.q with max := some vmax.toNat } }, .returned)

/-! ## The thread operations -/

/-- `Thread#raise` by `t` on `u` (`rb_threadptr_raise`). A dead thread gets nothing; otherwise the
exception is queued and `u` is interrupted, and a thread that raises on itself raises at once. -/
def threadRaise (s : State T V) (t u : T) : State T V × Outcome V :=
  if (s.threads u).status = .killed then (s, .returned)
  else
    let s := s.setThread u
      { s.threads u with pending := (s.threads u).pending ++ [.raise], interrupted := true }
    if u = t then runningCheckInts s t else (s, .returned)

/-- `Thread#kill` by `t` on `u` (`rb_thread_kill`): a thread kills itself at once; another thread
gets `eKillSignal` queued and is interrupted. -/
def rbThreadKill (s : State T V) (t u : T) : State T V × Outcome V :=
  if (s.threads u).status = .killed then (s, .returned)
  else if u = t then raiseIn s t id .kill
  else
    (s.setThread u
      { s.threads u with pending := (s.threads u).pending ++ [.kill], interrupted := true },
      .returned)

/-- `Thread#wakeup` (`rb_thread_wakeup`): a live thread is interrupted, and a stopped one becomes
runnable. -/
def rbThreadWakeup (s : State T V) (u : T) : State T V × Outcome V :=
  if (s.threads u).status = .killed then (s, .threadError "killed thread")
  else
    let th := s.threads u
    let st := if th.status = .stopped ∨ th.status = .stoppedForever then .runnable else th.status
    (s.setThread u { th with interrupted := true, status := st }, .returned)

/-! ## Runs -/

/-- What a thread does in one segment. -/
inductive Action (T V : Type) where
  /-- `push(obj)` (`nonBlock = false`) or `push(obj, true)` -/
  | push (obj : V) (nonBlock : Bool)
  /-- `pop(non_block)` -/
  | pop (nonBlock : Bool)
  | close
  | clear
  /-- `SizedQueue#max=` -/
  | setMax (vmax : ℤ)
  /-- `native_sleep` returns -/
  | wake
  /-- the thread's Ruby code checks its interrupts -/
  | checkInts
  /-- `Thread#raise` on `u` -/
  | raise (u : T)
  /-- `Thread#kill` on `u` -/
  | kill (u : T)
  /-- `Thread#wakeup` on `u` -/
  | wakeup (u : T)
  deriving DecidableEq, Repr

/-- A call made by a running thread; `max=` is not a method of a `Queue`. -/
def callStep (s : State T V) (t : T) : Action T V → Option (State T V × Outcome V)
  | .push obj nonBlock => some (push s t obj nonBlock)
  | .pop nonBlock => some (rbQueuePop s t !nonBlock)
  | .close => some (if s.q.max.isSome then rbSzqueueClose s else rbQueueClose s, .returned)
  | .clear => some (if s.q.max.isSome then rbSzqueueClear s else rbQueueClear s, .returned)
  | .setMax vmax => s.q.max.map fun m => rbSzqueueMaxSet m s vmax
  | .wake => none
  | .checkInts => some (runningCheckInts s t)
  | .raise u => some (threadRaise s t u)
  | .kill u => some (rbThreadKill s t u)
  | .wakeup u => some (rbThreadWakeup s u)

/-- One segment of the thread `t`: a sleeping thread can only wake, and a running thread that has
not ended can call anything. -/
def step (s : State T V) (t : T) (a : Action T V) : Option (State T V × Outcome V) :=
  match (s.threads t).pc, a with
  | .wait site prev, .wake => some (wakeFrom s t site prev)
  | .running, a => if (s.threads t).status = .killed then none else callStep s t a
  | _, _ => none

end

/-- `Queue.new` (`rb_queue_initialize`). -/
def rbQueueInitialize : RbQueue T V :=
  { que := [], waitq := [], numWaiting := 0, closed := false, max := none, pushq := [],
    numWaitingPush := 0 }

/-- `SizedQueue.new(vmax)` (`rb_szqueue_initialize`). -/
def rbSzqueueInitialize (vmax : ℤ) : Except String (RbQueue T V) :=
  if vmax ≤ 0 then .error sizeMessage else .ok { rbQueueInitialize with max := some vmax.toNat }

/-- A new queue, and threads that have not used it. -/
def init (q : RbQueue T V) : State T V := { q, threads := fun _ => Th.idle }

variable [DecidableEq T]

/-- The states a program reaches: from a new `Queue` or `SizedQueue`, segments that run in any
interleaving. -/
inductive Reachable : State T V → Prop
  | queue : Reachable (init rbQueueInitialize)
  | sized {vmax : ℤ} {q : RbQueue T V} : rbSzqueueInitialize vmax = .ok q → Reachable (init q)
  | step {s s' : State T V} {t : T} {a : Action T V} {o : Outcome V} :
      Reachable s → step s t a = some (s', o) → Reachable s'

/-- A list of segments run in order, with the outcome of each. -/
def run (s : State T V) : List (T × Action T V) → Option (State T V × List (Outcome V))
  | [] => some (s, [])
  | (t, a) :: rest => do
    let (s, o) ← step s t a
    let (s, os) ← run s rest
    return (s, o :: os)

end CRuby.Sync.Queue
