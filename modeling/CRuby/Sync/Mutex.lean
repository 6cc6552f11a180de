import CRuby.Lib.Chain

/-!
# `Mutex` (thread_sync.c)

`Mutex` under the GVL. C code between two blocking points runs with the GVL held, so a run of the
program is a sequence of *segments*, each a step of one thread (`step`). A thread blocks only in
`native_sleep`, in the wait loop of `rb_mutex_lock` or in `sleep_forever` under
`rb_mutex_sleep`. `native_sleep` may return at any time (`Action.wake`): after
`rb_threadptr_interrupt`, after a timeout, or spuriously. `Thread#raise` queues an exception,
which its thread raises at its next `RUBY_VM_CHECK_INTS_BLOCKING`.

A state (`VM`) holds the fields of `rb_mutex_t` and `rb_thread_t` that the code reads and writes:

* a mutex's owner `th`, its `next_mutex` link, and its wait queue, as the threads of the
  `sync_waiter`s on it (each waiter sits on its thread's stack);
* a thread's status, the head of its `keeping_mutexes` list, its interrupt flag, its queued
  exceptions, where it is (`Pc`), and the `rb_mutex_synchronize` blocks it is in.

The mutexes a thread keeps form a list threaded through `next_mutex` (`Chain`).
`rb_mutex_unlock_th` unlinks a mutex with the walk `while (*th_mutex != mutex)`. The walk runs
with a fuel, and meeting NULL or running out of fuel is `Stuck.walk`.

Not modelled: trap handlers (so the trap-context check in `rb_mutex_lock` never fires),
`Thread#handle_interrupt` masks, the deadlock detector (`patrol_thread`, `vm->sleeper`,
`rb_check_deadlock`, whose only effect on these threads is an exception raised in the main
thread, which `Action.raise` covers), timeouts of `Mutex#sleep` (a timed sleep is a sleep that
may end at any time, as here), and the return value of `Mutex#sleep`.
-/

namespace CRuby.Sync

/-- `enum rb_thread_status`. -/
inductive ThreadStatus where
  | runnable
  | stopped
  | stoppedForever
  | killed
  deriving DecidableEq, Repr

/-- Who called `rb_mutex_lock`, which decides what its return leads to. -/
inductive LockCaller where
  /-- `Mutex#lock` -/
  | lock
  /-- `rb_mutex_synchronize`: on return, the block runs inside
  `rb_ensure(func, arg, rb_mutex_unlock, mutex)` -/
  | synchronize
  /-- the `rb_ensure` of `rb_mutex_sleep`, taking the mutex back after the sleep -/
  | sleep
  deriving DecidableEq, Repr

/-- Where a thread is. -/
inductive Pc (M : Type) where
  /-- running Ruby code, which may call any operation -/
  | running
  /-- in `native_sleep` in the wait loop of `rb_mutex_lock(m)`, with the loop's `prev_status` -/
  | lockWait (m : M) (prev : ThreadStatus) (caller : LockCaller)
  /-- in `native_sleep` in `sleep_forever` under `rb_mutex_sleep(m)`, with its `prev_status` -/
  | sleepWait (m : M) (prev : ThreadStatus)
  deriving DecidableEq, Repr

/-- `rb_mutex_t`. -/
structure RbMutex (T M : Type) where
  /-- the owner -/
  th : Option T
  /-- the next mutex in the owner's `keeping_mutexes` -/
  nextMutex : Option M
  /-- the threads of the `sync_waiter`s queued on the mutex, head first -/
  waitq : List T
  deriving DecidableEq, Repr

/-- The fields of `rb_thread_t`, and of its execution context, that thread_sync.c uses. -/
structure RbThread (M : Type) where
  status : ThreadStatus
  /-- the head of the list of the mutexes the thread holds -/
  keepingMutexes : Option M
  /-- the interrupt flag of `th->ec`, which `rb_threadptr_interrupt` sets -/
  interrupted : Bool
  /-- the number of exceptions in `pending_interrupt_queue` -/
  pendingInterrupts : ℕ
  pc : Pc M
  /-- the mutexes of the `rb_mutex_synchronize` blocks the thread is in, innermost first -/
  ensures : List M
  deriving DecidableEq, Repr

/-- The mutexes and the threads. -/
structure VM (T M : Type) where
  mutexes : M → RbMutex T M
  threads : T → RbThread M

/-- What a segment returns to the thread that ran it. -/
inductive Outcome where
  /-- the call returned -/
  | returned
  /-- `try_lock`'s answer -/
  | value (b : Bool)
  /-- the thread went to sleep in `native_sleep` -/
  | blocked
  /-- `rb_raise(rb_eThreadError, msg)` -/
  | threadError (msg : String)
  /-- an exception from the pending interrupt queue was raised -/
  | raised
  deriving DecidableEq, Repr

/-- Why a segment cannot run. -/
inductive Stuck where
  /-- the thread is not where the action can happen -/
  | disabled
  /-- `rb_bug(msg)` -/
  | bug (msg : String)
  /-- the `keeping_mutexes` walk met NULL or did not end within its fuel -/
  | walk
  deriving DecidableEq, Repr

variable {T M : Type}

namespace VM

/-- `mutex->th`. -/
def owner (s : VM T M) (m : M) : Option T := (s.mutexes m).th

/-- `mutex->next_mutex`. -/
def nextMutexOf (s : VM T M) (m : M) : Option M := (s.mutexes m).nextMutex

/-- `th->keeping_mutexes`. -/
def keeping (s : VM T M) (t : T) : Option M := (s.threads t).keepingMutexes

def setMutex [DecidableEq M] (s : VM T M) (m : M) (x : RbMutex T M) : VM T M :=
  { s with mutexes := Function.update s.mutexes m x }

def setThread [DecidableEq T] (s : VM T M) (t : T) (x : RbThread M) : VM T M :=
  { s with threads := Function.update s.threads t x }

variable (s : VM T M) (m n : M) (t u : T) (x : RbMutex T M) (y : RbThread M)

section
variable [DecidableEq M]

@[simp] theorem setMutex_mutexes_self : (s.setMutex m x).mutexes m = x := by simp [setMutex]

@[simp] theorem setMutex_mutexes_of_ne {m n : M} (h : n ≠ m) :
    (s.setMutex m x).mutexes n = s.mutexes n := by simp [setMutex, h]

@[simp] theorem setMutex_threads : (s.setMutex m x).threads = s.threads := rfl

theorem setMutex_mutexes : (s.setMutex m x).mutexes n = if n = m then x else s.mutexes n := by
  by_cases h : n = m
  · subst h; simp
  · simp [h]

end

section
variable [DecidableEq T]

@[simp] theorem setThread_threads_self : (s.setThread t y).threads t = y := by simp [setThread]

@[simp] theorem setThread_threads_of_ne {t u : T} (h : u ≠ t) :
    (s.setThread t y).threads u = s.threads u := by simp [setThread, h]

@[simp] theorem setThread_mutexes : (s.setThread t y).mutexes = s.mutexes := rfl

theorem setThread_threads : (s.setThread t y).threads u = if u = t then y else s.threads u := by
  by_cases h : u = t
  · subst h; simp
  · simp [h]

end

end VM

variable [DecidableEq T] [DecidableEq M]

/-! ## `rb_mutex_trylock`, `mutex_locked` -/

/-- `rb_threadptr_interrupt(th)`: set the interrupt flag, which also ends its `native_sleep`. -/
def interrupt (s : VM T M) (u : T) : VM T M :=
  s.setThread u { s.threads u with interrupted := true }

/-- `mutex_locked(th, self)`: push the mutex on `keeping_mutexes`. Its `next_mutex` is written
only when the list is not empty. -/
def mutexLocked (s : VM T M) (t : T) (m : M) : VM T M :=
  let s' := match (s.threads t).keepingMutexes with
    | some k => s.setMutex m { s.mutexes m with nextMutex := some k }
    | none => s
  s'.setThread t { s'.threads t with keepingMutexes := some m }

/-- `rb_mutex_trylock(self)`, by the thread `t`. -/
def rbMutexTrylock (s : VM T M) (t : T) (m : M) : VM T M × Bool :=
  if (s.mutexes m).th = none then
    (mutexLocked (s.setMutex m { s.mutexes m with th := some t }) t m, true)
  else (s, false)

/-! ## `rb_mutex_lock` -/

/-- `rb_mutex_lock` returns to its caller: `rb_mutex_synchronize` enters its `rb_ensure`. -/
def lockReturn (s : VM T M) (t : T) (m : M) : LockCaller → VM T M
  | .synchronize => s.setThread t { s.threads t with ensures := m :: (s.threads t).ensures }
  | _ => s

/-- The body of `while (mutex->th != th)` up to `native_sleep`: `prev_status` is saved, the
thread is `THREAD_STOPPED_FOREVER` and its waiter joins the tail of the wait queue. -/
def lockSleep (s : VM T M) (t : T) (m : M) (caller : LockCaller) : VM T M :=
  let th := s.threads t
  let s := s.setThread t { th with status := .stoppedForever, pc := .lockWait m th.status caller }
  s.setMutex m { s.mutexes m with waitq := (s.mutexes m).waitq ++ [t] }

/-- `rb_mutex_lock(self)` from its start to its return or its first `native_sleep`. -/
def rbMutexLock (s : VM T M) (t : T) (m : M) (caller : LockCaller) : VM T M × Outcome :=
  match rbMutexTrylock s t m with
  | (s, true) => (lockReturn s t m caller, .returned)
  | (s, false) =>
    if (s.mutexes m).th = some t then (s, .threadError "deadlock; recursive locking")
    else (lockSleep s t m caller, .blocked)

/-- `RUBY_VM_CHECK_INTS_BLOCKING(th->ec)`: the interrupt flag is cleared, and the first queued
exception, if there is one, is raised (`true`). -/
def checkIntsBlocking (s : VM T M) (t : T) : VM T M × Bool :=
  let th := s.threads t
  if th.pendingInterrupts = 0 then (s.setThread t { th with interrupted := false }, false)
  else
    (s.setThread t { th with interrupted := false, pendingInterrupts := th.pendingInterrupts - 1 },
      true)

/-- The loop body of `rb_mutex_lock(self)` from the return of `native_sleep` to
`RUBY_VM_CHECK_INTS_BLOCKING`: the waiter leaves the queue, the thread takes the mutex if it is
free, and `mutex_locked` runs if the thread holds it. -/
def lockTake (s : VM T M) (t : T) (m : M) (prev : ThreadStatus) : VM T M :=
  let mx := s.mutexes m
  let s := s.setMutex m { mx with waitq := mx.waitq.erase t, th := if mx.th = none then some t else mx.th }
  let th := s.threads t
  let s := s.setThread t
    { th with pc := .running, status := if th.status = .stoppedForever then prev else th.status }
  if (s.mutexes m).th = some t then mutexLocked s t m else s

/-- `rb_mutex_lock(self)` from the return of `native_sleep` to its return or the next
`native_sleep`. After `lockTake`, `RUBY_VM_CHECK_INTS_BLOCKING` may raise a queued exception,
and only after that comes the loop test `mutex->th != th`. -/
def lockWake (s : VM T M) (t : T) (m : M) (prev : ThreadStatus) (caller : LockCaller) :
    VM T M × Outcome :=
  match checkIntsBlocking (lockTake s t m prev) t with
  | (s, true) => (s, .raised)
  | (s, false) =>
    if (s.mutexes m).th = some t then (lockReturn s t m caller, .returned)
    else (lockSleep s t m caller, .blocked)

/-! ## `rb_mutex_unlock_th` -/

/-- The `list_for_each_safe` loop of `rb_mutex_unlock_th`: the first waiter leaves the queue and
is interrupted if it is `THREAD_RUNNABLE` or `THREAD_STOPPED_FOREVER`; any other status is a
`rb_bug`. -/
def wakeupWaiter (s : VM T M) (m : M) : Except Stuck (VM T M) :=
  match (s.mutexes m).waitq with
  | [] => .ok s
  | u :: rest =>
    let s := s.setMutex m { s.mutexes m with waitq := rest }
    match (s.threads u).status with
    | .runnable | .stoppedForever => .ok (interrupt s u)
    | .stopped => .error (.bug "unexpected THREAD_STOPPED")
    | .killed => .error (.bug "unexpected THREAD_KILLED")

/-- `*th_mutex = v`, where `th_mutex` points to `t`'s `keeping_mutexes` (`none`) or to a mutex's
`next_mutex`. -/
def VM.writeLink (s : VM T M) (t : T) (v : Option M) : Option M → VM T M
  | none => s.setThread t { s.threads t with keepingMutexes := v }
  | some k => s.setMutex k { s.mutexes k with nextMutex := v }

/-- `th_mutex = &th->keeping_mutexes;
while (*th_mutex != mutex) th_mutex = &(*th_mutex)->next_mutex;
*th_mutex = mutex->next_mutex;` -/
def unlinkKeeping (fuel : ℕ) (s : VM T M) (t : T) (m : M) : Except Stuck (VM T M) :=
  match Chain.findLink (s.keeping t) s.nextMutexOf m fuel none with
  | none => .error .walk
  | some q => .ok (s.writeLink t (s.nextMutexOf m) q)

/-- `rb_mutex_unlock_th(mutex, th)`: the error message, or the state after the release. -/
def rbMutexUnlockTh (fuel : ℕ) (s : VM T M) (m : M) (t : T) :
    Except Stuck (VM T M × Option String) :=
  match (s.mutexes m).th with
  | none => .ok (s, some "Attempt to unlock a mutex which is not locked")
  | some o =>
    if o ≠ t then .ok (s, some "Attempt to unlock a mutex which is locked by another thread")
    else do
      let s ← wakeupWaiter (s.setMutex m { s.mutexes m with th := none }) m
      let s ← unlinkKeeping fuel s t m
      return (s.setMutex m { s.mutexes m with nextMutex := none }, none)

/-- `rb_mutex_unlock(self)`: an error of `rb_mutex_unlock_th` is raised as a `ThreadError`. -/
def rbMutexUnlock (fuel : ℕ) (s : VM T M) (t : T) (m : M) : Except Stuck (VM T M × Outcome) := do
  match ← rbMutexUnlockTh fuel s m t with
  | (s, none) => return (s, .returned)
  | (s, some err) => return (s, .threadError err)

/-! ## Synchronize, sleep, and the other threads' operations -/

/-- The block of the innermost `rb_mutex_synchronize` ends, by a return or by an exception, and
its `rb_ensure` calls `rb_mutex_unlock(mutex)`. -/
def leaveSynchronize (fuel : ℕ) (s : VM T M) (t : T) : Except Stuck (VM T M × Outcome) :=
  match (s.threads t).ensures with
  | [] => .error .disabled
  | m :: rest => rbMutexUnlock fuel (s.setThread t { s.threads t with ensures := rest }) t m

/-- `rb_mutex_sleep(self, Qnil)` up to `native_sleep`: `rb_mutex_unlock`, then `sleep_forever`
sets `THREAD_STOPPED_FOREVER` and checks interrupts before it sleeps. An exception raised there
goes through the `rb_ensure`, which calls `rb_mutex_lock`. -/
def rbMutexSleep (fuel : ℕ) (s : VM T M) (t : T) (m : M) : Except Stuck (VM T M × Outcome) := do
  match ← rbMutexUnlockTh fuel s m t with
  | (s, some err) => return (s, .threadError err)
  | (s, none) =>
    let prev := (s.threads t).status
    let s := s.setThread t { s.threads t with status := .stoppedForever }
    match checkIntsBlocking s t with
    | (s, true) => return rbMutexLock s t m .sleep
    | (s, false) => return (s.setThread t { s.threads t with pc := .sleepWait m prev }, .blocked)

/-- `sleep_forever` after `native_sleep` returns (without `spurious_check` it does not loop),
then the `rb_ensure` of `rb_mutex_sleep`, which calls `rb_mutex_lock`. A queued exception is
raised before `th->status = prev_status`, so that assignment is skipped. -/
def sleepWake (s : VM T M) (t : T) (m : M) (prev : ThreadStatus) : VM T M × Outcome :=
  let s := s.setThread t { s.threads t with pc := .running }
  match checkIntsBlocking s t with
  | (s, true) => rbMutexLock s t m .sleep
  | (s, false) => rbMutexLock (s.setThread t { s.threads t with status := prev }) t m .sleep

/-- `Thread#raise` by `t` on `u` (`rb_threadptr_raise`). A dead thread gets nothing. Otherwise
the exception is queued and `u` is interrupted. A thread that raises on itself raises at once
(`RUBY_VM_CHECK_INTS`). -/
def threadRaise (s : VM T M) (t u : T) : VM T M × Outcome :=
  if (s.threads u).status = .killed then (s, .returned)
  else
    let s := interrupt
      (s.setThread u { s.threads u with pendingInterrupts := (s.threads u).pendingInterrupts + 1 }) u
    if u = t then ((checkIntsBlocking s t).1, .raised) else (s, .returned)

/-- `rb_thread_wakeup_alive(u)` (`Thread#wakeup`, `Thread#run`): a live thread is interrupted,
and a stopped one becomes runnable. -/
def threadWakeupAlive (s : VM T M) (u : T) : VM T M × Outcome :=
  if (s.threads u).status = .killed then (s, .returned)
  else
    let s := interrupt s u
    let th := s.threads u
    if th.status = .stopped ∨ th.status = .stoppedForever then
      (s.setThread u { th with status := .runnable }, .returned)
    else (s, .returned)

/-- `rb_threadptr_unlock_all_locking_mutexes(th)`: the mutexes of `keeping_mutexes` in turn, each
`next_mutex` read before its mutex is unlocked. An error of `rb_mutex_unlock_th` is a `rb_bug`.
The loop takes at most `n` turns. -/
def unlockAllLockingMutexes (fuel : ℕ) (t : T) : ℕ → VM T M → Option M → Except Stuck (VM T M)
  | _, s, none => .ok s
  | 0, _, some _ => .error .walk
  | n + 1, s, some m => do
    let mutexes := (s.mutexes m).nextMutex
    match ← rbMutexUnlockTh fuel s m t with
    | (s, none) => unlockAllLockingMutexes fuel t n s mutexes
    | (_, some err) => .error (.bug ("invalid keeping_mutexes: " ++ err))

/-- The end of `thread_start_func_2`: the thread is `THREAD_KILLED` and its mutexes are
released. -/
def threadEnd (fuel : ℕ) (s : VM T M) (t : T) : Except Stuck (VM T M × Outcome) := do
  let s := s.setThread t { s.threads t with status := .killed }
  let s ← unlockAllLockingMutexes fuel t fuel s (s.threads t).keepingMutexes
  return (s, .returned)

/-! ## Runs -/

/-- What a thread does in one segment. -/
inductive Action (T M : Type) where
  /-- `Mutex#lock` -/
  | lock (m : M)
  /-- `Mutex#try_lock` -/
  | tryLock (m : M)
  /-- `Mutex#unlock` -/
  | unlock (m : M)
  /-- `Mutex#synchronize` -/
  | synchronize (m : M)
  /-- the block of the innermost `Mutex#synchronize` ends -/
  | leaveSynchronize
  /-- `Mutex#sleep` -/
  | sleep (m : M)
  /-- `native_sleep` returns -/
  | wake
  /-- `Thread#raise` on `u` -/
  | raise (u : T)
  /-- `Thread#wakeup` or `Thread#run` on `u` -/
  | wakeup (u : T)
  /-- the thread ends -/
  | exit
  deriving DecidableEq, Repr

/-- A call made by a running thread. -/
def callStep (fuel : ℕ) (s : VM T M) (t : T) : Action T M → Except Stuck (VM T M × Outcome)
  | .lock m => .ok (rbMutexLock s t m .lock)
  | .tryLock m => .ok ((rbMutexTrylock s t m).1, .value (rbMutexTrylock s t m).2)
  | .unlock m => rbMutexUnlock fuel s t m
  | .synchronize m => .ok (rbMutexLock s t m .synchronize)
  | .leaveSynchronize => leaveSynchronize fuel s t
  | .sleep m => rbMutexSleep fuel s t m
  | .raise u => .ok (threadRaise s t u)
  | .wakeup u => .ok (threadWakeupAlive s u)
  | .exit => if (s.threads t).ensures = [] then threadEnd fuel s t else .error .disabled
  | .wake => .error .disabled

/-- One segment of the thread `t`: a sleeping thread can only wake, and a running thread that
has not ended can call anything. The `keeping_mutexes` walks run with `fuel`. -/
def step (fuel : ℕ) (s : VM T M) (t : T) (a : Action T M) : Except Stuck (VM T M × Outcome) :=
  match (s.threads t).pc, a with
  | .lockWait m prev caller, .wake => .ok (lockWake s t m prev caller)
  | .sleepWait m prev, .wake => .ok (sleepWake s t m prev)
  | .running, a => if (s.threads t).status = .killed then .error .disabled else callStep fuel s t a
  | _, _ => .error .disabled

/-- No mutex is held and every thread runs. -/
def init : VM T M where
  mutexes _ := { th := none, nextMutex := none, waitq := [] }
  threads _ :=
    { status := .runnable
      keepingMutexes := none
      interrupted := false
      pendingInterrupts := 0
      pc := .running
      ensures := [] }

/-- The states a program reaches: segments that run, from `init`, in any interleaving. -/
inductive Reachable : VM T M → Prop
  | init : Reachable init
  | step {s s' : VM T M} {t : T} {a : Action T M} {fuel : ℕ} {o : Outcome} :
      Reachable s → step fuel s t a = .ok (s', o) → Reachable s'

/-- A list of segments run in order, with the outcome of each. -/
def run (fuel : ℕ) (s : VM T M) : List (T × Action T M) → Except Stuck (VM T M × List Outcome)
  | [] => .ok (s, [])
  | (t, a) :: rest => do
    let (s, o) ← step fuel s t a
    let (s, os) ← run fuel s rest
    return (s, o :: os)

end CRuby.Sync
