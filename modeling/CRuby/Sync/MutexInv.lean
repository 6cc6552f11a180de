import CRuby.Sync.Mutex
import CRuby.Lib.Except
import Mathlib.Data.Fintype.Card

/-!
# `Mutex`: the invariant of every run

`Inv` holds of every reachable state (`reachable_inv`):

* `OwnView.Inv`: the `keeping_mutexes` list of every thread, followed through `next_mutex`, ends
  and holds exactly the mutexes the thread owns, and a free mutex has no `next_mutex`;
* `WaitView.Inv`: every thread in a wait queue sleeps in `rb_mutex_lock` on that mutex, as
  `THREAD_STOPPED_FOREVER` or (after `Thread#run`) `THREAD_RUNNABLE`, and no thread is queued
  twice;
* a thread asleep in `rb_mutex_lock(m)` does not own `m`.

Each invariant reads a *view* of the state, and each function of the model is described by what
it does to the views. The invariant is preserved one function at a time (`Inv.rbMutexLock`,
`Inv.lockWake`, `Inv.rbMutexUnlockTh`, ...), so `Inv.step` is a case per action.
-/

namespace CRuby.Sync

variable {T M : Type}

namespace VM

/-- `mutex->waitq`. -/
def waitq (s : VM T M) (m : M) : List T := (s.mutexes m).waitq

/-- Where the thread is. -/
def pc (s : VM T M) (t : T) : Pc M := (s.threads t).pc

/-- `th->status`. -/
def status (s : VM T M) (t : T) : ThreadStatus := (s.threads t).status

variable (s : VM T M) (m : M) (t : T) (x : RbMutex T M) (y : RbThread M)

@[simp] theorem mutexes_th : (s.mutexes m).th = s.owner m := rfl
@[simp] theorem mutexes_nextMutex : (s.mutexes m).nextMutex = s.nextMutexOf m := rfl
@[simp] theorem mutexes_waitq : (s.mutexes m).waitq = s.waitq m := rfl
@[simp] theorem threads_keepingMutexes : (s.threads t).keepingMutexes = s.keeping t := rfl
@[simp] theorem threads_pc : (s.threads t).pc = s.pc t := rfl
@[simp] theorem threads_status : (s.threads t).status = s.status t := rfl

section
variable [DecidableEq M]

@[simp] theorem owner_setMutex : (s.setMutex m x).owner = Function.update s.owner m x.th := by
  funext n
  by_cases h : n = m
  · subst h; simp only [owner, setMutex_mutexes_self, Function.update_self]
  · simp only [owner, setMutex_mutexes_of_ne _ _ h, Function.update_of_ne h]

@[simp] theorem nextMutexOf_setMutex :
    (s.setMutex m x).nextMutexOf = Function.update s.nextMutexOf m x.nextMutex := by
  funext n
  by_cases h : n = m
  · subst h; simp only [nextMutexOf, setMutex_mutexes_self, Function.update_self]
  · simp only [nextMutexOf, setMutex_mutexes_of_ne _ _ h, Function.update_of_ne h]

@[simp] theorem waitq_setMutex : (s.setMutex m x).waitq = Function.update s.waitq m x.waitq := by
  funext n
  by_cases h : n = m
  · subst h; simp only [waitq, setMutex_mutexes_self, Function.update_self]
  · simp only [waitq, setMutex_mutexes_of_ne _ _ h, Function.update_of_ne h]

@[simp] theorem keeping_setMutex : (s.setMutex m x).keeping = s.keeping := rfl
@[simp] theorem pc_setMutex : (s.setMutex m x).pc = s.pc := rfl
@[simp] theorem status_setMutex : (s.setMutex m x).status = s.status := rfl

end

section
variable [DecidableEq T]

@[simp] theorem owner_setThread : (s.setThread t y).owner = s.owner := rfl
@[simp] theorem nextMutexOf_setThread : (s.setThread t y).nextMutexOf = s.nextMutexOf := rfl
@[simp] theorem waitq_setThread : (s.setThread t y).waitq = s.waitq := rfl

@[simp] theorem keeping_setThread :
    (s.setThread t y).keeping = Function.update s.keeping t y.keepingMutexes := by
  funext u
  by_cases h : u = t
  · subst h; simp only [keeping, setThread_threads_self, Function.update_self]
  · simp only [keeping, setThread_threads_of_ne _ _ h, Function.update_of_ne h]

@[simp] theorem pc_setThread : (s.setThread t y).pc = Function.update s.pc t y.pc := by
  funext u
  by_cases h : u = t
  · subst h; simp only [pc, setThread_threads_self, Function.update_self]
  · simp only [pc, setThread_threads_of_ne _ _ h, Function.update_of_ne h]

@[simp] theorem status_setThread :
    (s.setThread t y).status = Function.update s.status t y.status := by
  funext u
  by_cases h : u = t
  · subst h; simp only [status, setThread_threads_self, Function.update_self]
  · simp only [status, setThread_threads_of_ne _ _ h, Function.update_of_ne h]

end

end VM

/-! ## The ownership invariant -/

/-- What the ownership invariant reads: owners, `next_mutex` links, `keeping_mutexes` heads. -/
structure OwnView (T M : Type) where
  owner : M → Option T
  next : M → Option M
  keeping : T → Option M

/-- The ownership view of a state. -/
def VM.ownView (s : VM T M) : OwnView T M := ⟨s.owner, s.nextMutexOf, s.keeping⟩

namespace OwnView

/-- `l` is `t`'s `keeping_mutexes` list, and it holds exactly the mutexes `t` owns. -/
def Keeps (v : OwnView T M) (t : T) (l : List M) : Prop :=
  Chain.IsChain v.next (v.keeping t) l ∧ ∀ m, m ∈ l ↔ v.owner m = some t

/-- The ownership invariant. -/
structure Inv (v : OwnView T M) : Prop where
  keeps : ∀ t, ∃ l, v.Keeps t l
  free_next : ∀ m, v.owner m = none → v.next m = none

variable {v : OwnView T M} {m : M} {t : T}

/-- A mutex owned by one thread is on no other thread's list. -/
theorem Keeps.not_mem {u : T} {l : List M} (hl : v.Keeps u l) (hm : v.owner m = some t)
    (hu : u ≠ t) : m ∉ l := fun hml => hu (Option.some.inj (((hl.2 m).mp hml).symm.trans hm))

variable [DecidableEq T] [DecidableEq M]

/-- **Taking a free mutex** (`mutex->th = th; mutex_locked(th, self)`): `t` pushes `m` on its
list. -/
theorem Inv.take (h : v.Inv) (hm : v.owner m = none) (t : T) :
    (⟨Function.update v.owner m (some t), Function.update v.next m (v.keeping t),
      Function.update v.keeping t (some m)⟩ : OwnView T M).Inv := by
  constructor
  · intro u
    obtain ⟨l, hch, hmem⟩ := h.keeps u
    have hml : m ∉ l := fun hml => by simp [(hmem m).mp hml] at hm
    by_cases hu : u = t
    · -- the new head: `m`, whose `next_mutex` is the old head
      subst hu
      refine ⟨m :: l, by simpa using hch.push hml, fun n => ?_⟩
      by_cases hn : n = m
      · subst hn; simp
      · simp [hn, hmem n]
    · -- another thread: its list does not hold `m`, the only cell written
      refine ⟨l, ?_, fun n => ?_⟩
      · dsimp only
        rw [Function.update_of_ne hu]
        exact hch.congr fun b hb => Function.update_of_ne (fun hbm => hml (by rwa [hbm] at hb)) _ _
      · by_cases hn : n = m
        · subst hn; simp [hml, Ne.symm hu]
        · simp [hn, hmem n]
  · intro n hn
    by_cases hnm : n = m
    · subst hnm; simp at hn
    · simp only [Function.update_of_ne hnm] at hn ⊢
      exact h.free_next n hn

/-- **Releasing a mutex** (`rb_mutex_unlock_th`): `m` loses its owner, the link the walk finds
is written with `m`'s successor, and `m`'s `next_mutex` is cleared. `t`'s list loses `m`; the
other lists are untouched, since the link written is `t`'s head or a cell of `t`'s list. -/
theorem Inv.release (h : v.Inv) (hm : v.owner m = some t) {fuel : ℕ} {q : Option M}
    (hq : Chain.findLink (v.keeping t) v.next m fuel none = some q) :
    (⟨Function.update v.owner m none,
      Function.update (Chain.setLink (v.keeping t) v.next (v.next m) q).2 m none,
      Function.update v.keeping t (Chain.setLink (v.keeping t) v.next (v.next m) q).1⟩ :
        OwnView T M).Inv := by
  obtain ⟨l, hch, hmem⟩ := h.keeps t
  have hml : m ∈ l := (hmem m).mpr hm
  have hnd := hch.nodup
  obtain ⟨hqmem, hchain⟩ := Chain.findLink_spec (p := none) (by simpa using hch) hml
    (by simp) hq
  simp only [Chain.deref_none] at hchain
  -- the link written is `t`'s head or a cell that `t` owns
  have hq_owned : ∀ b, some b = q → v.owner b = some t := by
    intro b hb
    rcases hqmem with hq' | ⟨c, hc, hq'⟩
    · rw [hq'] at hb; exact absurd hb (by simp)
    · rw [hq', Option.some.injEq] at hb
      rw [hb]
      exact (hmem c).mp hc
  constructor
  · intro u
    by_cases hu : u = t
    · -- `t`'s list loses `m`
      subst hu
      refine ⟨l.erase m, ?_, fun n => ?_⟩
      · dsimp only
        rw [Function.update_self]
        exact hchain.congr fun b hb =>
          Function.update_of_ne ((List.Nodup.mem_erase_iff hnd).mp hb).1 _ _
      · rw [List.Nodup.mem_erase_iff hnd, hmem n]
        by_cases hn : n = m
        · subst hn; simp
        · simp [hn]
    · obtain ⟨l', hch', hmem'⟩ := h.keeps u
      have hml' : m ∉ l' := Keeps.not_mem ⟨hch', hmem'⟩ hm hu
      refine ⟨l', ?_, fun n => ?_⟩
      · dsimp only
        rw [Function.update_of_ne hu]
        refine hch'.congr fun b hb => ?_
        have hbm : b ≠ m := fun hbm => hml' (hbm ▸ hb)
        rw [Function.update_of_ne hbm]
        refine Chain.setLink_next_of_ne fun hbq => hu ?_
        exact Option.some.inj (((hmem' b).mp hb).symm.trans (hq_owned b hbq))
      · by_cases hn : n = m
        · subst hn; simp [hml']
        · simp [hn, hmem' n]
  · intro n hn
    by_cases hnm : n = m
    · subst hnm; simp
    · simp only [Function.update_of_ne hnm] at hn ⊢
      rw [Chain.setLink_next_of_ne fun hnq => by simp [hq_owned n hnq] at hn]
      exact h.free_next n hn

end OwnView

/-! ## The wait-queue invariant -/

/-- What the wait-queue invariant reads: the queues, and where each thread is and its status. -/
structure WaitView (T M : Type) where
  waitq : M → List T
  pc : T → Pc M
  status : T → ThreadStatus

/-- The wait-queue view of a state. -/
def VM.waitView (s : VM T M) : WaitView T M := ⟨s.waitq, s.pc, s.status⟩

/-- A thread that may sit in a wait queue: asleep in `rb_mutex_lock` on that mutex. -/
def Waiting (pc : Pc M) (m : M) : Prop := ∃ prev c, pc = .lockWait m prev c

@[simp] theorem not_waiting_running (m : M) : ¬ Waiting (Pc.running : Pc M) m := by
  simp [Waiting]

@[simp] theorem not_waiting_sleepWait (m n : M) (prev : ThreadStatus) :
    ¬ Waiting (Pc.sleepWait n prev) m := by
  simp [Waiting]

namespace WaitView

/-- The wait-queue invariant. -/
structure Inv (v : WaitView T M) : Prop where
  waiting : ∀ m u, u ∈ v.waitq m → Waiting (v.pc u) m ∧
    (v.status u = .stoppedForever ∨ v.status u = .runnable)
  nodup : ∀ m, (v.waitq m).Nodup

variable {v : WaitView T M} {m : M} {t : T}

/-- A thread that is not asleep in `rb_mutex_lock` is in no queue. -/
theorem Inv.not_mem (h : v.Inv) (ht : ∀ m, ¬ Waiting (v.pc t) m) (m : M) : t ∉ v.waitq m :=
  fun hm => ht m (h.waiting m t hm).1

section
variable [DecidableEq M]

/-- **`rb_mutex_unlock_th` takes the first waiter, if any, off the queue.** -/
theorem Inv.tail (h : v.Inv) (m : M) :
    (⟨Function.update v.waitq m (v.waitq m).tail, v.pc, v.status⟩ : WaitView T M).Inv := by
  refine ⟨fun n w hw => h.waiting n w ?_, fun n => ?_⟩
  · by_cases hn : n = m
    · subst hn
      simp only [Function.update_self] at hw
      exact List.mem_of_mem_tail hw
    · simpa [hn] using hw
  · by_cases hn : n = m
    · subst hn; simpa using (h.nodup n).sublist (List.tail_sublist _)
    · simpa [hn] using h.nodup n

end

variable [DecidableEq T]

/-- A thread in no queue may go anywhere, with any status. -/
theorem Inv.setThread (h : v.Inv) (ht : ∀ m, t ∉ v.waitq m) (p : Pc M) (st : ThreadStatus) :
    (⟨v.waitq, Function.update v.pc t p, Function.update v.status t st⟩ : WaitView T M).Inv := by
  refine ⟨fun n u hu => ?_, h.nodup⟩
  have hut : u ≠ t := fun hut => ht n (hut ▸ hu)
  simpa [Function.update_of_ne hut] using h.waiting n u hu

/-- **`rb_thread_wakeup_alive`**: a stopped thread becomes runnable. -/
theorem Inv.wakeup (h : v.Inv) (u : T) :
    (⟨v.waitq, v.pc, Function.update v.status u
      (if v.status u = .stopped ∨ v.status u = .stoppedForever then .runnable else v.status u)⟩ :
        WaitView T M).Inv := by
  refine ⟨fun n w hw => ?_, h.nodup⟩
  obtain ⟨hpc, hst⟩ := h.waiting n w hw
  refine ⟨hpc, ?_⟩
  by_cases hwu : w = u
  · subst hwu
    rcases hst with hst | hst <;> simp [hst]
  · simpa [Function.update_of_ne hwu] using hst

variable [DecidableEq M]

/-- **A thread goes to sleep in `rb_mutex_lock(m)`**: it joins the tail of `m`'s queue. -/
theorem Inv.enqueue (h : v.Inv) (ht : ∀ m, t ∉ v.waitq m) (prev : ThreadStatus)
    (c : LockCaller) :
    (⟨Function.update v.waitq m (v.waitq m ++ [t]), Function.update v.pc t (.lockWait m prev c),
      Function.update v.status t .stoppedForever⟩ : WaitView T M).Inv := by
  refine ⟨fun n u hu => ?_, fun n => ?_⟩
  · by_cases hut : u = t
    · subst hut
      by_cases hn : n = m
      · subst hn; simp [Waiting]
      · simp [hn] at hu; exact absurd hu (ht n)
    · simp only [Function.update_of_ne hut]
      refine h.waiting n u ?_
      by_cases hn : n = m
      · subst hn; simpa [hut] using hu
      · simpa [hn] using hu
  · by_cases hn : n = m
    · subst hn
      simpa [List.nodup_append] using ⟨h.nodup n, fun a ha (hat : a = t) => ht n (hat ▸ ha)⟩
    · simpa [hn] using h.nodup n

/-- **A sleeping thread wakes in `rb_mutex_lock(m)`**: its waiter leaves `m`'s queue, the only
one it is in. -/
theorem Inv.dequeue {prev : ThreadStatus} {c : LockCaller} (h : v.Inv)
    (ht : v.pc t = .lockWait m prev c) (p : Pc M) (st : ThreadStatus) :
    (⟨Function.update v.waitq m ((v.waitq m).erase t), Function.update v.pc t p,
      Function.update v.status t st⟩ : WaitView T M).Inv := by
  refine ⟨fun n u hu => ?_, fun n => ?_⟩
  · by_cases hut : u = t
    · -- `t` is in no queue any more: not `m`'s after the erase, and no other since it waits on `m`
      subst hut
      exfalso
      by_cases hn : n = m
      · subst hn
        simp only [Function.update_self] at hu
        exact (h.nodup n).not_mem_erase hu
      · simp only [Function.update_of_ne hn] at hu
        obtain ⟨⟨prev', c', hpc⟩, -⟩ := h.waiting n u hu
        rw [ht] at hpc
        cases hpc
        exact hn rfl
    · simp only [Function.update_of_ne hut]
      refine h.waiting n u ?_
      by_cases hn : n = m
      · subst hn
        dsimp only at hu
        rw [Function.update_self] at hu
        exact List.mem_of_mem_erase hu
      · simpa [hn] using hu
  · by_cases hn : n = m
    · subst hn; simpa using (h.nodup n).erase t
    · simpa [hn] using h.nodup n

end WaitView

/-! ## What each function does to the views -/

section Views

variable [DecidableEq T] (s : VM T M) (t u : T) (m : M)

@[simp] theorem ownView_interrupt : (interrupt s u).ownView = s.ownView := by
  simp [interrupt, VM.ownView]

@[simp] theorem waitView_interrupt : (interrupt s u).waitView = s.waitView := by
  simp [interrupt, VM.waitView]

@[simp] theorem ownView_checkIntsBlocking : (checkIntsBlocking s t).1.ownView = s.ownView := by
  by_cases h : (s.threads t).pendingInterrupts = 0 <;> simp [checkIntsBlocking, h, VM.ownView]

@[simp] theorem waitView_checkIntsBlocking : (checkIntsBlocking s t).1.waitView = s.waitView := by
  by_cases h : (s.threads t).pendingInterrupts = 0 <;> simp [checkIntsBlocking, h, VM.waitView]

@[simp] theorem ownView_lockReturn (c : LockCaller) : (lockReturn s t m c).ownView = s.ownView := by
  cases c <;> simp [lockReturn, VM.ownView]

@[simp] theorem waitView_lockReturn (c : LockCaller) :
    (lockReturn s t m c).waitView = s.waitView := by
  cases c <;> simp [lockReturn, VM.waitView]

variable [DecidableEq M]

theorem ownView_mutexLocked {s : VM T M} {m : M} (hfree : s.nextMutexOf m = none) :
    (mutexLocked s t m).ownView =
      ⟨s.owner, Function.update s.nextMutexOf m (s.keeping t),
        Function.update s.keeping t (some m)⟩ := by
  unfold mutexLocked
  split
  · rename_i k hk
    simp [VM.ownView, ← hk]
  · -- an empty list: `next_mutex` keeps its `NULL`
    rename_i hk
    simp only [VM.threads_keepingMutexes] at hk
    simp [VM.ownView, hk, ← hfree]

@[simp] theorem waitView_mutexLocked : (mutexLocked s t m).waitView = s.waitView := by
  unfold mutexLocked
  split <;> simp [VM.waitView]

@[simp] theorem ownView_lockSleep (c : LockCaller) : (lockSleep s t m c).ownView = s.ownView := by
  simp [lockSleep, VM.ownView]

theorem waitView_lockSleep (c : LockCaller) :
    (lockSleep s t m c).waitView =
      ⟨Function.update s.waitq m (s.waitq m ++ [t]),
        Function.update s.pc t (.lockWait m (s.status t) c),
        Function.update s.status t .stoppedForever⟩ := by
  simp [lockSleep, VM.waitView]

theorem ownView_writeLink (v q : Option M) :
    (s.writeLink t v q).ownView =
      ⟨s.owner, (Chain.setLink (s.keeping t) s.nextMutexOf v q).2,
        Function.update s.keeping t (Chain.setLink (s.keeping t) s.nextMutexOf v q).1⟩ := by
  cases q <;> simp [VM.writeLink, Chain.setLink, VM.ownView]

@[simp] theorem waitView_writeLink (v q : Option M) : (s.writeLink t v q).waitView = s.waitView := by
  cases q <;> simp [VM.writeLink, VM.waitView]

end Views

/-! ## The invariant -/

/-- The invariant of every reachable state. -/
structure Inv [DecidableEq T] [DecidableEq M] (s : VM T M) : Prop where
  own : s.ownView.Inv
  wait : s.waitView.Inv
  /-- a thread asleep in `rb_mutex_lock(m)` does not own `m` -/
  waiting_not_owner : ∀ t m, Waiting (s.pc t) m → s.owner m ≠ some t

@[simp] theorem keeping_init (t : T) : (init : VM T M).keeping t = none := rfl
@[simp] theorem owner_init (m : M) : (init : VM T M).owner m = none := rfl
@[simp] theorem waitq_init (m : M) : (init : VM T M).waitq m = [] := rfl

section Preserve

variable [DecidableEq T] [DecidableEq M] {s s' : VM T M} {t u : T} {m : M}

/-- A state with the same views keeps the invariant. -/
theorem Inv.congr (h : Inv s) (ho : s'.ownView = s.ownView) (hw : s'.waitView = s.waitView) :
    Inv s' := by
  have hown : s'.owner = s.owner := congrArg OwnView.owner ho
  have hpc : s'.pc = s.pc := congrArg WaitView.pc hw
  refine ⟨ho ▸ h.own, hw ▸ h.wait, fun t m hwt => ?_⟩
  rw [hown]
  exact h.waiting_not_owner t m (hpc ▸ hwt)

theorem Inv.init : Inv (init : VM T M) where
  own := ⟨fun _ => ⟨[], by simp [VM.ownView, OwnView.Keeps]⟩, fun _ _ => rfl⟩
  wait := ⟨fun _ _ hu => by simp [VM.waitView] at hu, fun _ => by simp [VM.waitView]⟩
  waiting_not_owner := fun _ _ _ => by simp

theorem Inv.interrupt (h : Inv s) (u : T) : Inv (interrupt s u) := h.congr (by simp) (by simp)

theorem Inv.checkIntsBlocking (h : Inv s) (t : T) : Inv (checkIntsBlocking s t).1 :=
  h.congr (by simp) (by simp)

theorem Inv.lockReturn (h : Inv s) (c : LockCaller) : Inv (lockReturn s t m c) :=
  h.congr (by simp) (by simp)

/-- A thread in no queue may be given any place but a wait in `rb_mutex_lock`, and any status. -/
theorem Inv.setThread (h : Inv s) (ht : ∀ n, t ∉ s.waitq n) (y : RbThread M)
    (hy : ∀ n, ¬ Waiting y.pc n) (hk : y.keepingMutexes = s.keeping t) :
    Inv (s.setThread t y) := by
  refine ⟨by simpa [VM.ownView, hk] using h.own, ?_, fun u n hwu => ?_⟩
  · simpa [VM.waitView] using h.wait.setThread ht y.pc y.status
  · by_cases hut : u = t
    · subst hut; simp [hy n] at hwu
    · simpa using h.waiting_not_owner u n (by simpa [hut] using hwu)

/-- **`rb_mutex_lock` goes to sleep** on a mutex the thread does not own. -/
theorem Inv.lockSleep (h : Inv s) (ht : ∀ n, t ∉ s.waitq n) (hown : s.owner m ≠ some t)
    (c : LockCaller) : Inv (lockSleep s t m c) := by
  refine ⟨by simpa using h.own, ?_, fun u n hwu => ?_⟩
  · rw [waitView_lockSleep]
    exact h.wait.enqueue ht (s.status t) c
  · have ho : (CRuby.Sync.lockSleep s t m c).owner = s.owner :=
      congrArg OwnView.owner (ownView_lockSleep ..)
    have hpc := congrArg WaitView.pc (waitView_lockSleep s t m c)
    simp only [VM.waitView] at hpc
    rw [ho]
    rw [hpc] at hwu
    by_cases hut : u = t
    · -- the sleeper waits on `m`, which it does not own
      subst hut
      obtain ⟨_, _, hw⟩ := hwu
      simp only [Function.update_self, Pc.lockWait.injEq] at hw
      rw [← hw.1]
      exact hown
    · rw [Function.update_of_ne hut] at hwu
      exact h.waiting_not_owner u n hwu

omit [DecidableEq T] in
/-- Taking a mutex keeps "no sleeper owns what it waits for", if the taker does not sleep. -/
theorem waiting_not_owner_take {owner : M → Option T} {pc : T → Pc M}
    (h : ∀ u n, Waiting (pc u) n → owner n ≠ some u) (ht : ∀ n, ¬ Waiting (pc t) n) :
    ∀ u n, Waiting (pc u) n → Function.update owner m (some t) n ≠ some u := by
  intro u n hwu
  by_cases hn : n = m
  · subst hn
    rw [Function.update_self]
    rintro ⟨⟩
    exact ht _ hwu
  · rw [Function.update_of_ne hn]
    exact h u n hwu

omit [DecidableEq M] in
/-- A thread moved out of every wait keeps "no sleeper owns what it waits for". -/
theorem waiting_not_owner_update_pc {owner : M → Option T} {pc : T → Pc M} {p : Pc M}
    (h : ∀ u n, Waiting (pc u) n → owner n ≠ some u) (hp : ∀ n, ¬ Waiting p n) :
    ∀ u n, Waiting (Function.update pc t p u) n → owner n ≠ some u := by
  intro u n hwu
  by_cases hut : u = t
  · subst hut
    rw [Function.update_self] at hwu
    exact absurd hwu (hp n)
  · rw [Function.update_of_ne hut] at hwu
    exact h u n hwu

/-- **Taking a free mutex keeps the invariant** (`mutex->th = th; mutex_locked(th, self)`): `d`
is a state of the invariant's queues and places in which `m`, free in `s`, now belongs to `t`,
which does not sleep. -/
theorem Inv.mutexLocked {d : VM T M} (h : Inv s) (hfree : s.owner m = none)
    (hown : d.ownView = ⟨Function.update s.owner m (some t), s.nextMutexOf, s.keeping⟩)
    (hw : d.waitView.Inv) (hwno : ∀ u n, Waiting (d.pc u) n → s.owner n ≠ some u)
    (ht : ∀ n, ¬ Waiting (d.pc t) n) : Inv (mutexLocked d t m) := by
  have ho : d.owner = Function.update s.owner m (some t) := congrArg OwnView.owner hown
  have hn : d.nextMutexOf = s.nextMutexOf := congrArg OwnView.next hown
  have hk : d.keeping = s.keeping := congrArg OwnView.keeping hown
  have hov := ownView_mutexLocked (s := d) (m := m) t (by rw [hn]; exact h.own.free_next m hfree)
  refine ⟨?_, ?_, ?_⟩
  · rw [hov, ho, hn, hk]
    exact h.own.take hfree t
  · rwa [waitView_mutexLocked]
  · have hpc := congrArg WaitView.pc (waitView_mutexLocked d t m)
    simp only [VM.waitView] at hpc
    rw [show (CRuby.Sync.mutexLocked d t m).owner = d.owner from congrArg OwnView.owner hov, hpc,
      ho]
    exact waiting_not_owner_take hwno ht

/-- **`rb_mutex_trylock` keeps the invariant**, for a thread that is not asleep. -/
theorem Inv.rbMutexTrylock (h : Inv s) (ht : ∀ n, ¬ Waiting (s.pc t) n) :
    Inv (rbMutexTrylock s t m).1 := by
  unfold CRuby.Sync.rbMutexTrylock
  split_ifs with hfree
  · -- the mutex was free: it is taken and heads `t`'s list
    simp only [VM.mutexes_th] at hfree
    exact h.mutexLocked hfree (by simp [VM.ownView]) (by simpa [VM.waitView] using h.wait)
      (by simpa using h.waiting_not_owner) (by simpa using ht)
  · exact h

theorem rbMutexTrylock_eq_self (hs : (rbMutexTrylock s t m).2 = false) :
    (rbMutexTrylock s t m).1 = s := by
  unfold rbMutexTrylock at hs ⊢
  split_ifs at hs ⊢
  rfl

/-- **`rb_mutex_lock` up to its first sleep keeps the invariant**: a return after `try_lock`, an
error, or a sleep on a mutex held by another thread. -/
theorem Inv.rbMutexLock (h : Inv s) (ht : ∀ n, ¬ Waiting (s.pc t) n) (c : LockCaller) :
    Inv (rbMutexLock s t m c).1 := by
  have htry := h.rbMutexTrylock (m := m) ht
  unfold CRuby.Sync.rbMutexLock
  rcases hr : CRuby.Sync.rbMutexTrylock s t m with ⟨s1, _ | _⟩
  · have hs1 : s1 = s := by simpa [hr] using rbMutexTrylock_eq_self (s := s) (t := t) (m := m)
    subst hs1
    dsimp only
    split_ifs with hown
    · exact h
    · exact h.lockSleep (h.wait.not_mem ht) (by simpa using hown) c
  · rw [hr] at htry
    exact htry.lockReturn c

/-- **The waking thread leaves the queue and takes the mutex if it is free.** -/
theorem Inv.lockTake {prev prev' : ThreadStatus} {c : LockCaller} (h : Inv s)
    (hpc : s.pc t = .lockWait m prev c) : Inv (lockTake s t m prev') := by
  have hnot : s.owner m ≠ some t := h.waiting_not_owner t m ⟨prev, c, hpc⟩
  have hwno := waiting_not_owner_update_pc (t := t) h.waiting_not_owner
    (not_waiting_running (M := M))
  unfold CRuby.Sync.lockTake
  by_cases hfree : s.owner m = none
  · -- a free mutex: the thread takes it
    simp only [VM.mutexes_th, hfree, if_true, VM.setThread_mutexes, VM.setMutex_mutexes_self]
    exact h.mutexLocked hfree (by simp [VM.ownView])
      (by simp only [VM.waitView]; simp; exact h.wait.dequeue hpc _ _) (by simpa using hwno)
      (by simp)
  · -- a mutex held by another thread: only the dequeue
    simp only [VM.mutexes_th, hfree, if_false, VM.setThread_mutexes, VM.setMutex_mutexes_self,
      hnot]
    refine ⟨by simpa [VM.ownView] using h.own,
      by simp only [VM.waitView]; simp; exact h.wait.dequeue hpc _ _, ?_⟩
    simpa using hwno

theorem pc_mutexLocked : (mutexLocked s t m).pc = s.pc :=
  congrArg WaitView.pc (waitView_mutexLocked s t m)

omit [DecidableEq M] in
theorem pc_checkIntsBlocking : (checkIntsBlocking s t).1.pc = s.pc :=
  congrArg WaitView.pc (waitView_checkIntsBlocking s t)

omit [DecidableEq M] in
theorem owner_checkIntsBlocking : (checkIntsBlocking s t).1.owner = s.owner :=
  congrArg OwnView.owner (ownView_checkIntsBlocking s t)

/-- After `lockTake` the thread runs. -/
theorem pc_lockTake (prev : ThreadStatus) : (lockTake s t m prev).pc t = .running := by
  unfold lockTake
  dsimp only
  split_ifs <;> simp [pc_mutexLocked]

/-- **`rb_mutex_lock` after a sleep keeps the invariant**: it returns holding the mutex, raises,
or sleeps again on a mutex held by another thread. -/
theorem Inv.lockWake {prev : ThreadStatus} {c : LockCaller} (h : Inv s)
    (hpc : s.pc t = .lockWait m prev c) (prev' : ThreadStatus) (c' : LockCaller) :
    Inv (lockWake s t m prev' c').1 := by
  have h1 : Inv (CRuby.Sync.checkIntsBlocking (CRuby.Sync.lockTake s t m prev') t).1 :=
    (h.lockTake hpc).checkIntsBlocking t
  have hrun : (CRuby.Sync.checkIntsBlocking (CRuby.Sync.lockTake s t m prev') t).1.pc t =
      .running := by
    rw [pc_checkIntsBlocking, pc_lockTake]
  unfold CRuby.Sync.lockWake
  rcases hc : CRuby.Sync.checkIntsBlocking (CRuby.Sync.lockTake s t m prev') t with ⟨s4, _ | _⟩
  · rw [hc] at h1 hrun
    dsimp only
    split_ifs with hown
    · exact h1.lockReturn c'
    · exact h1.lockSleep (h1.wait.not_mem (by simp [VM.waitView, hrun])) (by simpa using hown) c'
  · rw [hc] at h1
    exact h1

/-! ### `rb_mutex_unlock_th` -/

/-- What the waiter loop of `rb_mutex_unlock_th` does when it does not hit `rb_bug`: the first
waiter leaves the queue, and the ownership views stay. -/
theorem wakeupWaiter_ok (hs : wakeupWaiter s m = .ok s') :
    s'.ownView = s.ownView ∧
      s'.waitView = ⟨Function.update s.waitq m (s.waitq m).tail, s.pc, s.status⟩ := by
  unfold wakeupWaiter at hs
  split at hs
  · rename_i hq
    cases hs
    simp only [VM.mutexes_waitq] at hq
    rw [hq, List.tail_nil, ← hq, Function.update_eq_self]
    exact ⟨rfl, rfl⟩
  · rename_i u rest hq
    simp only [VM.mutexes_waitq] at hq
    dsimp only at hs
    split at hs <;> cases hs <;> simp [interrupt, VM.ownView, VM.waitView, hq]

theorem unlinkKeeping_ok {fuel : ℕ} (hs : unlinkKeeping fuel s t m = .ok s') :
    ∃ q, Chain.findLink (s.keeping t) s.nextMutexOf m fuel none = some q ∧
      s' = s.writeLink t (s.nextMutexOf m) q := by
  unfold unlinkKeeping at hs
  split at hs
  · cases hs
  · rename_i q hq
    cases hs
    exact ⟨q, hq, rfl⟩

/-- **`rb_mutex_unlock_th` by a thread that does not own the mutex** returns its error and
changes nothing. -/
theorem rbMutexUnlockTh_of_ne {fuel : ℕ} (h : s.owner m ≠ some t) :
    rbMutexUnlockTh fuel s m t =
      .ok (s, some (if s.owner m = none then "Attempt to unlock a mutex which is not locked"
        else "Attempt to unlock a mutex which is locked by another thread")) := by
  unfold rbMutexUnlockTh
  simp only [VM.mutexes_th]
  rcases ho : s.owner m with _ | o
  · rfl
  · have hot : o ≠ t := fun hot => h (by rw [ho, hot])
    simp [hot]

/-- **What `rb_mutex_unlock_th` does when it returns**: an error that changes nothing, or, for the
owner, the release. `m` loses its owner and its first waiter, the walk finds a link `q`, `m`'s
successor is written there, and `m`'s `next_mutex` is cleared. -/
theorem rbMutexUnlockTh_ok {fuel : ℕ} {e : Option String}
    (hs : rbMutexUnlockTh fuel s m t = .ok (s', e)) :
    (s' = s ∧ s.owner m ≠ some t) ∨
      (e = none ∧ s.owner m = some t ∧
        ∃ q, Chain.findLink (s.keeping t) s.nextMutexOf m fuel none = some q ∧
          s'.ownView = ⟨Function.update s.owner m none,
            Function.update (Chain.setLink (s.keeping t) s.nextMutexOf (s.nextMutexOf m) q).2 m
              none,
            Function.update s.keeping t
              (Chain.setLink (s.keeping t) s.nextMutexOf (s.nextMutexOf m) q).1⟩ ∧
          s'.waitView = ⟨Function.update s.waitq m (s.waitq m).tail, s.pc, s.status⟩) := by
  by_cases hown : s.owner m = some t
  · right
    unfold rbMutexUnlockTh at hs
    simp only [VM.mutexes_th, hown, ne_eq, not_true_eq_false, if_false] at hs
    obtain ⟨s1, hw, hs⟩ := Except.bind_eq_ok hs
    obtain ⟨s2, hu, hs⟩ := Except.bind_eq_ok hs
    cases hs
    obtain ⟨hwo, hww⟩ := wakeupWaiter_ok hw
    obtain ⟨q, hq, rfl⟩ := unlinkKeeping_ok hu
    -- the walk runs on the views of `s` with `m` free, which it does not read
    have hk : s1.keeping = s.keeping := by simpa [VM.ownView] using congrArg OwnView.keeping hwo
    have hn : s1.nextMutexOf = s.nextMutexOf := by
      simpa [VM.ownView] using congrArg OwnView.next hwo
    have ho : s1.owner = Function.update s.owner m none := by
      simpa [VM.ownView] using congrArg OwnView.owner hwo
    rw [hk, hn] at hq
    refine ⟨rfl, hown, q, hq, ?_, ?_⟩
    · have hov := ownView_writeLink s1 t (s1.nextMutexOf m) q
      simp only [VM.ownView, OwnView.mk.injEq] at hov ⊢
      rw [hn, hk] at hov
      simp [hov.1, hov.2.1, hov.2.2, ho, hn]
    · have hwl := waitView_writeLink s1 t (s1.nextMutexOf m) q
      simp only [VM.waitView, WaitView.mk.injEq] at hww hwl ⊢
      simp only [VM.waitq_setMutex, VM.mutexes_waitq, Function.update_eq_self, VM.pc_setMutex,
        VM.status_setMutex, Function.update_self] at hww
      simp [hwl.1, hwl.2.1, hwl.2.2, hww.1, hww.2.1, hww.2.2]
  · left
    rw [rbMutexUnlockTh_of_ne hown] at hs
    cases hs
    exact ⟨rfl, hown⟩

/-- **`rb_mutex_unlock_th` keeps the invariant.** -/
theorem Inv.rbMutexUnlockTh {fuel : ℕ} {e : Option String} (h : Inv s)
    (hs : rbMutexUnlockTh fuel s m t = .ok (s', e)) : Inv s' := by
  rcases rbMutexUnlockTh_ok hs with ⟨rfl, -⟩ | ⟨-, hown, q, hq, hov, hwv⟩
  · exact h
  · refine ⟨hov ▸ h.own.release hown hq, hwv ▸ h.wait.tail m, fun u n hwu => ?_⟩
    have ho : s'.owner = Function.update s.owner m none := congrArg OwnView.owner hov
    have hpc : s'.pc = s.pc := congrArg WaitView.pc hwv
    rw [ho]
    rw [hpc] at hwu
    by_cases hn : n = m
    · subst hn; simp
    · rw [Function.update_of_ne hn]
      exact h.waiting_not_owner u n hwu

theorem pc_of_rbMutexUnlockTh {fuel : ℕ} {e : Option String}
    (hs : rbMutexUnlockTh fuel s m t = .ok (s', e)) : s'.pc = s.pc := by
  rcases rbMutexUnlockTh_ok hs with ⟨rfl, -⟩ | ⟨-, -, q, -, -, hwv⟩
  · rfl
  · exact congrArg WaitView.pc hwv

/-! ### The other operations -/

theorem rbMutexUnlock_ok {fuel : ℕ} {o : Outcome} (hs : rbMutexUnlock fuel s t m = .ok (s', o)) :
    ∃ e, rbMutexUnlockTh fuel s m t = .ok (s', e) := by
  obtain ⟨⟨s1, e⟩, hu, hs⟩ := Except.bind_eq_ok hs
  cases e <;> cases hs <;> exact ⟨_, hu⟩

theorem Inv.rbMutexUnlock {fuel : ℕ} {o : Outcome} (h : Inv s)
    (hs : rbMutexUnlock fuel s t m = .ok (s', o)) : Inv s' := by
  obtain ⟨e, hu⟩ := rbMutexUnlock_ok hs
  exact h.rbMutexUnlockTh hu

/-- A change to a thread that only the model's control reads (its `ensures`, its interrupt
state) keeps the invariant. -/
theorem Inv.setThread_same (h : Inv s) (y : RbThread M) (hk : y.keepingMutexes = s.keeping t)
    (hpc : y.pc = s.pc t) (hst : y.status = s.status t) : Inv (s.setThread t y) :=
  h.congr (by simp [VM.ownView, hk]) (by simp [VM.waitView, hpc, hst])

theorem Inv.leaveSynchronize {fuel : ℕ} {o : Outcome} (h : Inv s)
    (hs : leaveSynchronize fuel s t = .ok (s', o)) : Inv s' := by
  unfold CRuby.Sync.leaveSynchronize at hs
  split at hs
  · cases hs
  · rename_i m rest _
    exact (h.setThread_same { s.threads t with ensures := rest } rfl rfl rfl).rbMutexUnlock hs

/-- A running thread that keeps running and keeps its mutexes keeps the invariant. -/
theorem Inv.setThread_running (h : Inv s) (hrun : s.pc t = .running) (y : RbThread M)
    (hy : y.pc = .running) (hk : y.keepingMutexes = s.keeping t) : Inv (s.setThread t y) :=
  h.setThread (h.wait.not_mem (by simp [VM.waitView, hrun])) y (by simp [hy]) hk

/-- **`rb_mutex_sleep` up to its sleep keeps the invariant**, from a running thread. -/
theorem Inv.rbMutexSleep {fuel : ℕ} {o : Outcome} (h : Inv s) (hrun : s.pc t = .running)
    (hs : rbMutexSleep fuel s t m = .ok (s', o)) : Inv s' := by
  obtain ⟨⟨s1, e⟩, hu, hs⟩ := Except.bind_eq_ok hs
  have h1 := h.rbMutexUnlockTh hu
  have hrun1 : s1.pc t = .running := by rw [pc_of_rbMutexUnlockTh hu, hrun]
  cases e with
  | some err => cases hs; exact h1
  | none =>
    -- `sleep_forever` marks the thread and checks interrupts
    have h2 := (h1.setThread_running hrun1 { s1.threads t with status := .stoppedForever }
      hrun1 rfl).checkIntsBlocking t
    have hrun2 : (CRuby.Sync.checkIntsBlocking (s1.setThread t
        { s1.threads t with status := .stoppedForever }) t).1.pc t = .running := by
      simp [pc_checkIntsBlocking, hrun1]
    dsimp only at hs
    rcases hc : CRuby.Sync.checkIntsBlocking (s1.setThread t
      { s1.threads t with status := .stoppedForever }) t with ⟨s3, _ | _⟩
    all_goals rw [hc] at h2 hrun2 hs
    · -- asleep in `native_sleep`
      cases hs
      exact h2.setThread (h2.wait.not_mem (by simp [VM.waitView, hrun2])) _ (by simp) rfl
    · -- raised: the ensure relocks
      have hl : CRuby.Sync.rbMutexLock s3 t m .sleep = (s', o) := Except.ok.inj hs
      have h3 := h2.rbMutexLock (t := t) (m := m) (by simp at hrun2; simp [hrun2]) .sleep
      rwa [hl] at h3

/-- **Waking in `rb_mutex_sleep` keeps the invariant**: the thread relocks. -/
theorem Inv.sleepWake {prev : ThreadStatus} (h : Inv s) (hpc : s.pc t = .sleepWait m prev)
    (prev' : ThreadStatus) : Inv (sleepWake s t m prev').1 := by
  have h1 := (h.setThread (h.wait.not_mem (by simp [VM.waitView, hpc]))
    { s.threads t with pc := .running } (by simp) rfl).checkIntsBlocking t
  have hrun1 : (CRuby.Sync.checkIntsBlocking (s.setThread t { s.threads t with pc := .running })
      t).1.pc t = .running := by simp [pc_checkIntsBlocking]
  unfold CRuby.Sync.sleepWake
  dsimp only
  rcases hc : CRuby.Sync.checkIntsBlocking (s.setThread t { s.threads t with pc := .running }) t
    with ⟨s2, _ | _⟩
  all_goals rw [hc] at h1 hrun1
  · have h2 := h1.setThread_running hrun1 { s2.threads t with status := prev' } hrun1 rfl
    exact h2.rbMutexLock (by simp [hrun1]) .sleep
  · exact h1.rbMutexLock (by simp [hrun1]) .sleep

theorem Inv.threadRaise (h : Inv s) (t u : T) : Inv (threadRaise s t u).1 := by
  unfold CRuby.Sync.threadRaise
  -- the queued exception changes no view
  have h1 := (h.setThread_same (t := u)
    { s.threads u with pendingInterrupts := (s.threads u).pendingInterrupts + 1 }
    rfl rfl rfl).interrupt u
  split_ifs
  · exact h
  · exact h1.checkIntsBlocking t
  · exact h1

theorem Inv.threadWakeupAlive (h : Inv s) (u : T) : Inv (threadWakeupAlive s u).1 := by
  have h1 := h.interrupt u
  unfold CRuby.Sync.threadWakeupAlive
  dsimp only
  split_ifs with hk hst
  · exact h
  · -- a stopped thread becomes runnable, which a waiter may be
    refine ⟨by simpa [VM.ownView] using h1.own, ?_, fun w n hwn => ?_⟩
    · have hw := h1.wait.wakeup u
      rw [if_pos (by simp only [VM.waitView]; simpa using hst)] at hw
      simpa [VM.waitView] using hw
    · simpa using h1.waiting_not_owner w n (by simpa using hwn)
  · exact h1

theorem unlockAllLockingMutexes_none {fuel n : ℕ} :
    unlockAllLockingMutexes fuel t n s none = .ok s := by
  cases n <;> rfl

theorem Inv.unlockAllLockingMutexes {fuel n : ℕ} {p : Option M} (h : Inv s)
    (hs : unlockAllLockingMutexes fuel t n s p = .ok s') : Inv s' := by
  induction n generalizing s p with
  | zero =>
    cases p with
    | none => rw [unlockAllLockingMutexes_none] at hs; cases hs; exact h
    | some m => cases hs
  | succ n ih =>
    cases p with
    | none => rw [unlockAllLockingMutexes_none] at hs; cases hs; exact h
    | some m =>
      obtain ⟨⟨s1, e⟩, hu, hs⟩ := Except.bind_eq_ok hs
      cases e with
      | none => exact ih (h.rbMutexUnlockTh hu) hs
      | some err => cases hs

theorem Inv.threadEnd {fuel : ℕ} {o : Outcome} (h : Inv s) (hrun : s.pc t = .running)
    (hs : threadEnd fuel s t = .ok (s', o)) : Inv s' := by
  obtain ⟨s1, hu, hs⟩ := Except.bind_eq_ok hs
  cases hs
  exact (h.setThread_running hrun { s.threads t with status := .killed } hrun rfl
    ).unlockAllLockingMutexes hu

/-! ### Steps and runs -/

theorem Inv.of_ok_eq {x : VM T M × Outcome} {o : Outcome} (h : Inv x.1)
    (hs : (.ok x : Except Stuck (VM T M × Outcome)) = .ok (s', o)) : Inv s' := by
  obtain rfl := Except.ok.inj hs
  exact h

/-- **Every call of a running thread keeps the invariant.** -/
theorem Inv.callStep {fuel : ℕ} {a : Action T M} {o : Outcome} (h : Inv s)
    (hrun : s.pc t = .running) (hs : callStep fuel s t a = .ok (s', o)) : Inv s' := by
  have hnw : ∀ n, ¬ Waiting (s.pc t) n := by simp [hrun]
  cases a with
  | lock m => exact (h.rbMutexLock hnw .lock).of_ok_eq hs
  | tryLock m => exact (h.rbMutexTrylock hnw).of_ok_eq hs
  | unlock m => exact h.rbMutexUnlock hs
  | synchronize m => exact (h.rbMutexLock hnw .synchronize).of_ok_eq hs
  | leaveSynchronize => exact h.leaveSynchronize hs
  | sleep m => exact h.rbMutexSleep hrun hs
  | wake => cases hs
  | raise u => exact (h.threadRaise t u).of_ok_eq hs
  | wakeup u => exact (h.threadWakeupAlive u).of_ok_eq hs
  | exit =>
    simp only [CRuby.Sync.callStep] at hs
    split_ifs at hs
    exact h.threadEnd hrun hs

/-- **One segment keeps the invariant.** -/
theorem Inv.step {fuel : ℕ} {a : Action T M} {o : Outcome} (h : Inv s)
    (hs : step fuel s t a = .ok (s', o)) : Inv s' := by
  unfold CRuby.Sync.step at hs
  split at hs
  · -- woken in the wait loop of `rb_mutex_lock`
    rename_i hpc
    exact (h.lockWake hpc _ _).of_ok_eq hs
  · -- woken in `rb_mutex_sleep`
    rename_i hpc
    exact (h.sleepWake hpc _).of_ok_eq hs
  · rename_i hpc
    split_ifs at hs
    exact h.callStep hpc hs
  · cases hs

/-- **The invariant holds in every reachable state.** -/
theorem Reachable.inv (hr : Reachable s) : Inv s := by
  induction hr with
  | init => exact Inv.init
  | step _ hs ih => exact ih.step hs

end Preserve

end CRuby.Sync
