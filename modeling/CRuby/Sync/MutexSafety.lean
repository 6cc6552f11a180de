import CRuby.Sync.MutexInv
import Mathlib.Data.Fintype.Card

/-!
# What `Mutex` guarantees, and the lock it can leak

Consequences of `Reachable.inv` over every state a program reaches:

* a thread's `keeping_mutexes` list ends, has no repeats and holds exactly the mutexes the
  thread owns (`keeping_mutexes_owned`), so no mutex is on two lists;
* with a walk fuel of at least the number of mutexes, no segment reaches a `rb_bug` and every
  `keeping_mutexes` walk ends (`step_error_eq_disabled`);
* `Mutex#unlock` by a thread that does not own the mutex raises `ThreadError` and changes
  nothing (`rbMutexUnlock_of_not_owner`); by the owner, it frees the mutex and hands the first
  waiter out of the queue with its interrupt flag set (`rbMutexUnlock_wakes_first_waiter`), and
  a waiter that wakes on a free mutex takes it (`wake_takes_free_mutex`);
* `rb_mutex_lock` returns only holding the mutex (`rbMutexLock_returned_owner`,
  `lockWake_returned_owner`).

It does not always *raise* without the mutex: in the wait loop the thread takes the mutex before
`RUBY_VM_CHECK_INTS_BLOCKING`, which raises a queued exception (`lockWake_raised_holding`).
`rb_mutex_synchronize` installs its `rb_ensure` only after `rb_mutex_lock` returns, so the block
is left by that exception with the mutex held and no ensure to release it.
-/

namespace CRuby.Sync

variable {T M : Type}

section Safety

variable [DecidableEq T] [DecidableEq M] {s s' : VM T M} {t u : T} {m : M}

/-- **`keeping_mutexes` in a reachable state**: following `next_mutex` from the head ends, visits
no mutex twice, and visits exactly the mutexes the thread owns. -/
theorem keeping_mutexes_owned (hr : Reachable s) (t : T) :
    ∃ l, Chain.IsChain s.nextMutexOf (s.keeping t) l ∧ l.Nodup ∧
      ∀ m, m ∈ l ↔ s.owner m = some t := by
  obtain ⟨l, hc, hl⟩ := hr.inv.own.keeps t
  exact ⟨l, hc, hc.nodup, hl⟩

/-- A reachable run of segments ends in a reachable state. -/
theorem Reachable.run {fuel : ℕ} {tr : List (T × Action T M)} {os : List Outcome}
    (hr : Reachable s) (h : run fuel s tr = .ok (s', os)) : Reachable s' := by
  induction tr generalizing s os with
  | nil => cases h; exact hr
  | cons ta tr ih =>
    obtain ⟨⟨s1, o⟩, h1, h⟩ := Except.bind_eq_ok h
    obtain ⟨⟨s2, os2⟩, h2, h⟩ := Except.bind_eq_ok h
    cases h
    exact ih (hr.step h1) h2

/-! ### `rb_mutex_lock` -/

/-- `mutex_locked` changes no owner. -/
@[simp] theorem owner_mutexLocked : (mutexLocked s t m).owner = s.owner := by
  unfold mutexLocked
  split <;> simp

/-- `mutex_locked` writes only the thread's `keeping_mutexes`. -/
theorem threads_mutexLocked :
    (mutexLocked s t m).threads =
      Function.update s.threads t { s.threads t with keepingMutexes := some m } := by
  unfold mutexLocked
  split <;> rfl

theorem rbMutexTrylock_owner (h : (rbMutexTrylock s t m).2 = true) :
    (rbMutexTrylock s t m).1.owner m = some t := by
  unfold rbMutexTrylock at h ⊢
  split_ifs at h ⊢
  simp

/-- **`rb_mutex_lock` returns only holding the mutex** (from its first `rb_mutex_trylock`). -/
theorem rbMutexLock_returned_owner {c : LockCaller} (h : (rbMutexLock s t m c).2 = .returned) :
    (rbMutexLock s t m c).1.owner m = some t := by
  have htry := rbMutexTrylock_owner (s := s) (t := t) (m := m)
  unfold rbMutexLock at h ⊢
  rcases hr : rbMutexTrylock s t m with ⟨s1, _ | _⟩
  · -- a failed `rb_mutex_trylock` raises or sleeps
    rw [hr] at h
    dsimp only at h
    split_ifs at h
  · rw [hr] at htry
    cases c <;> simpa [lockReturn] using htry rfl

/-- The owner of a mutex after `lockTake`: the waiter, if the mutex was free. -/
theorem owner_lockTake (prev : ThreadStatus) :
    (lockTake s t m prev).owner m = if s.owner m = none then some t else s.owner m := by
  unfold lockTake
  dsimp only
  split_ifs <;> simp_all

/-- **`rb_mutex_lock` returns after a sleep only holding the mutex**: the loop test
`mutex->th != th` runs after the last `RUBY_VM_CHECK_INTS_BLOCKING`. -/
theorem lockWake_returned_owner {prev : ThreadStatus} {c : LockCaller}
    (h : (lockWake s t m prev c).2 = .returned) : (lockWake s t m prev c).1.owner m = some t := by
  unfold lockWake at h ⊢
  rcases hc : checkIntsBlocking (lockTake s t m prev) t with ⟨s1, _ | _⟩
  · rw [hc] at h
    dsimp only at h ⊢
    split_ifs at h ⊢ with hown
    · cases c <;> simpa [lockReturn] using hown
  · rw [hc] at h
    cases h

omit [DecidableEq M] in
theorem pendingInterrupts_checkIntsBlocking :
    ((checkIntsBlocking s t).2 = true) ↔ (s.threads t).pendingInterrupts ≠ 0 := by
  unfold checkIntsBlocking
  dsimp only
  split_ifs with h <;> simp [h]

theorem pendingInterrupts_lockTake (prev : ThreadStatus) :
    ((lockTake s t m prev).threads t).pendingInterrupts = (s.threads t).pendingInterrupts := by
  unfold lockTake
  dsimp only
  split_ifs <;> simp [threads_mutexLocked]

theorem ensures_lockTake (prev : ThreadStatus) :
    ((lockTake s t m prev).threads t).ensures = (s.threads t).ensures := by
  unfold lockTake
  dsimp only
  split_ifs <;> simp [threads_mutexLocked]

/-- **A waiter that wakes on a free mutex takes it**, and `rb_mutex_lock` either returns or
raises a queued exception. -/
theorem lockWake_of_free {prev : ThreadStatus} {c : LockCaller} (hfree : s.owner m = none) :
    (lockWake s t m prev c).1.owner m = some t ∧
      ((lockWake s t m prev c).2 = .returned ∨ (lockWake s t m prev c).2 = .raised) := by
  have hown : (lockTake s t m prev).owner m = some t := by rw [owner_lockTake, if_pos hfree]
  have hown' := hown
  rw [← owner_checkIntsBlocking (t := t)] at hown'
  unfold lockWake
  rcases hc : checkIntsBlocking (lockTake s t m prev) t with ⟨s1, _ | _⟩
  all_goals rw [hc] at hown'
  · -- no exception: the loop test sees the mutex held and `rb_mutex_lock` returns
    dsimp only at hown' ⊢
    rw [if_pos (by simpa using hown')]
    cases c <;> simpa [lockReturn] using hown'
  · exact ⟨hown', .inr rfl⟩

/-- **A waiter that wakes on a free mutex with a queued exception raises holding the mutex.**
`lockTake` gives it the mutex and pushes it on `keeping_mutexes`, then
`RUBY_VM_CHECK_INTS_BLOCKING` raises. `rb_mutex_lock` does not return, so
`rb_mutex_synchronize` installs no ensure for it: the thread's ensure stack is the one it had. -/
theorem lockWake_raised_holding {prev : ThreadStatus} {c : LockCaller} (hfree : s.owner m = none)
    (hpend : (s.threads t).pendingInterrupts ≠ 0) :
    (lockWake s t m prev c).2 = .raised ∧ (lockWake s t m prev c).1.owner m = some t ∧
      ((lockWake s t m prev c).1.threads t).ensures = (s.threads t).ensures := by
  have hraise : (checkIntsBlocking (lockTake s t m prev) t).2 = true := by
    rw [pendingInterrupts_checkIntsBlocking, pendingInterrupts_lockTake]
    exact hpend
  have hown : (lockTake s t m prev).owner m = some t := by rw [owner_lockTake, if_pos hfree]
  have hens := ensures_lockTake (s := s) (t := t) (m := m) prev
  unfold lockWake
  rcases hc : checkIntsBlocking (lockTake s t m prev) t with ⟨s1, b⟩
  rw [hc] at hraise
  cases hraise
  have hs1 : s1 = (checkIntsBlocking (lockTake s t m prev) t).1 := by rw [hc]
  subst hs1
  refine ⟨rfl, by rw [owner_checkIntsBlocking, hown], ?_⟩
  unfold checkIntsBlocking
  dsimp only
  split_ifs <;> simp [hens]

/-! ### `rb_mutex_unlock` -/

/-- **Unlocking a mutex the thread does not own** raises `ThreadError` with the message of
`rb_mutex_unlock_th` and changes nothing. -/
theorem rbMutexUnlock_of_not_owner {fuel : ℕ} (h : s.owner m ≠ some t) :
    rbMutexUnlock fuel s t m =
      .ok (s, .threadError (if s.owner m = none then "Attempt to unlock a mutex which is not locked"
        else "Attempt to unlock a mutex which is locked by another thread")) := by
  unfold rbMutexUnlock
  rw [rbMutexUnlockTh_of_ne h]
  rfl

/-- The waiter loop hits no `rb_bug`: a queued thread sleeps in `rb_mutex_lock`, as
`THREAD_STOPPED_FOREVER` or, once woken by `Thread#wakeup`, as `THREAD_RUNNABLE`. -/
theorem wakeupWaiter_isOk (hw : s.waitView.Inv) (m : M) : ∃ s', wakeupWaiter s m = .ok s' := by
  unfold wakeupWaiter
  split
  · exact ⟨_, rfl⟩
  · rename_i u rest hq
    have hst := (hw.waiting m u (show u ∈ (s.mutexes m).waitq by rw [hq]; exact List.mem_cons_self)).2
    simp only [VM.waitView] at hst
    dsimp only
    rcases hst with hst | hst <;> simp [hst]

/-- The waiter loop interrupts the first waiter. -/
theorem wakeupWaiter_interrupts {rest : List T} (hq : s.waitq m = u :: rest)
    (hw : wakeupWaiter s m = .ok s') : (s'.threads u).interrupted = true := by
  unfold wakeupWaiter at hw
  simp only [VM.mutexes_waitq, hq] at hw
  split at hw <;> cases hw <;> simp [interrupt]

theorem threads_writeLink_of_ne (v q : Option M) (hu : u ≠ t) :
    (s.writeLink t v q).threads u = s.threads u := by
  cases q <;> simp [VM.writeLink, hu]

/-- **`rb_mutex_unlock_th` reaches no `rb_bug` and its walk ends** when the fuel covers the
mutexes: the walk runs along the owner's `keeping_mutexes`, which holds the mutex and no mutex
twice. -/
theorem rbMutexUnlockTh_isOk [Fintype M] {fuel : ℕ} (h : Inv s) (hfuel : Fintype.card M ≤ fuel)
    (m : M) (t : T) : ∃ r, rbMutexUnlockTh fuel s m t = .ok r := by
  by_cases hown : s.owner m = some t
  · obtain ⟨l, hc, hl⟩ := h.own.keeps t
    obtain ⟨s1, hw⟩ := wakeupWaiter_isOk (s := s.setMutex m { s.mutexes m with th := none })
      (by simpa [VM.waitView] using h.wait) m
    have hwo := (wakeupWaiter_ok hw).1
    have hk : s1.keeping = s.keeping := by simpa [VM.ownView] using congrArg OwnView.keeping hwo
    have hn : s1.nextMutexOf = s.nextMutexOf := by
      simpa [VM.ownView] using congrArg OwnView.next hwo
    obtain ⟨q, hq⟩ : ∃ q, Chain.findLink (s.keeping t) s.nextMutexOf m fuel none = some q :=
      Chain.findLink_isSome hc ((hl m).mpr hown) (hc.nodup.length_le_card.trans hfuel)
    unfold rbMutexUnlockTh
    simp only [VM.mutexes_th, hown, ne_eq, not_true_eq_false, if_false]
    rw [hw]
    simp only [bind, Except.bind, unlinkKeeping, hk, hn]
    rw [hq]
    exact ⟨_, rfl⟩
  · exact ⟨_, rbMutexUnlockTh_of_ne hown⟩

section Fuel

variable [Fintype M] {fuel : ℕ}

theorem rbMutexUnlock_isOk (h : Inv s) (hfuel : Fintype.card M ≤ fuel) (t : T) (m : M) :
    ∃ r, rbMutexUnlock fuel s t m = .ok r := by
  obtain ⟨⟨s1, e⟩, hu⟩ := rbMutexUnlockTh_isOk h hfuel m t
  unfold rbMutexUnlock
  rw [hu]
  cases e <;> exact ⟨_, rfl⟩

theorem rbMutexSleep_isOk (h : Inv s) (hfuel : Fintype.card M ≤ fuel) (t : T) (m : M) :
    ∃ r, rbMutexSleep fuel s t m = .ok r := by
  obtain ⟨⟨s1, e⟩, hu⟩ := rbMutexUnlockTh_isOk h hfuel m t
  unfold rbMutexSleep
  rw [hu]
  cases e with
  | some err => exact ⟨_, rfl⟩
  | none =>
    simp only [bind, Except.bind]
    split <;> exact ⟨_, rfl⟩

/-- Unlocking the head of a thread's `keeping_mutexes`: the head moves on to the mutex's
`next_mutex`, and the mutex's own link is cleared. -/
theorem rbMutexUnlockTh_head (h : Inv s) (hfuel : Fintype.card M ≤ fuel)
    (hk : s.keeping t = some m) :
    ∃ s', rbMutexUnlockTh fuel s m t = .ok (s', none) ∧ s'.keeping t = s.nextMutexOf m ∧
      s'.nextMutexOf = Function.update s.nextMutexOf m none := by
  obtain ⟨l, hc, hl⟩ := h.own.keeps t
  have hown : s.owner m = some t := by
    have hc' : Chain.IsChain s.nextMutexOf (s.keeping t) l := hc
    rw [hk] at hc'
    obtain ⟨l', rfl, -⟩ := Chain.isChain_some_iff.mp hc'
    exact (hl m).mp List.mem_cons_self
  obtain ⟨⟨s', e⟩, hs⟩ := rbMutexUnlockTh_isOk h hfuel m t
  rcases rbMutexUnlockTh_ok hs with ⟨-, hne⟩ | ⟨rfl, -, q, hq, hov, -⟩
  · exact absurd hown hne
  · -- the walk stops at once, at the head
    obtain ⟨f, rfl⟩ : ∃ f, fuel = f + 1 :=
      ⟨fuel - 1, by have := Fintype.card_pos_iff.mpr ⟨m⟩; omega⟩
    rw [Chain.findLink_succ, Chain.deref_none, hk] at hq
    obtain rfl : q = none := by simpa using hq.symm
    refine ⟨s', hs, ?_, ?_⟩
    · simpa [VM.ownView, Chain.setLink] using congrFun (congrArg OwnView.keeping hov) t
    · simpa [VM.ownView, Chain.setLink] using congrArg OwnView.next hov

/-- **`rb_threadptr_unlock_all_locking_mutexes` ends without a `rb_bug`** when its turns cover the
thread's list: each turn unlocks the head, and the rest of the list is a chain one shorter. -/
theorem unlockAllLockingMutexes_isOk (h : Inv s) (hfuel : Fintype.card M ≤ fuel) {l : List M}
    (hc : Chain.IsChain s.nextMutexOf (s.keeping t) l) {n : ℕ} (hn : l.length ≤ n) :
    ∃ s', unlockAllLockingMutexes fuel t n s (s.keeping t) = .ok s' := by
  induction l generalizing s n with
  | nil =>
    rw [show s.keeping t = none from hc.eq_head]
    exact ⟨s, unlockAllLockingMutexes_none⟩
  | cons m l ih =>
    obtain ⟨hkt, hrest⟩ := Chain.isChain_cons_iff.mp hc
    obtain ⟨n, rfl⟩ : ∃ k, n = k + 1 := ⟨n - 1, by simp at hn; omega⟩
    obtain ⟨s1, hs1, hk1, hn1⟩ := rbMutexUnlockTh_head h hfuel hkt
    -- the rest of the list, without `m`, whose link is the one cleared
    have hml : m ∉ l := (List.nodup_cons.mp hc.nodup).1
    have hc1 : Chain.IsChain s1.nextMutexOf (s1.keeping t) l := by
      rw [hk1, hn1]
      exact hrest.congr fun b hb => Function.update_of_ne (by rintro rfl; exact hml hb) _ _
    obtain ⟨s', hs'⟩ := ih (h.rbMutexUnlockTh hs1) hc1 (by simpa using hn)
    refine ⟨s', ?_⟩
    rw [hkt]
    simp only [unlockAllLockingMutexes, bind, Except.bind, VM.mutexes_nextMutex, hs1]
    rw [← hk1]
    exact hs'

theorem threadEnd_isOk (h : Inv s) (hrun : s.pc t = .running) (hfuel : Fintype.card M ≤ fuel) :
    ∃ r, threadEnd fuel s t = .ok r := by
  have h1 := h.setThread_running hrun { s.threads t with status := .killed } hrun rfl
  obtain ⟨l, hc, -⟩ := h1.own.keeps t
  obtain ⟨s', hs'⟩ := unlockAllLockingMutexes_isOk h1 hfuel hc (hc.nodup.length_le_card.trans hfuel)
  refine ⟨(s', .returned), ?_⟩
  unfold threadEnd
  simp only [VM.threads_keepingMutexes] at hs' ⊢
  rw [hs']
  rfl

theorem error_of_isOk {ε α : Type} {x : Except ε α} {e : ε} (hx : ∃ r, x = .ok r)
    (he : x = .error e) : False := by
  obtain ⟨r, rfl⟩ := hx
  cases he

/-- A call of a running thread fails only where the action is not a call. -/
theorem callStep_error {a : Action T M} {e : Stuck} (h : Inv s) (hrun : s.pc t = .running)
    (hfuel : Fintype.card M ≤ fuel) (he : callStep fuel s t a = .error e) : e = .disabled := by
  cases a with
  | unlock m => exact (error_of_isOk (rbMutexUnlock_isOk h hfuel t m) he).elim
  | leaveSynchronize =>
    simp only [callStep, leaveSynchronize] at he
    split at he
    · exact (Except.error.inj he).symm
    · rename_i m rest _
      have h1 := h.setThread_same { s.threads t with ensures := rest } rfl rfl rfl
      exact (error_of_isOk (rbMutexUnlock_isOk h1 hfuel t m) he).elim
  | sleep m => exact (error_of_isOk (rbMutexSleep_isOk h hfuel t m) he).elim
  | wake => exact (Except.error.inj he).symm
  | exit =>
    simp only [callStep] at he
    split_ifs at he
    · exact (error_of_isOk (threadEnd_isOk h hrun hfuel) he).elim
    · exact (Except.error.inj he).symm
  | _ => cases he

/-- **No `rb_bug`, and every walk ends.** In a reachable state, with a walk fuel of at least the
number of mutexes, a segment fails only when the thread cannot take that action. -/
theorem step_error_eq_disabled {a : Action T M} {e : Stuck} (hr : Reachable s)
    (hfuel : Fintype.card M ≤ fuel) (he : step fuel s t a = .error e) : e = .disabled := by
  unfold step at he
  split at he
  · cases he
  · cases he
  · rename_i hpc
    split_ifs at he
    · exact (Except.error.inj he).symm
    · exact callStep_error hr.inv hpc hfuel he
  · exact (Except.error.inj he).symm

/-- **Unlocking hands the mutex to the first waiter**: the owner's unlock frees it, takes the first
waiter out of the queue and sets its interrupt flag, which ends its `native_sleep`; the waiter is
still in the wait loop of `rb_mutex_lock` on the mutex. -/
theorem rbMutexUnlock_wakes_first_waiter {rest : List T} (hr : Reachable s)
    (hfuel : Fintype.card M ≤ fuel) (hown : s.owner m = some t) (hq : s.waitq m = u :: rest) :
    ∃ s', rbMutexUnlock fuel s t m = .ok (s', .returned) ∧ s'.owner m = none ∧
      s'.waitq m = rest ∧ Waiting (s'.pc u) m ∧ (s'.threads u).interrupted = true := by
  have h := hr.inv
  have hwu := h.wait.waiting m u (by simp [VM.waitView, hq])
  -- the waiter is not the owner
  have hut : u ≠ t := by
    rintro rfl
    exact h.waiting_not_owner u m hwu.1 hown
  obtain ⟨⟨s', e⟩, hs⟩ := rbMutexUnlockTh_isOk h hfuel m t
  rcases rbMutexUnlockTh_ok hs with ⟨-, hne⟩ | ⟨rfl, -, q, -, hov, hwv⟩
  · exact absurd hown hne
  · refine ⟨s', by rw [rbMutexUnlock, hs]; rfl, ?_, ?_, ?_, ?_⟩
    · simpa [VM.ownView] using congrFun (congrArg OwnView.owner hov) m
    · simpa [VM.waitView, hq] using congrFun (congrArg WaitView.waitq hwv) m
    · simpa [VM.waitView, ← congrArg WaitView.pc hwv] using hwu.1
    · unfold rbMutexUnlockTh at hs
      simp only [VM.mutexes_th, hown, ne_eq, not_true_eq_false, if_false] at hs
      obtain ⟨s1, hw, hs⟩ := Except.bind_eq_ok hs
      obtain ⟨s2, hu, hs⟩ := Except.bind_eq_ok hs
      obtain ⟨q, -, rfl⟩ := unlinkKeeping_ok hu
      cases hs
      simp only [VM.setMutex_threads, threads_writeLink_of_ne _ _ hut]
      exact wakeupWaiter_interrupts (by simpa using hq) hw

end Fuel

/-- **A waiter that wakes on a free mutex takes it**, whether `rb_mutex_lock` then returns or
raises. -/
theorem wake_takes_free_mutex {fuel : ℕ} {prev : ThreadStatus} {c : LockCaller}
    (hpc : s.pc u = .lockWait m prev c) (hfree : s.owner m = none) :
    ∃ s' o, step fuel s u .wake = .ok (s', o) ∧ s'.owner m = some u ∧
      (o = .returned ∨ o = .raised) := by
  obtain ⟨hown, ho⟩ : (lockWake s u m prev c).1.owner m = some u ∧
      ((lockWake s u m prev c).2 = .returned ∨ (lockWake s u m prev c).2 = .raised) :=
    lockWake_of_free hfree
  refine ⟨_, _, ?_, hown, ho⟩
  unfold step
  rw [show (s.threads u).pc = _ from hpc]

theorem exists_reachable_of_run {fuel : ℕ} {tr : List (T × Action T M)} {os : List Outcome}
    {P : VM T M → Prop} (h : ∃ s, run fuel init tr = .ok (s, os) ∧ P s) :
    ∃ s, run fuel init tr = .ok (s, os) ∧ Reachable s ∧ P s := by
  obtain ⟨s, hs, hp⟩ := h
  exact ⟨s, hs, Reachable.init.run hs, hp⟩

/-- **The lock leaks out of `Mutex#synchronize`.** Thread 0 holds mutex 0, thread 1 waits for it
in `Mutex#synchronize`, thread 0 unlocks it and raises on thread 1, which then wakes: it takes
the mutex and raises, so `Mutex#synchronize` exits by the exception with thread 1 holding the
mutex and no ensure block to release it. -/
theorem synchronize_raise_leaks_mutex :
    ∃ s : VM (Fin 2) (Fin 1),
      run 1 init [(0, .lock 0), (1, .synchronize 0), (0, .unlock 0), (0, .raise 1), (1, .wake)] =
        .ok (s, [.returned, .blocked, .returned, .returned, .raised]) ∧
      Reachable s ∧ s.owner 0 = some 1 ∧ s.pc 1 = .running ∧ (s.threads 1).ensures = [] := by
  apply exists_reachable_of_run
  exact ⟨_, rfl, rfl, rfl, rfl⟩

end Safety

end CRuby.Sync
